import PromiseDemo.System.Reliable

/-!
# Sessions and truthful readiness

A link to a session of `promise_server_asio` in a run in which no system call fails and
`wait_readable` tells the truth: the session stays open, `recv_some` is called only when there is
something to read, and every packet fits the `int` that `::send` takes.
-/

namespace PromiseDemo

open Transition PromiseStore PrefixCode Duplex

/-- As `calm`, and `wait_readable` tells the truth. -/
def prompt (link : Link) : LinkAction → Bool
  | .inl (.io (.waitReadable ready)) => ready == !link.back.isEmpty
  | a => calm link a

theorem calm_of_prompt {link : Link} {a : LinkAction} (h : prompt link a = true) :
    calm link a = true := by
  cases a with
  | inl a =>
    cases a with
    | io op =>
      cases op with
      | waitReadable ready => rfl
      | _ => exact h
    | _ => exact h
  | inr a => exact h

/-- The packets of a connection fit the `int` that `::send` takes. -/
structure Fitting (v : View) : Prop where
  outgoing : ∀ f ∈ v.conn.outgoing, f.payload.length < 2 ^ 31 - 8
  sending : ∀ {data sent}, v.phase = .sending data sent → data.length < 2 ^ 31

theorem Fitting.step {v v' : View} {a : Action} {h es : List Event} (hf : Fitting v)
    (hs : Sound h v) (ha : ∀ payload, a = .sendRequest payload → payload.length < 2 ^ 31 - 8)
    (hstep : View.step v a = some (v', es)) : Fitting v' := by
  refine ⟨?_, ?_⟩
  · cases ViewStep.of_step hstep with
    | @sendRequest v payload hp =>
      intro f hmem
      rw [Connection.sendRequest_outgoing] at hmem
      split at hmem
      · exact hf.outgoing f hmem
      · rcases List.mem_append.mp hmem with hmem | hmem
        · exact hf.outgoing f hmem
        · rw [List.mem_singleton.mp hmem]
          exact ha payload rfl
    | io hio =>
      cases hio with
      | received hp hc => subst hc; exact hf.outgoing
      | lost hv =>
        obtain ⟨promises, rfl, -⟩ := hs.ledger.of_closeStep hv
        exact fun f hmem => nomatch hmem
      | broken hv =>
        obtain ⟨promises, rfl, -⟩ := hs.ledger.of_closeStep hv
        exact fun f hmem => nomatch hmem
      | decoded hd => cases hd; exact hf.outgoing
      | popped ho => exact fun f hmem => hf.outgoing f (ho ▸ List.mem_cons_of_mem _ hmem)
      | _ => exact hf.outgoing
    | enter => exact hf.outgoing
    | leave => exact hf.outgoing
  · intro data sent hphase
    rcases (View.step_sending hstep hphase).2 with ⟨sent', hphase', -⟩ |
      ⟨-, -, -, -, packet, rest, ho, rfl⟩
    · exact hf.sending hphase'
    · have hlen := hf.outgoing packet (ho ▸ List.mem_cons_self ..)
      rw [encodeFrame_length]
      omega

/-- A link to a session in a run with truthful readiness, after history `h`. -/
structure Lively (h : List LinkEvent) (link : Link) : Prop where
  reliable : Reliable h link
  session : ∃ s, link.right = .asio s ∧ s.isOpen = true
  attentive : link.left.phase = .receive → link.back ≠ []
  fitting : Fitting link.left
  forthRoom : full link.forthCap 0 = false
  backRoom : full link.backCap 0 = false

namespace Lively

variable {h es : List LinkEvent} {link link' : Link} {a : LinkAction}

theorem start {forthCap backCap : Option ℕ} (hforth : full forthCap 0 = false)
    (hback : full backCap 0 = false) : Lively [] (Link.start .asio forthCap backCap) where
  reliable := .start .asio forthCap backCap
  session := ⟨Session.start, rfl, rfl⟩
  attentive hp := nomatch hp
  fitting := ⟨fun _ hf => (nomatch hf), fun hp => (nomatch hp)⟩
  forthRoom := hforth
  backRoom := hback

theorem receiveStep {v : View} {b : Action} {ls : List Event} {back : Bytes}
    (hl : Lively h link) (ha : prompt link (.inl b) = true) (hv : View.step link.left b = some (v, ls))
    (hback : link.back = receivedOf ls ++ back) (hphase : v.phase = .receive) : back ≠ [] := by
  generalize hleft : link.left = w at hv
  cases ViewStep.of_step hv with
  | @sendRequest w payload hp =>
    rw [receivedOf_sendEvents, List.nil_append] at hback
    rw [← hback]
    exact hl.attentive (hleft ▸ hphase)
  | io hio =>
    cases hio with
    | readable hf hc =>
      rw [receivedOf_nil, List.nil_append] at hback
      rw [← hback]
      simpa [prompt] using ha
    | received hp hc =>
      dsimp only at hphase
      split at hphase <;> cases hphase
    | pushed hr =>
      dsimp only at hphase
      split at hphase <;> cases hphase
    | lost hv => cases Connection.closeStep_next hv hphase rfl
    | broken hv => cases Connection.closeStep_next hv hphase rfl
    | _ => cases hphase
  | enter => cases hphase
  | leave => cases hphase

theorem step (hl : Lively h link) (ha : prompt link a = true)
    (hstep : linkBody.step link a = some (link', es))
    (hcount : (queuedOf (lefts (h ++ es))).length < 2 ^ 32) : Lively (h ++ es) link' := by
  have hreliable := hl.reliable.step (calm_of_prompt ha) hstep hcount
  have hconnected := hl.reliable.delivering.connected
  cases linkStep_iff.mp hstep with
  | client hv hback hfits =>
    refine ⟨hreliable, hl.session, hl.receiveStep ha hv hback, ?_, hl.forthRoom, hl.backRoom⟩
    refine hl.fitting.step hconnected.sound ?_ hv
    rintro payload rfl
    simp only [prompt, calm, Bool.and_eq_true, decide_eq_true_eq] at ha
    exact ha.1
  | server ht hforth hfits =>
    refine ⟨hreliable, ?_, ?_, hl.fitting, hl.forthRoom, hl.backRoom⟩
    · obtain ⟨s, hs, hopen⟩ := hl.session
      have hserving := hconnected.serving
      rw [hs] at ht hserving
      cases ServerStep.of_step ht with
      | asio hst =>
        refine ⟨_, rfl, ?_⟩
        cases hst with
        | closed hr hk ho =>
          -- the handler of a failed write, of which there is none
          cases hserving with
          | asio hw hr =>
            cases hw with
            | idle hw => exact (no_op hw hk).elim
            | busy hw _ _ _ hf =>
              obtain ⟨-, rfl⟩ := only_op hw hk
              exact absurd (hf.mp ho) hl.reliable.written
            | failed hw => exact (no_op hw hk).elim
        | _ => exact hopen
    · intro hphase hnil
      exact hl.attentive hphase (List.append_eq_nil_iff.mp hnil).1

end Lively

end PromiseDemo
