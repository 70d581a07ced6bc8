import PromiseDemo.Server.SelectConnection

/-!
# The reply stream of `promise_server`

The loop body ignores what `send_all` returns.  The bytes on the wire stay in step with the replies
as long as a connection on which a `::send` has failed accepts no further byte.
-/

namespace PromiseDemo

open Transition PrefixCode

/-- What is on the wire of a connection after history `h` can be cut into frames again. -/
structure StreamIntact (h : List ServerEvent) : Prop where
  front : sentBytes h <+: replies (requestsOf h)
  /-- After a frame that has been sent only in part or not at all no byte of a later one is sent. -/
  torn : ∀ before after, h = before ++ .writeFailed :: after → sentBytes after = []

/-- Once a `::send` has failed, no later one accepts anything. -/
def FailsForGood (as : List SelectAction) : Prop :=
  ∀ before after, as = before ++ .send .failed :: after → ∀ n, .send (.accepted n) ∉ after

variable {h es : List ServerEvent} {c d : SelectConnection} {a : SelectAction}
  {as : List SelectAction}

theorem SelectStep.send_failed (hstep : SelectStep c (.send .failed) d es) :
    es = [.writeFailed] := by
  cases hstep with
  | echoFailed hs => rfl
  | finishFailed hs => rfl

theorem SelectStep.of_writeFailed (hstep : SelectStep c a d es) (hmem : .writeFailed ∈ es) :
    a = .send .failed := by
  cases hstep with
  | echoFailed hs => rfl
  | finishFailed hs => rfl
  | _ => simp at hmem

theorem SelectStep.sentBytes_ne_nil (hstep : SelectStep c a d es) :
    sentBytes es ≠ [] ↔ ∃ n, a = .send (.accepted n) := by
  have some : ∀ {data : Bytes} {sent n : ℕ}, sent < data.length →
      (SendResult.accepted n).possible (data.length - sent) = true →
      sentBytes [.sent ((data.drop sent).take n)] ≠ [] := by
    intro data sent n hs hp
    simp only [SendResult.possible, Bool.and_eq_true, decide_eq_true_eq] at hp
    rw [← List.length_pos_iff]
    simp only [sentBytes_cons, ServerEvent.writes, sentBytes_nil, List.append_nil, List.length_take,
      List.length_drop]
    omega
  cases hstep with
  | echoSome hs hp => exact iff_of_true (some hs hp) ⟨_, rfl⟩
  | finishSome hs hp => exact iff_of_true (some hs hp) ⟨_, rfl⟩
  | _ => simp

theorem FailsForGood.tail (hf : FailsForGood (a :: as)) : FailsForGood as := by
  intro before after heq
  exact hf (a :: before) after (by rw [heq, List.cons_append])

theorem FailsForGood.nil : FailsForGood [] := by
  intro before after heq
  simp at heq

theorem FailsForGood.cons (hfirst : a = .send .failed → ∀ n, .send (.accepted n) ∉ as)
    (hf : FailsForGood as) : FailsForGood (a :: as) := by
  intro before after heq n hmem
  cases before with
  | nil =>
    obtain ⟨ha, rfl⟩ := List.cons.inj heq
    exact hfirst ha n hmem
  | cons b before => exact hf before after (List.cons.inj heq).2 n hmem

theorem StreamIntact.step (hi : StreamIntact h) (he : Echoing h c)
    (hlast : .writeFailed ∈ h → ∀ n, a ≠ .send (.accepted n)) (hstep : SelectStep c a d es) :
    StreamIntact (h ++ es) := by
  have hquiet : .writeFailed ∈ h → sentBytes es = [] := by
    intro hfailed
    by_contra hne
    obtain ⟨n, hn⟩ := hstep.sentBytes_ne_nil.mp hne
    exact hlast hfailed n hn
  refine ⟨?_, ?_⟩
  · by_cases hall : .writeFailed ∈ h ++ es
    · have hnone : sentBytes es = [] := by
        rcases List.mem_append.mp hall with hmem | hmem
        · exact hquiet hmem
        · have ha := hstep.of_writeFailed hmem
          subst ha
          rw [hstep.send_failed]
          rfl
      rw [sentBytes_append, hnone, List.append_nil, requestsOf_append, replies_append]
      exact hi.front.trans (List.prefix_append _ _)
    · exact ⟨_, (he.step hstep).exact hall⟩
  · intro before after heq
    rcases split_event heq with ⟨rest, hold, rfl⟩ | ⟨front, -, hnew⟩
    · have hmem : .writeFailed ∈ h := by simp [hold]
      rw [sentBytes_append, hi.torn before rest hold, hquiet hmem, List.append_nil]
    · have ha := hstep.of_writeFailed (by simp [hnew])
      subst ha
      rw [hstep.send_failed] at hnew
      rw [(single_event hnew).2, sentBytes_nil]

theorem StreamIntact.exec {k : List ServerEvent} (hi : StreamIntact h) (he : Echoing h c)
    (hgood : FailsForGood as) (hlast : .writeFailed ∈ h → ∀ n, .send (.accepted n) ∉ as)
    (hexec : Transition.exec SelectConnection.step anyAction c as = some (d, k)) :
    StreamIntact (h ++ k) := by
  induction as generalizing h c k with
  | nil =>
    obtain ⟨-, rfl⟩ := exec_nil_eq_some.mp hexec
    rwa [List.append_nil]
  | cons a as ih =>
    obtain ⟨u, es, k', -, hs, hrest, rfl⟩ := exec_cons_eq_some.mp hexec
    have hstep := SelectStep.of_step hs
    rw [← List.append_assoc]
    refine ih (hi.step he ?_ hstep) (he.step hstep) hgood.tail ?_ hrest
    · intro hfailed n ha
      exact hlast hfailed n (ha ▸ List.mem_cons_self ..)
    · intro hfailed n hmem
      rcases List.mem_append.mp hfailed with hold | hnew
      · exact hlast hold n (List.mem_cons_of_mem _ hmem)
      · exact hgood [] as (by rw [hstep.of_writeFailed hnew, List.nil_append]) n hmem

/-- In every run the bytes on the wire begin the replies to the decoded requests and stop where a
frame is torn, exactly when no `::send` on the connection accepts anything after one has failed. -/
theorem reply_stream_intact_iff
    (hexec : Transition.exec SelectConnection.step anyAction {} as = some (c, h)) :
    StreamIntact h ↔ FailsForGood as := by
  constructor
  · rintro hi before after rfl n hmem
    obtain ⟨mid, rest, rfl⟩ := List.append_of_mem hmem
    obtain ⟨u, h₁, k, -, hfrom, rfl⟩ := exec_append_eq_some.mp hexec
    obtain ⟨v, es, h₂, -, hfail, hafter, rfl⟩ := exec_cons_eq_some.mp hfrom
    obtain ⟨w, h₃, h₄, -, hlater, rfl⟩ := exec_append_eq_some.mp hafter
    obtain ⟨x, ks, h₅, -, haccept, -, rfl⟩ := exec_cons_eq_some.mp hlater
    have hes := (SelectStep.of_step hfail).send_failed
    have hks := (SelectStep.of_step haccept).sentBytes_ne_nil.mpr ⟨n, rfl⟩
    have hnone := hi.torn h₁ (h₃ ++ (ks ++ h₅)) (by rw [hes]; rfl)
    rw [sentBytes_append, sentBytes_append] at hnone
    exact hks (List.append_eq_nil_iff.mp (List.append_eq_nil_iff.mp hnone).2).1
  · intro hgood
    have hstart : StreamIntact [] := ⟨List.nil_prefix, fun before after heq => by simp at heq⟩
    exact hstart.exec .start hgood (fun hmem => by simp at hmem) hexec

/-- A reply of which three bytes get through, after which every call fails. -/
private def cutReply : List SelectAction :=
  [.visit true, .recv (.data (encodeFrame 1 [7])), .internal, .send (.accepted 3), .send .failed,
    .send .failed, .internal]

theorem reply_stream_intact_cut :
    StreamIntact (afterAll SelectConnection.step anyAction {} cutReply).2 := by
  have hexec := exec_eq_afterAll SelectConnection.step anyAction {} cutReply (by decide)
  refine (reply_stream_intact_iff hexec).mpr ?_
  exact .cons (by simp) <| .cons (by simp) <| .cons (by simp) <| .cons (by simp) <|
    .cons (by simp) <| .cons (by simp) <| .cons (by simp) .nil

/-- The echo fails, and the end mark is accepted. -/
private def tornReply : List SelectAction :=
  [.visit true, .recv (.data (encodeFrame 1 [7])), .internal, .send .failed,
    .send (.accepted 11), .internal, .internal]

theorem reply_stream_torn :
    ¬ ∀ (as : List SelectAction) (c : SelectConnection) (h : List ServerEvent),
      Transition.exec SelectConnection.step anyAction {} as = some (c, h) → StreamIntact h := by
  intro hall
  have hexec := exec_eq_afterAll SelectConnection.step anyAction {} tornReply (by decide)
  exact absurd (hall _ _ _ hexec).front (by decide)

end PromiseDemo
