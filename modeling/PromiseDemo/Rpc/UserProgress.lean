import PromiseDemo.Rpc.UserRequests

/-!
# A thread gets to its end

From every state that a thread reaches while the connection is up it can go on to the end of its
program, and all that it needs for that is that the two ends do what they do by themselves.
-/

namespace PromiseDemo.Rpc

open Transition MsgPack PromiseStore Duplex FutureProgram

/-- The format can carry the call and the reply to it, and the server replies and goes on. -/
structure Served (cfg : Config) (c : UserCall) : Prop where
  fits : Fits cfg c
  served : ∀ idx, 0 ≤ idx → idx < 2 ^ 31 →
    ∃ r, cfg.serve (callObject idx c.1 c.2) = .finished (some r) false false

theorem Served.outcome {cfg : Config} {c : UserCall} (hc : Served cfg c) :
    cfg.outcome c ≠ none := by
  obtain ⟨r, hr⟩ := hc.served 1 (by decide) (by decide)
  rw [Config.outcome, Config.replyTo, hr]
  exact Option.some_ne_none _

theorem Asking.plain {ω : Type} {cfg : Config} {n : ℕ} {h : List ConversationEvent}
    {s : UserSystem ω} (ha : Asking (Served cfg) (fun _ => 1) n h s) (hn : n < 2 ^ 31)
    (hc : Conversing cfg h s.conversation) : Plain cfg (lefts h) := by
  have hm := ha.moderate (fun _ hc => hc.fits) hn hc
  intro o ho
  rcases requestObjects_cases ho with ⟨i, idx, funcName, args, hmem, rfl⟩ |
    ⟨funcName, args, hmem, rfl⟩
  · obtain ⟨r, hr⟩ := (ha.issued i idx funcName args hmem).served idx
      (hc.numbering.issued_pos hm.few (issued_mem hmem).1)
      (hc.numbering.issued_range (issued_mem hmem).1).2
    exact ⟨some r, hr⟩
  · exact absurd hmem (ha.notified funcName args)

/-! ## Zones that nobody frees -/

/-- Does the call set an object of `this_handler`? -/
def Config.touching (cfg : Config) (c : UserCall) : ℕ := (cfg.touches (callObject 1 c.1 c.2)).toNat

/-- What a call sets does not depend on its number. -/
theorem touches_eq (cfg : Config) {idx : ℤ} (hpos : 0 ≤ idx) (hlt : idx < 2 ^ 31) (c : UserCall) :
    (cfg.touches (callObject idx c.1 c.2)).toNat = cfg.touching c := by
  have hone := convertCall_callObject (by decide : (0 : ℤ) ≤ 1) (by decide) c.1 c.2
  have hcall := convertCall_callObject hpos hlt c.1 c.2
  have hsize : ∀ idx, viaArraySize cfg.overlay (callObject idx c.1 c.2) = 4 := fun _ => rfl
  have hdispatch := dispatchCall_under cfg.overlay cfg.funcs cfg.suppressExceptions hone hcall
  have hhandler : cfg.handler (callObject idx c.1 c.2) = cfg.handler (callObject 1 c.1 c.2) := by
    unfold Config.handler dispatch
    rw [hsize, hsize, if_neg (by decide), if_pos rfl, if_neg (by decide), if_pos rfl, hdispatch]
  rw [Config.touching, Config.touches, Config.touches, hhandler]

theorem touching_requests (cfg : Config) {h : List ClientEvent}
    (hcalls : ∀ p idx funcName args, .issued p idx funcName args ∈ h → 0 ≤ idx ∧ idx < 2 ^ 31)
    (hnone : ∀ funcName args, .notified funcName args ∉ h) :
    (requestObjects h).countP cfg.touches = ((callsOf h).map cfg.touching).sum := by
  induction h with
  | nil => rfl
  | cons e h ih =>
    have htail := ih (fun p idx funcName args hmem =>
        hcalls p idx funcName args (List.mem_cons_of_mem _ hmem))
      fun funcName args hmem => hnone funcName args (List.mem_cons_of_mem _ hmem)
    cases e with
    | issued p idx funcName args =>
      obtain ⟨hpos, hlt⟩ := hcalls p idx funcName args (List.mem_cons_self ..)
      have hhead := touches_eq cfg hpos hlt (funcName, args)
      have hobjects : requestObjects (.issued p idx funcName args :: h) =
          callObject idx funcName args :: requestObjects h := rfl
      have hcons : callsOf (.issued p idx funcName args :: h) =
          (funcName, args) :: callsOf h := rfl
      rw [hobjects, hcons, List.countP_cons, List.map_cons, List.sum_cons, htail, ← hhead]
      cases cfg.touches (callObject idx funcName args) with
      | true => exact Nat.add_comm _ _
      | false => exact (Nat.zero_add _).symm
    | notified funcName args => exact absurd (List.mem_cons_self ..) (hnone funcName args)
    | _ => exact htail

theorem UserSystem.not_reused {ω : Type} {cfg : Config} {t : UserProgram ω}
    {forthCap backCap : Option ℕ} {h : List ConversationEvent} {s : UserSystem ω}
    (hrun : Run (UserSystem.step cfg) anyAction (.start forthCap backCap t) h s) :
    ServerSessionEvent.reused ∉ rights h := by
  have hleft : ∀ {p q : Conversation} {a : ClientAction} {es : List ConversationEvent},
      Conversation.step cfg p (.inl a) = some (q, es) → rights es = [] := by
    intro p q a es hq
    obtain ⟨c, ls, -, -, -, rfl, -⟩ := step_inl.mp hq
    exact rights_map_inl ls
  induction hrun with
  | refl => simp [rights]
  | @tail h s s' a es _ _ hstep ih =>
    rw [rights_append, List.mem_append, not_or]
    refine ⟨ih, ?_⟩
    cases a with
    | other a =>
      rw [UserSystem.step, Option.ite_none_right_eq_some, Option.map_eq_some_iff] at hstep
      obtain ⟨hother, ⟨q, ks⟩, hq, heq⟩ := hstep
      cases heq
      cases a with
      | inl a =>
        rw [hleft hq]
        exact List.not_mem_nil
      | inr a =>
        obtain ⟨r, rs, hright, -, -, hes, -⟩ := step_inr.mp hq
        dsimp only at hes ⊢
        rw [hes, rights_map_inr]
        apply session_reused _ hright
        rintro thread handler rfl
        cases hother
    | user =>
      cases userStep_of_user hstep with
      | call hthread hq | post hthread hq =>
        rw [hleft hq]
        exact List.not_mem_nil
      | print | refused | get | wait | poll | found => exact List.not_mem_nil

theorem Asking.touchings_le {ω : Type} {cfg : Config} {permitted : UserCall → Prop} {n : ℕ}
    {t : UserProgram ω} {forthCap backCap : Option ℕ} {h : List ConversationEvent}
    {s : UserSystem ω} (ha : Asking permitted cfg.touching n h s)
    (hrun : Run (UserSystem.step cfg) anyAction (.start forthCap backCap t) h s)
    (hm : Moderate cfg (lefts h)) : touchings cfg (rights h) ≤ n := by
  have hc := Conversing.of_run (UserSystem.conversation_run hrun)
  have hreused : (rights h).countP ServerSessionEvent.isReused = 0 := by
    rw [List.countP_eq_zero]
    intro e he
    cases e with
    | reused => exact absurd he (UserSystem.not_reused hrun)
    | _ => nofun
  have hran : (ranOf (rights h)).countP cfg.touches ≤ (postedOf (rights h)).countP cfg.touches := by
    rw [← hc.serves.tasks.countP_eq, List.countP_append]
    exact Nat.le_add_right _ _
  have hposted := (hc.posted_requests hm).sublist.countP_le (p := cfg.touches)
  have hrequests := touching_requests cfg (h := lefts h)
    (fun p idx funcName args hmem => ⟨hc.numbering.issued_pos hm.few (issued_mem hmem).1,
      (hc.numbering.issued_range (issued_mem hmem).1).2⟩) ha.notified
  obtain ⟨m, hle, -⟩ := ha.asks
  rw [List.map_append, List.sum_append] at hle
  rw [touchings, hreused]
  omega

/-! ## Steps that are there to be taken -/

section Enabled

variable {cfg : Config} {p q : Conversation}

theorem left_step {a : ClientAction} {c : ClientImpl} {ls : List ClientEvent}
    (hstep : p.left.step a = some (c, ls)) (hreads : clientSide.readsOf ls = [])
    (hwrites : clientSide.writesOf ls = []) :
    Conversation.step cfg p (.inl a) = some ({ p with left := c }, ls.map .inl) := by
  refine step_inl.mpr ⟨c, ls, hstep, ?_, .inl hwrites, rfl, ?_⟩
  · rw [hreads]
    rfl
  · rw [hwrites, List.append_nil]

theorem call_enabled
    (hup : p.left.terminated = false ∧ p.left.destroyed = false ∧ p.left.exhausted = false)
    (hopen : p.left.isConnected = true) (c : UserCall) :
    ∃ q es, Conversation.step cfg p (.inl (.call c.1 c.2)) = some (q, es) := by
  have hstep : p.left.step (.call c.1 c.2) = some (p.left.takeNumber c.1 c.2) := by
    rw [ClientImpl.step, if_pos hup, ClientImpl.act, if_pos hopen]
  exact ⟨_, _, left_step hstep rfl rfl⟩

theorem post_enabled
    (hup : p.left.terminated = false ∧ p.left.destroyed = false ∧ p.left.exhausted = false)
    {n : Numbered} (hn : p.left.numbered = [n]) :
    ∃ q es, Conversation.step cfg p (.inl (.post 0)) = some (q, es) := by
  have hstep : p.left.step (.post 0) = some (p.left.post 0 n) := by
    rw [ClientImpl.step, if_pos hup, ClientImpl.act, hn]
    rfl
  refine ⟨_, _, left_step hstep ?_ ?_⟩
  · split <;> rfl
  · split <;> rfl

theorem Steady.asked {h es : List ConversationEvent} (hs : Steady h p) {a : ClientAction}
    (ha : (∃ c : UserCall, a = .call c.1 c.2) ∨ a = .post 0)
    (hstep : Conversation.step cfg p (.inl a) = some (q, es)) : Steady (h ++ es) q := by
  have hup := hs.up
  obtain ⟨c, ls, hleft, -, -, rfl, hq⟩ := step_inl.mp hstep
  obtain ⟨-, -, hact⟩ := clientStep_of_step hleft
  have hsame : (c.isConnected = p.left.isConnected ∧ c.phase = p.left.phase ∧
      c.destroyed = p.left.destroyed ∧ c.exhausted = p.left.exhausted) ∧ wroteOf ls = [] := by
    rcases ha with ⟨d, rfl⟩ | rfl
    · cases hact with
      | call hopen => exact ⟨⟨rfl, rfl, rfl, rfl⟩, rfl⟩
      | io hwrite hclose hw hio => cases hio
      | exhausts hphase hwhy => simp at hwhy
    · cases hact with
      | post hn => exact ⟨⟨rfl, rfl, rfl, rfl⟩, rfl⟩
      | io hwrite hclose hw hio => cases hio
      | exhausts hphase hwhy => simp at hwhy
  obtain ⟨⟨hconn, hphase, hkept, hwell⟩, hwrote⟩ := hsame
  have hforthOk :
      .writeFailed ∉ wroteOf (lefts (h ++ ls.map (Sum.inl (β := ServerSessionEvent)))) := by
    rw [lefts_append, lefts_map_inl, wroteOf_append, hwrote, List.append_nil]
    exact hup.forthOk
  have hbackOk :
      .writeFailed ∉ writerOf (rights (h ++ ls.map (Sum.inl (β := ServerSessionEvent)))) := by
    rw [rights_append, rights_map_inl, List.append_nil]
    exact hup.backOk
  rw [hq]
  exact ⟨⟨hconn.trans hup.connected, hphase ▸ hup.reading, hkept.trans hup.kept,
    hwell.trans hup.well, hup.serving, hup.running, hup.opened, hup.exit, hforthOk, hbackOk,
    hup.forthRoom, hup.backRoom⟩, hs.writes⟩

theorem UserSystem.alone_run {ω : Type} {s s' u : UserSystem ω} {k : List ConversationEvent}
    (hstep : s'.user cfg = some (u, [])) (hrun : Run (UserSystem.step cfg) anyAction s k s') :
    Run (UserSystem.step cfg) anyAction s k u := by
  have hone : UserSystem.step cfg s' .user = some (u, []) := hstep
  have htail := hrun.tail trivial hone
  rwa [List.append_nil] at htail

theorem UserSystem.own_run {ω : Type} {s : UserSystem ω} {as : List ConversationAction}
    {k : List ConversationEvent}
    (hexec : exec (Conversation.step cfg) (fun _ a => ownAction a = true) s.conversation as =
      some (q, k)) :
    Run (UserSystem.step cfg) anyAction s k { s with conversation := q } := by
  induction as generalizing s k with
  | nil =>
    obtain ⟨rfl, rfl⟩ := exec_nil_eq_some.mp hexec
    exact .refl
  | cons a as ih =>
    obtain ⟨u, es, k', ha, hstep, hrest, rfl⟩ := exec_cons_eq_some.mp hexec
    have hother : otherAction a = true := by
      cases a with
      | inl a => cases a <;> first | rfl | cases ha
      | inr a => cases a <;> first | rfl | cases ha
    have hone : UserSystem.step cfg s (.other a) = some ({ s with conversation := u }, es) := by
      rw [UserSystem.step, if_pos hother, hstep]
      rfl
    exact (Run.single trivial hone).trans (ih hrest)

end Enabled

/-! ## A refused connection -/

/-- What the flags of the connection say together. -/
structure Linking (c : ClientImpl) : Prop where
  initial : c.state = .initial → c.isConnected = false
  refused : c.connectionEc = true → c.state ≠ .initial ∧ c.isConnected = false

theorem Linking.congr {c c' : ClientImpl} (hl : Linking c) (hconn : c'.isConnected = c.isConnected)
    (hstate : c'.state = c.state) (hec : c'.connectionEc = c.connectionEc) :
    Linking c' ∧ (c.connectionEc = true → c'.connectionEc = true) := by
  refine ⟨⟨?_, ?_⟩, ?_⟩
  · rw [hstate, hconn]
    exact hl.initial
  · rw [hstate, hconn, hec]
    exact hl.refused
  · rw [hec]
    exact id

theorem Linking.step {c c' : ClientImpl} (hl : Linking c) {a : ClientAction}
    {es : List ClientEvent} (hstep : c.step a = some (c', es)) :
    Linking c' ∧ (c.connectionEc = true → c'.connectionEc = true) := by
  obtain ⟨-, -, hact⟩ := clientStep_of_step hstep
  cases hact with
  | connected hstate =>
    have hec : c.connectionEc ≠ true := fun hec => (hl.refused hec).1 hstate
    exact ⟨⟨(fun h => by cases h), fun h => absurd h hec⟩, fun h => absurd h hec⟩
  | refused hstate =>
    refine ⟨⟨(fun h => by cases h), ?_⟩, fun _ => rfl⟩
    intro _
    exact ⟨by simp, hl.initial hstate⟩
  | call | post | send | receive | exhausts | io | destroy => exact hl.congr rfl rfl rfl
  | @strand closure rest hstrand =>
    have hrun := closureStep { c with strand := rest } closure
    generalize ClientImpl.runClosure { c with strand := rest } closure = q at hrun ⊢
    cases hrun with
    | queued | erased => exact hl.congr rfl rfl rfl
  | next hphase =>
    have hnext := nextStep c
    generalize c.next = q at hnext ⊢
    cases hnext with
    | _ => exact hl.congr rfl rfl rfl
  | @readError known hopen hphase =>
    have hopened : ∀ h : c.isConnected = false, False := fun h => by cases hopen.symm.trans h
    refine ⟨⟨?_, fun hec => (hopened (hl.refused hec).2).elim⟩, id⟩
    intro hstate
    cases known with
    | true => cases hstate
    | false => exact hl.initial hstate

theorem Linking.conversation {cfg : Config} {p q : Conversation} (hl : Linking p.left)
    {a : ConversationAction} {es : List ConversationEvent}
    (hstep : Conversation.step cfg p a = some (q, es)) :
    Linking q.left ∧ (p.left.connectionEc = true → q.left.connectionEc = true) := by
  cases a with
  | inl a =>
    obtain ⟨c, ls, hleft, -, -, -, hq⟩ := step_inl.mp hstep
    rw [hq]
    exact hl.step hleft
  | inr a =>
    obtain ⟨r, rs, -, -, -, -, hq⟩ := step_inr.mp hstep
    rw [hq]
    exact ⟨hl, id⟩

/-- Only a refused connection throws the thread out of its program. -/
theorem UserSystem.refused_run {ω : Type} {cfg : Config} {t : UserProgram ω}
    {forthCap backCap : Option ℕ} {h : List ConversationEvent} {s : UserSystem ω}
    (hrun : Run (UserSystem.step cfg) anyAction (.start forthCap backCap t) h s) :
    Linking s.conversation.left ∧
      (s.thread = .refused → s.conversation.left.connectionEc = true) := by
  induction hrun with
  | refl => exact ⟨⟨fun _ => rfl, (fun h => by cases h)⟩, fun h => by cases h⟩
  | @tail h s s' a es _ _ hstep ih =>
    obtain ⟨hl, hrefused⟩ := ih
    cases a with
    | other a =>
      rw [UserSystem.step, Option.ite_none_right_eq_some, Option.map_eq_some_iff] at hstep
      obtain ⟨-, q, hq, heq⟩ := hstep
      cases heq
      obtain ⟨hl', hec⟩ := hl.conversation hq
      exact ⟨hl', fun h => hec (hrefused h)⟩
    | user =>
      cases userStep_of_user hstep with
      | refused hthread hno => exact ⟨hl, fun _ => hno⟩
      | call hthread hq => exact ⟨(hl.conversation hq).1, fun h => by cases h⟩
      | post hthread hq => exact ⟨(hl.conversation hq).1, fun h => by cases h⟩
      | print | get | wait | poll | found => exact ⟨hl, fun h => by cases h⟩

/-! ## The run of a program -/

/-- What a thread has reached by a program whose calls are served, with the connection up.  At most
one of the calls sets an object of `this_handler`. -/
structure UserRun {ω : Type} (cfg : Config) (forthCap backCap : Option ℕ) (t : UserProgram ω)
    (Q : List ω → Prop) (n : ℕ) (h : List ConversationEvent) (s : UserSystem ω) : Prop where
  sees : t.Sees cfg.outcome (fun _ => none) Q
  asks : t.Asks (Served cfg) (fun _ => 1) n
  few : n < 2 ^ 31
  spares : t.Asks (Served cfg) cfg.touching 1
  run : Run (UserSystem.step cfg) anyAction (.start forthCap backCap t) h s
  steady : Steady h s.conversation

namespace UserRun

variable {ω : Type} {cfg : Config} {forthCap backCap : Option ℕ} {t : UserProgram ω}
  {Q : List ω → Prop} {n : ℕ} {h k : List ConversationEvent} {s s' : UserSystem ω}

theorem conversing (hu : UserRun cfg forthCap backCap t Q n h s) :
    Conversing cfg h s.conversation := .of_run (UserSystem.conversation_run hu.run)

theorem asking (hu : UserRun cfg forthCap backCap t Q n h s) :
    Asking (Served cfg) (fun _ => 1) n h s := .of_run hu.asks hu.run

theorem moderate (hu : UserRun cfg forthCap backCap t Q n h s) : Moderate cfg (lefts h) :=
  hu.asking.moderate (fun _ hc => hc.fits) hu.few hu.conversing

theorem following (hu : UserRun cfg forthCap backCap t Q n h s) :
    ∃ owned, Following cfg Q owned h s := Following.of_run hu.sees hu.run hu.moderate

theorem answers (hu : UserRun cfg forthCap backCap t Q n h s) {p : ℕ} {idx : ℤ} {funcName : Bytes}
    {args : List Object} (hmem : .issued p idx funcName args ∈ lefts h) :
    cfg.outcome (funcName, args) ≠ none :=
  (hu.asking.issued p idx funcName args hmem).outcome

theorem plain (hu : UserRun cfg forthCap backCap t Q n h s) : Plain cfg (lefts h) :=
  hu.asking.plain hu.few hu.conversing

theorem alive (hu : UserRun cfg forthCap backCap t Q n h s) :
    s.conversation.left.terminated = false ∧ s.conversation.left.destroyed = false ∧
      s.conversation.left.exhausted = false :=
  ⟨hu.conversing.client_alive hu.moderate, hu.steady.up.kept, hu.steady.up.well⟩

theorem onward (hu : UserRun cfg forthCap backCap t Q n h s)
    (hrun : Run (UserSystem.step cfg) anyAction s k s') (hs : Steady (h ++ k) s'.conversation) :
    UserRun cfg forthCap backCap t Q n (h ++ k) s' :=
  ⟨hu.sees, hu.asks, hu.few, hu.spares, hu.run.trans hrun, hs⟩

theorem alone (hu : UserRun cfg forthCap backCap t Q n h s) (hstep : s.user cfg = some (s', []))
    (hsame : s'.conversation = s.conversation) : UserRun cfg forthCap backCap t Q n h s' := by
  refine ⟨hu.sees, hu.asks, hu.few, hu.spares, UserSystem.alone_run hstep hu.run, ?_⟩
  rw [hsame]
  exact hu.steady

theorem at_rest (hu : UserRun cfg forthCap backCap t Q n h s) {owned : ℕ → Option UserCall}
    (hf : Following cfg Q owned h s) :
    ∃ q k, Run (UserSystem.step cfg) anyAction s k { s with conversation := q } ∧
      UserRun cfg forthCap backCap t Q n (h ++ k) { s with conversation := q } ∧
      ∀ p, owned p ≠ none →
        ({ s with conversation := q } : UserSystem ω).ready p = true := by
  have hrun := UserSystem.conversation_run hu.run
  have hbound : ∀ as q k, exec (Conversation.step cfg) (fun _ a => ownAction a = true)
      s.conversation as = some (q, k) → as.length ≤ s.conversation.budget cfg h := by
    intro as q k hexec
    exact (hu.steady.answered hrun hu.moderate hu.plain hexec).1
  obtain ⟨as, q, k, hexec, hquiet⟩ := exec_maximal hbound
  have hown := UserSystem.own_run hexec
  have hall := hu.run.trans hown
  have hm := (Asking.of_run hu.asks hall).moderate (fun _ hc => hc.fits) hu.few
    (.of_run (UserSystem.conversation_run hall))
  have hfailure := hu.steady.unfailed hu.conversing hu.moderate hu.plain hexec
    ((Asking.of_run hu.spares hall).touchings_le hall hm)
  have hs := (hu.steady.kept hu.conversing hu.moderate hu.plain hexec).1 hfailure
  refine ⟨q, k, hown, hu.onward hown hs, ?_⟩
  intro p hp
  exact hf.ready (hf.results_at_rest hrun hu.moderate hu.plain
    (fun _ _ _ _ hmem => hu.answers hmem) hu.steady hexec hquiet hfailure) hp

end UserRun

/-! ## Statement by statement -/

/-- The thread gets from here to the end of its program. -/
def UserSystem.Ends {ω : Type} (cfg : Config) (s : UserSystem ω) : Prop :=
  ∃ s' k, Run (UserSystem.step cfg) anyAction s k s' ∧ s'.thread = .running .done

theorem UserSystem.Ends.of_run {ω : Type} {cfg : Config} {s s' : UserSystem ω}
    {k : List ConversationEvent} (he : s'.Ends cfg)
    (hrun : Run (UserSystem.step cfg) anyAction s k s') : s.Ends cfg := by
  obtain ⟨s'', k', hrun', hdone⟩ := he
  exact ⟨s'', k ++ k', hrun.trans hrun', hdone⟩

namespace UserRun

variable {ω : Type} {cfg : Config} {forthCap backCap : Option ℕ} {t : UserProgram ω}
  {Q : List ω → Prop} {n : ℕ} {h : List ConversationEvent} {s : UserSystem ω}

theorem post (hu : UserRun cfg forthCap backCap t Q n h s) {c : UserCall}
    {rest : ℕ → UserProgram ω} (hthread : s.thread = .posting c rest) :
    ∃ s' k p, Run (UserSystem.step cfg) anyAction s k s' ∧
      UserRun cfg forthCap backCap t Q n (h ++ k) s' ∧ s'.thread = .running (rest p) := by
  have hnumbered := hu.asking.numbered
  rw [hthread] at hnumbered
  obtain ⟨x, hx, -⟩ := List.map_eq_singleton_iff.mp hnumbered
  obtain ⟨q, es, hq⟩ : ∃ q es, Conversation.step cfg s.conversation (.inl (.post 0)) =
      some (q, es) := post_enabled hu.alive hx
  have hone : UserSystem.step cfg s .user = some
      ({ s with
          conversation := q
          thread := .running (rest s.conversation.left.promises.length) }, es) := by
    rw [UserSystem.step, UserSystem.user, hthread]
    dsimp only
    rw [hq]
    rfl
  have hrun : Run (UserSystem.step cfg) anyAction s es _ := .single trivial hone
  exact ⟨_, es, _, hrun, hu.onward hrun (hu.steady.asked (.inr rfl) hq), rfl⟩

theorem call (hu : UserRun cfg forthCap backCap t Q n h s) {c : UserCall}
    {rest : ℕ → UserProgram ω} (hthread : s.thread = .running (.call c rest)) :
    ∃ s' k p, Run (UserSystem.step cfg) anyAction s k s' ∧
      UserRun cfg forthCap backCap t Q n (h ++ k) s' ∧ s'.thread = .running (rest p) := by
  obtain ⟨q, es, hq⟩ : ∃ q es, Conversation.step cfg s.conversation (.inl (.call c.1 c.2)) =
      some (q, es) := call_enabled hu.alive hu.steady.up.connected c
  have hone : UserSystem.step cfg s .user =
      some ({ s with conversation := q, thread := .posting c rest }, es) := by
    have hopen : ¬(s.conversation.left.isConnected = false ∧
        s.conversation.left.connectionEc = true) := by simp [hu.steady.up.connected]
    rw [UserSystem.step, UserSystem.user, hthread]
    dsimp only
    rw [if_neg hopen, hq]
    rfl
  have hrun : Run (UserSystem.step cfg) anyAction s es _ := .single trivial hone
  have hu' := hu.onward hrun (hu.steady.asked (.inl ⟨c, rfl⟩) hq)
  obtain ⟨s', k, p, hrun', hlast, hthread'⟩ := hu'.post rfl
  rw [List.append_assoc] at hlast
  exact ⟨s', es ++ k, p, hrun.trans hrun', hlast, hthread'⟩

theorem get (hu : UserRun cfg forthCap backCap t Q n h s) {p : ℕ}
    {rest : CallResult → UserProgram ω} (hthread : s.thread = .running (.get p rest)) :
    ∃ s' k r, Run (UserSystem.step cfg) anyAction s k s' ∧
      UserRun cfg forthCap backCap t Q n (h ++ k) s' ∧ s'.thread = .running (rest r) := by
  obtain ⟨owned, hf⟩ := hu.following
  have hsees := hf.sees
  rw [hthread] at hsees
  obtain ⟨c, hc, -⟩ := hsees
  obtain ⟨q, k, hrun, hu', hready⟩ := hu.at_rest hf
  have hp : owned p ≠ none := by
    rw [hc]
    exact Option.some_ne_none c
  have hthere := hready p hp
  rw [UserSystem.ready, Bool.and_eq_true, decide_eq_true_eq, Option.isSome_iff_exists] at hthere
  obtain ⟨hvalid, r, hr⟩ := hthere
  have hone : UserSystem.user cfg { s with conversation := q } = some
      ({ s with
          conversation := q
          thread := .running (rest r)
          taken := p :: s.taken }, []) := by
    rw [UserSystem.user]
    dsimp only
    rw [hthread]
    dsimp only
    rw [if_neg hvalid, hr]
    rfl
  exact ⟨_, k, r, UserSystem.alone_run hone hrun, hu'.alone hone rfl, rfl⟩

theorem poll (hu : UserRun cfg forthCap backCap t Q n h s) {ps : List ℕ} {i : ℕ}
    {rest : ℕ → UserProgram ω} (hthread : s.thread = .polling ps i rest) :
    ∃ s' k j, Run (UserSystem.step cfg) anyAction s k s' ∧
      UserRun cfg forthCap backCap t Q n (h ++ k) s' ∧ s'.thread = .running (rest j) := by
  obtain ⟨owned, hf⟩ := hu.following
  have hsees := hf.sees
  rw [hthread] at hsees
  obtain ⟨hne, howned, -⟩ := hsees
  obtain ⟨q, k, hrun, hu', hready⟩ := hu.at_rest hf
  have hfound : ∀ j p, ps[j]? = some p →
      UserSystem.user cfg { s with conversation := q, thread := .polling ps j rest } =
        some ({ s with conversation := q, thread := .running (rest j) }, []) := by
    intro j p hp
    have hthere : ({ s with conversation := q, thread := .polling ps j rest } :
        UserSystem ω).ready p = true := hready p (howned p (List.mem_of_getElem? hp))
    rw [UserSystem.user]
    dsimp only
    rw [hp]
    dsimp only
    rw [if_pos hthere]
  have hhere : ({ s with conversation := q } : UserSystem ω) =
      { s with conversation := q, thread := .polling ps i rest } := by rw [← hthread]
  rw [hhere] at hrun hu'
  cases hi : ps[i]? with
  | some p =>
    have hone := hfound i p hi
    exact ⟨_, k, i, UserSystem.alone_run hone hrun, hu'.alone hone rfl, rfl⟩
  | none =>
    obtain ⟨p, ps', rfl⟩ := List.exists_cons_of_ne_nil hne
    have hround : UserSystem.user cfg
        { s with conversation := q, thread := .polling (p :: ps') i rest } =
        some ({ s with conversation := q, thread := .polling (p :: ps') 0 rest }, []) := by
      rw [UserSystem.user]
      dsimp only
      rw [hi]
    have hone := hfound 0 p rfl
    exact ⟨_, k, 0, UserSystem.alone_run hone (UserSystem.alone_run hround hrun),
      (hu'.alone hround rfl).alone hone rfl, rfl⟩

theorem ends {left : UserProgram ω} (hu : UserRun cfg forthCap backCap t Q n h s)
    (hthread : s.thread = .running left) : s.Ends cfg := by
  induction left generalizing h s with
  | done => exact ⟨s, [], .refl, hthread⟩
  | print line rest ih =>
    have hone : s.user cfg =
        some ({ s with thread := .running rest, printed := s.printed ++ [line] }, []) := by
      rw [UserSystem.user, hthread]
    exact (ih (hu.alone hone rfl) rfl).of_run (UserSystem.alone_run hone .refl)
  | call c rest ih =>
    obtain ⟨s', k, p, hrun, hu', hthread'⟩ := hu.call hthread
    exact (ih p hu' hthread').of_run hrun
  | get p rest ih =>
    obtain ⟨s', k, r, hrun, hu', hthread'⟩ := hu.get hthread
    exact (ih r hu' hthread').of_run hrun
  | waitAny ps rest ih =>
    have hone : s.user cfg = some ({ s with thread := .polling ps 0 rest }, []) := by
      rw [UserSystem.user, hthread]
    obtain ⟨s', k, i, hrun, hu', hthread'⟩ := (hu.alone hone rfl).poll rfl
    exact ((ih i hu' hthread').of_run hrun).of_run (UserSystem.alone_run hone .refl)

theorem finishes (hu : UserRun cfg forthCap backCap t Q n h s) : s.Ends cfg := by
  cases hthread : s.thread with
  | running left => exact hu.ends hthread
  | posting c rest =>
    obtain ⟨s', k, p, hrun, hu', hthread'⟩ := hu.post hthread
    exact (hu'.ends hthread').of_run hrun
  | polling ps i rest =>
    obtain ⟨s', k, j, hrun, hu', hthread'⟩ := hu.poll hthread
    exact (hu'.ends hthread').of_run hrun
  | refused =>
    obtain ⟨hlink, hec⟩ := UserSystem.refused_run hu.run
    cases hu.steady.up.connected.symm.trans (hlink.refused (hec hthread)).2

/-- At the end the program has printed what it should. -/
theorem finish (hu : UserRun cfg forthCap backCap t Q n h s) :
    ∃ s' k, Run (UserSystem.step cfg) anyAction s k s' ∧ s'.thread = .running .done ∧
      Q s'.printed := by
  obtain ⟨s', k, hrun, hdone⟩ := hu.finishes
  have hall := hu.run.trans hrun
  have hm := (Asking.of_run hu.asks hall).moderate (fun _ hc => hc.fits) hu.few
    (.of_run (UserSystem.conversation_run hall))
  obtain ⟨owned, hf⟩ := Following.of_run hu.sees hall hm
  exact ⟨s', k, hrun, hdone, hf.outcome.1 hdone⟩

end UserRun

/-- A thread whose calls are served, and at most one of them with an error or a response of its
own, can always finish: from every state that it reaches while the
connection is up, whatever has happened so far, some continuation leads to the end of its program,
with everything printed that it is to print. -/
theorem user_finishes {ω : Type} {cfg : Config} {t : UserProgram ω} {Q : List ω → Prop} {n : ℕ}
    (ht : t.Sees cfg.outcome (fun _ => none) Q) (hasks : t.Asks (Served cfg) (fun _ => 1) n)
    (hn : n < 2 ^ 31) (hspares : t.Asks (Served cfg) cfg.touching 1)
    {forthCap backCap : Option ℕ} {h : List ConversationEvent} {s : UserSystem ω}
    (hrun : Run (UserSystem.step cfg) anyAction (.start forthCap backCap t) h s)
    (hs : Steady h s.conversation) :
    ∃ s' k, Run (UserSystem.step cfg) anyAction s k s' ∧ s'.thread = .running .done ∧
      Q s'.printed :=
  UserRun.finish ⟨ht, hasks, hn, hspares, hrun, hs⟩

theorem ping_served : Served pingConfig ([0x66], []) := by
  have hserve : ∀ idx, 0 ≤ idx → idx < 2 ^ 31 →
      pingConfig.serve (callObject idx [0x66] []) =
        .finished (some (.makeResult (castUnsigned 4 idx) (.boolean true))) false false := by
    intro idx hpos hlt
    have hsize : viaArraySize pingConfig.overlay (callObject idx [0x66] []) = 4 := rfl
    unfold Config.serve dispatch
    rw [hsize, if_neg (by decide), if_pos rfl]
    unfold dispatchCall
    rw [convertCall_callObject hpos hlt]
    rfl
  refine ⟨⟨by decide, by decide, List.forall_mem_nil _, ?_⟩, ?_⟩
  · intro idx r hpos hlt hr
    rw [Config.replyTo, hserve idx hpos hlt] at hr
    cases hr
    exact reply_wellFormed (castUnsigned_small hpos hlt) .nil (.boolean true)
  · intro idx hpos hlt
    exact ⟨_, hserve idx hpos hlt⟩

theorem user_finishes_ping :
    ∃ s' k, Run (UserSystem.step pingConfig) anyAction (pingedBy pingingCall).1 k s' ∧
      s'.thread = .running .done ∧ s'.printed = [()] :=
  user_finishes (n := 1) pinging_sees ⟨ping_served, Nat.le_refl 1, fun _ _ => trivial⟩ (by decide)
    ⟨ping_served, Nat.zero_le 1, fun _ _ => trivial⟩ (Run.of_actions _ _ _ pingingCall rfl)
    ping_steady

end PromiseDemo.Rpc
