import PromiseDemo.System.VisitProgress

/-!
# Progress of the system

The client and sessions of `promise_server_asio` never come to a stop while a future waits: the
walk of the I/O thread and the handlers of the sessions lead by themselves to a state in which
bytes can be moved, a frame decoded or a future resolved.
-/

namespace PromiseDemo

open Transition PromiseStore PrefixCode Duplex

variable {n : ℕ}

/-- Readiness is truthful, no system call fails and nobody asks the client to stop. -/
def undisturbed (s : System n) : SystemAction n → Bool
  | .part c a => prompt (s.parts c) a
  | .requestStop => false
  | _ => true

/-- The I/O thread goes on by itself or asks for readiness; a handler of a session runs, or a
write of which all is sent completes. -/
def controls (s : System n) : SystemAction n → Bool
  | .part c a => (s.parts c).controls a
  | .requestStop => false
  | _ => true

/-- Everything that happens without a user thread or a failure. -/
def drives (s : System n) : SystemAction n → Bool
  | .part c a => (s.parts c).drives a
  | .requestStop => false
  | _ => true

def systemDrive : Drive (System n) (SystemAction n) (Fin n × LinkEvent) where
  step := system
  own s a := controls s a = true
  allowed s a := drives s a = true
  good e := productive e.2
  own_allowed {s a} h := by
    cases a with
    | part c a => exact Link.drives_of_controls h
    | _ => exact h

/-- The thread arrives at a link. -/
def Link.visited (link : Link) : Link := { link with left := ⟨link.left.conn, .hasIncoming⟩ }

theorem step_enter {link : Link} (h : link.left.phase = .away) :
    linkBody.step link linkBody.enter = some (link.visited, []) := by
  have hv : View.step link.left .enter = some (⟨link.left.conn, .hasIncoming⟩, []) :=
    View.step_enter.mpr ⟨h, rfl, rfl⟩
  have hback : link.back = receivedOf [] ++ link.back := rfl
  have hlink := LinkStep.client hv hback (.inl rfl)
  rw [sentOf_nil, List.append_nil] at hlink
  exact linkStep_iff.mpr hlink

theorem step_leave {link : Link} (h : link.left.phase = .done) :
    ∃ link', linkBody.step link linkBody.leave = some (link', []) := by
  have hv : View.step link.left .leave = some (⟨link.left.conn, .away⟩, []) :=
    View.step_leave.mpr ⟨h, rfl, rfl⟩
  have hback : link.back = receivedOf [] ++ link.back := rfl
  exact ⟨_, linkStep_iff.mpr (.client hv hback (.inl rfl))⟩

theorem step_queuedOf {link link' : Link} {a : LinkAction} {es : List LinkEvent}
    (ha : ∀ payload, a ≠ .inl (.sendRequest payload))
    (hstep : linkBody.step link a = some (link', es)) : queuedOf (lefts es) = [] := by
  cases linkStep_iff.mp hstep with
  | client hv =>
    rw [lefts_map_inl, List.eq_nil_iff_forall_not_mem]
    intro f hf
    obtain ⟨payload, rfl, -⟩ := View.step_queued hv (mem_queuedOf.mp hf)
    exact ha payload rfl
  | server => simp

/-- The system in a run that nothing disturbs, after history `h`. -/
structure Underway (h : List (Fin n × LinkEvent)) (s : System n) : Prop where
  links : ∀ c, Lively (onPart c h) (s.parts c)
  counts : ∀ c, (queuedOf (lefts (onPart c h))).length < 2 ^ 32
  located : s.Located linkBody
  going : s.stopRequested = false ∧ ∀ _ : Fin n, s.position ≠ .returned

namespace Underway

variable {h k es : List (Fin n × LinkEvent)} {s t : System n} {a : SystemAction n} {c : Fin n}

theorem start {forthCap backCap : Fin n → Option ℕ} (hforth : ∀ c, full (forthCap c) 0 = false)
    (hback : ∀ c, full (backCap c) 0 = false) :
    Underway [] (System.init (fun _ => .asio) forthCap backCap) where
  links c := .start (hforth c) (hback c)
  counts c := by simp
  located c := by simp [System.init, Link.start, View.init, linkBody, clientBody]
  going := ⟨rfl, fun _ hp => (nomatch hp)⟩

theorem not_done (hu : Underway h s) (c : Fin n) : s.done linkBody = false := by
  have hopen : linkBody.closed (s.parts c) = false := (hu.links c).reliable.opened
  simp only [Loop.done, hu.going.1, Bool.false_or, decide_eq_false_iff_not]
  intro hall
  cases hopen.symm.trans (hall c)

theorem step (hu : Underway h s) (ha : undisturbed s a = true) (hs : system s a = some (t, es))
    (hcount : ∀ c, (queuedOf (lefts (onPart c (h ++ es)))).length < 2 ^ 32) :
    Underway (h ++ es) t := by
  obtain ⟨-, hstep⟩ := LoopStep.of_loopStep hs
  refine ⟨fun c => ?_, hcount, hu.located.step linkBody_lawful hstep, ?_⟩
  · rw [onPart_append]
    rcases hstep.seenFrom c with ⟨hsame, hnone⟩ | ⟨b, hb, hr⟩
    · rw [hsame, hnone, List.append_nil]
      exact hu.links c
    · refine (hu.links c).step ?_ hb (by simpa using hcount c)
      cases hr with
      | part hc => exact ha
      | start hd hp => rfl
      | arrive hp hi => rfl
      | depart hp => rfl
  · cases hstep with
    | returned hp hd => exact ⟨hu.going.1, fun c => nomatch (hu.not_done c).symm.trans hd⟩
    | stopRequested => cases ha
    | part => exact hu.going
    | _ => exact ⟨hu.going.1, fun _ hp => (nomatch hp)⟩

theorem of_run {forthCap backCap : Fin n → Option ℕ} (hforth : ∀ c, full (forthCap c) 0 = false)
    (hback : ∀ c, full (backCap c) 0 = false)
    (hrun : Run system (fun s a => undisturbed s a = true)
      (System.init (fun _ => .asio) forthCap backCap) h s)
    (hcount : ∀ c, (queuedOf (lefts (onPart c h))).length < 2 ^ 32) : Underway h s := by
  refine hrun.invariant
    (I := fun h s => (∀ c, (queuedOf (lefts (onPart c h))).length < 2 ^ 32) → Underway h s)
    (fun _ => .start hforth hback) ?_ hcount
  intro h s t a es hI ha hs hlt
  have hless : ∀ c, (queuedOf (lefts (onPart c h))).length < 2 ^ 32 := by
    intro c
    have := hlt c
    rw [onPart_append, lefts_append, queuedOf_append, List.length_append] at this
    omega
  exact (hI hless).step ha hs hlt

theorem drive (hu : Underway h s) (ha : drives s a = true) (hs : system s a = some (t, es)) :
    Underway (h ++ es) t := by
  have hprompt : undisturbed s a = true := by
    cases a with
    | part c a => exact Lively.prompt_of_drives ha
    | requestStop => cases ha
    | _ => rfl
  apply hu.step hprompt hs
  intro c
  have hnone : queuedOf (lefts (onPart c es)) = [] := by
    rcases (LoopStep.of_loopStep hs).2.seenFrom c with ⟨-, hnone⟩ | ⟨b, hb, hr⟩
    · rw [hnone]
      rfl
    · refine step_queuedOf ?_ hb
      rintro payload rfl
      cases hr
      cases ha
  rw [onPart_append, lefts_append, queuedOf_append, hnone, List.append_nil]
  exact hu.counts c

theorem run (hu : Underway h s) (hrun : Run system (fun s a => controls s a = true) s k t) :
    Underway (h ++ k) t := by
  induction hrun with
  | refl => rwa [List.append_nil]
  | tail _ ha hs ih =>
    rw [← List.append_assoc]
    exact ih.drive (systemDrive.own_allowed ha) hs

theorem unharmed_update (hu : Underway h s) {link : Link}
    (hlink : link.left.phase.isThrew = false) (j : Fin n) :
    linkBody.threw (Function.update s.parts c link j) = false := by
  by_cases hj : j = c
  · subst hj
    rwa [Function.update_self]
  · rw [Function.update_of_ne hj]
    exact (hu.links j).unharmed

theorem leads_link {thread : Bool} {P : Link → Prop} (hu : Underway h s) (c : Fin n)
    (hleads : (linkDrive thread).Leads P (s.parts c))
    (hpos : thread = true → s.position = .body c) :
    systemDrive.Leads (fun t => ∃ link, P link ∧
      t = { s with parts := Function.update s.parts c link }) s := by
  have hembed : systemDrive.Leads
      (fun t => ∃ link, P link ∧ t = { s with parts := Function.update s.parts c link })
      { s with parts := Function.update s.parts c (s.parts c) } := by
    refine hleads.embed (fun link => { s with parts := Function.update s.parts c link })
      (LoopAction.part c) (fun e => (c, e)) ?_ ?_ ?_ ?_
    · intro link a ha
      simpa [systemDrive, controls] using ha.2.1
    · intro link a ha
      simpa [systemDrive, drives] using ha.2.1
    · intro link a link' es ha hs
      have hstep : linkBody.step (Function.update s.parts c link c) a = some (link', es) := by
        rwa [Function.update_self]
      have hkind : linkBody.kind a = .other ∨
          linkBody.kind a = .thread ∧ s.position = .body c := by
        obtain ⟨-, hdrives, hthread⟩ := ha
        cases a with
        | inr a => exact .inl rfl
        | inl a =>
          cases a with
          | io op => exact .inr ⟨rfl, hpos (hthread rfl)⟩
          | _ => cases hdrives
      have hlink := Loop.part_step (s := { s with parts := Function.update s.parts c link }) hkind
        (fun j _ => hu.unharmed_update ha.1 j) hstep
      rwa [Function.update_idem] at hlink
    · exact fun _ => rfl
  rwa [Function.update_eq_self] at hembed

theorem not_terminated (hu : Underway h s) : s.terminated linkBody = false := by
  cases hp : s.position with
  | body i =>
    have hunharmed : linkBody.threw (s.parts i) = false := (hu.links i).unharmed
    simpa only [Loop.terminated, hp] using hunharmed
  | _ => simp only [Loop.terminated, hp]

theorem away (hu : Underway h s) (hp : s.position ≠ .body c) : (s.parts c).left.phase = .away := by
  have hhome := mt (hu.located c).mp hp
  simpa [linkBody, clientBody] using hhome

theorem leads_loop {P : System n → Prop} (hs : system s a = some (t, es)) (ha : controls s a = true)
    (hnext : systemDrive.Leads P t) : systemDrive.Leads P s := .step ha hs hnext

theorem visit_end (hu : Underway h s) {i : Fin n} (hp : s.position = .body i) :
    systemDrive.Leads (fun t => t.position = .body i ∧ (t.parts i).left.phase = .done ∧
      ∀ j, j ≠ i → t.parts j = s.parts j) s := by
  have hhome : (s.parts i).left.phase ≠ .away := by
    simpa [linkBody, clientBody] using (hu.located i).mpr hp
  apply (hu.leads_link i ((hu.links i).visit (hu.counts i) hhome) fun _ => hp).imp
  rintro t ⟨link, hdone, rfl⟩
  exact ⟨hp, by simpa using hdone, fun j hj => Function.update_of_ne hj _ _⟩

theorem visit_next (hu : Underway h s) {i j : Fin n} (hp : s.position = .body i)
    (hj : j.val = i.val + 1) :
    systemDrive.Leads (fun t => t.position = .body j ∧ t.parts j = (s.parts j).visited ∧
      ∀ d, j.val < d.val → t.parts d = s.parts d) s := by
  apply (hu.visit_end hp).bind
  rintro k t hrun - ⟨hpt, hdone, hsame⟩
  have hut := hu.run hrun
  have hji : j ≠ i := by
    rintro rfl
    omega
  have haway : (t.parts j).left.phase = .away := by
    apply hut.away
    rw [hpt]
    exact fun he => hji (Position.body.inj he).symm
  obtain ⟨link', hleave⟩ := step_leave hdone
  have hnext : system t .next = some (_, _) :=
    LoopStep.loopStep_eq hut.not_terminated (.moved hpt hleave hj (step_enter haway))
  refine leads_loop hnext rfl (.here ⟨rfl, ?_, ?_⟩)
  · simp only [Function.update_self, hsame j hji]
  · intro d hd
    have hdj : d ≠ j := by
      rintro rfl
      omega
    have hdi : d ≠ i := by
      rintro rfl
      omega
    simp only [Function.update_of_ne hdj, Function.update_of_ne hdi, hsame d hdi]

theorem round_end (hu : Underway h s) {i : Fin n} (hp : s.position = .body i) :
    systemDrive.Leads (fun t => t.position = .endOfRound) s := by
  induction hd : n - i.val using Nat.strong_induction_on generalizing i h s with
  | _ d ih =>
    by_cases hlast : i.val + 1 = n
    · apply (hu.visit_end hp).bind
      rintro k t hrun - ⟨hpt, hdone, -⟩
      obtain ⟨link', hleave⟩ := step_leave hdone
      have hnext : system t .next = some (_, _) :=
        LoopStep.loopStep_eq (hu.run hrun).not_terminated (.finished hpt hleave hlast)
      exact leads_loop hnext rfl (.here rfl)
    · have hlt : i.val + 1 < n := by omega
      apply (hu.visit_next (j := ⟨i.val + 1, hlt⟩) hp rfl).bind
      rintro k t hrun - ⟨hpt, -⟩
      exact ih _ (hd ▸ Nat.sub_succ_lt_self n i.val i.isLt) (hu.run hrun) hpt rfl

theorem leads_test (hu : Underway h s) (c : Fin n) :
    systemDrive.Leads (fun t => t.position = .test) s := by
  have asleep : ∀ {h s}, Underway h s → s.position = .endOfRound →
      systemDrive.Leads (fun t : System n => t.position = .test) s := by
    intro h s hu hp
    have hsleep : system s .sleep = some (_, _) :=
      LoopStep.loopStep_eq hu.not_terminated (.slept hp)
    exact leads_loop hsleep rfl (.here rfl)
  cases hp : s.position with
  | test => exact .here hp
  | endOfRound => exact asleep hu hp
  | returned => exact absurd hp (hu.going.2 c)
  | body i =>
    apply (hu.round_end hp).bind
    exact fun hrun _ hpt => asleep (hu.run hrun) hpt

theorem leads_visit (hu : Underway h s) (hp : s.position = .test) (i : ℕ) (hi : i < n) :
    systemDrive.Leads (fun t => t.position = .body ⟨i, hi⟩ ∧
      t.parts ⟨i, hi⟩ = (s.parts ⟨i, hi⟩).visited ∧
      ∀ d : Fin n, i < d.val → t.parts d = s.parts d) s := by
  have haway : ∀ c, (s.parts c).left.phase = .away := by
    intro c
    apply hu.away
    rw [hp]
    exact fun he => (nomatch he)
  induction i with
  | zero =>
    have htest : system s .test = some (_, _) := LoopStep.loopStep_eq hu.not_terminated
      (.started (i := ⟨0, hi⟩) hp (hu.not_done ⟨0, hi⟩) rfl (step_enter (haway _)))
    refine leads_loop htest rfl (.here ⟨rfl, by simp only [Function.update_self], ?_⟩)
    intro d hd
    have hne : d ≠ ⟨0, hi⟩ := by
      rintro rfl
      exact absurd hd (Nat.lt_irrefl 0)
    simp only [Function.update_of_ne hne]
  | succ i ih =>
    apply (ih (by omega)).bind
    rintro k t hrun - ⟨hpt, -, hsame⟩
    apply ((hu.run hrun).visit_next (j := ⟨i + 1, hi⟩) hpt rfl).imp
    rintro u ⟨hpu, hvisited, hrest⟩
    refine ⟨hpu, ?_, ?_⟩
    · rw [hvisited, hsame _ (Nat.lt_succ_self i)]
    · intro d hd
      rw [hrest d hd, hsame d (by omega)]

/-- Without progress nothing is resolved. -/
theorem unresolved (hu : Underway h s) {p : ℕ}
    (hrun : Run system (fun s a => controls s a = true) s k t)
    (hk : ∀ e ∈ k, productive e.2 = false)
    (hp : resultOf (s.parts c).left.conn.promises p = none) :
    resultOf (t.parts c).left.conn.promises p = none := by
  have hledger := (hu.links c).reliable.delivering.connected.sound.ledger
  have hledger' := ((hu.run hrun).links c).reliable.delivering.connected.sound.ledger
  have hnone : outcomesOf p (lefts (onPart c k)) = [] := by
    rw [outcomesOf, List.filterMap_eq_nil_iff]
    intro e he
    cases e with
    | satisfied q o =>
      have hmem := mem_onPart.mp (mem_lefts.mp he)
      cases hk _ hmem
    | _ => rfl
  have hsame := hledger'.outcomes p
  rw [onPart_append, lefts_append, outcomesOf_append, hnone, List.append_nil, hledger.outcomes,
    hp] at hsame
  cases hr : resultOf (t.parts c).left.conn.promises p with
  | none => rfl
  | some o =>
    rw [hr] at hsame
    cases hsame

theorem leads_on (hu : Underway h s) (htest : s.position = .test) {p : ℕ} {id : UInt32}
    {payload : Bytes} (hissued : .issued p id payload ∈ lefts (onPart c h))
    (hp : resultOf (s.parts c).left.conn.promises p = none) :
    systemDrive.Leads (fun _ => False) s := by
  have hl := hu.links c
  have haway : (s.parts c).left.phase = .away := by
    apply hu.away
    rw [htest]
    exact fun he => (nomatch he)
  have session : (linkDrive false).Leads (fun _ => False) (s.parts c) →
      systemDrive.Leads (fun _ => False) s := by
    intro hleads
    apply (hu.leads_link c hleads fun ht => (nomatch ht)).imp
    rintro t ⟨link, hfalse, -⟩
    exact hfalse
  have client : (s.parts c).left.conn.frameReady = true ∨ (s.parts c).back ≠ [] ∨
      (s.parts c).left.conn.outgoing ≠ [] → systemDrive.Leads (fun _ => False) s := by
    intro hwork
    apply (hu.leads_visit htest c.val c.isLt).bind
    rintro k t hrun - ⟨hpt, hvisited, -⟩
    have hut := hu.run hrun
    have hleads : (linkDrive true).Leads (fun _ => False) (t.parts c) := by
      apply (hut.links c).leads_work (hut.counts c)
      · rw [hvisited]
        rfl
      · rw [hvisited]
        exact hwork
    apply (hut.leads_link c hleads fun _ => hpt).imp
    rintro u ⟨link, hfalse, -⟩
    exact hfalse
  by_cases htaken : (s.parts c).forth ≠ [] ∨ nextFrame (s.parts c).right.buffered ≠ none
  · exact session (hl.leads_taken htaken)
  by_cases hback : (s.parts c).back = []
  · by_cases howed : (s.parts c).right.owed = []
    · by_cases hwork : (s.parts c).left.conn.frameReady = true ∨
          (s.parts c).left.conn.outgoing ≠ []
      · exact client (hwork.imp_right .inr)
      · -- nothing is left to do, so nothing waits
        exfalso
        simp only [not_or, not_not, Bool.not_eq_true] at htaken hwork
        obtain ⟨answered, waiting, stage, ha⟩ := hl.reliable.delivering.answers.live hl.reliable.opened
        have hwaiting : waiting = [] := by
          refine hl.reliable.quiet ha (by rw [haway]; rfl) (by rw [haway]; rfl) htaken.1 hback ?_
            howed ((Connection.frameReady_eq_false _).mp hwork.1) htaken.2
          rw [View.unsent, haway, hwork.2]
          rfl
        rcases hl.reliable.fate ha hissued with ⟨hw, -⟩ | hvalue
        · rw [hwaiting] at hw
          cases hw
        · cases hp.symm.trans hvalue
    · apply session
      apply hl.leads_sent howed
      rw [hback]
      exact hl.backRoom
  · exact client (.inr (.inl hback))

theorem reads_again (hu : Underway h s) (hforth : (s.parts c).forth ≠ []) :
    ∃ k t, Run system (fun s a => ∃ b, a = .part c b ∧ (s.parts c).handles b = true) s k t ∧
      ∃ b u, system t (.part c (.inr (.asio (.readCompletes 0 (.data [b]))))) =
        some (u, [(c, .inr (.received [b]))]) := by
  obtain ⟨k, link, hrun, hleft, b, link', hstep⟩ := (hu.links c).reads_again hforth
  have handler : ∀ link a, Link.handles link a = true →
      link.left.phase.isThrew = false ∧ linkBody.kind a = .other := by
    intro link a ha
    simp only [Link.handles, Bool.and_eq_true, Bool.not_eq_true'] at ha
    obtain ⟨b, rfl⟩ := Sum.isRight_iff.mp ha.1.2
    exact ⟨ha.1.1, rfl⟩
  have hlift : Run system (fun s a => ∃ b, a = .part c b ∧ (s.parts c).handles b = true) s
      (k.map fun e => (c, e)) { s with parts := Function.update s.parts c link } := by
    apply Loop.lift (fun link a ha => .inl (handler link a ha).2)
      (fun link a q ha _ => (handler link a ha).1) (fun j _ _ => (hu.links j).unharmed) _ hrun
    exact fun s a ha => ⟨a, rfl, ha⟩
  have hunharmed : link.left.phase.isThrew = false := by
    rw [hleft]
    exact (hu.links c).unharmed
  obtain ⟨t, ht⟩ : ∃ t : System n, t = { s with parts := Function.update s.parts c link } :=
    ⟨_, rfl⟩
  have hread : linkBody.step (t.parts c) (.inr (.asio (.readCompletes 0 (.data [b])))) =
      some (link', [.inr (.received [b])]) := by
    rw [ht]
    simpa only [Function.update_self] using hstep
  have hthrew : ∀ j, t.position = .body j → linkBody.threw (t.parts j) = false := by
    intro j _
    rw [ht]
    exact hu.unharmed_update hunharmed j
  have hloop := Loop.part_step (.inl rfl) hthrew hread
  exact ⟨_, t, ht ▸ hlift, b, _, hloop⟩

end Underway

/-- No deadlock.  Over channels of any capacities that can hold a byte, in every schedule: each
session has exactly one read outstanding or its handler waits or runs; while a future waits, steps
that wait for nobody lead to a step that moves bytes, decodes a frame or resolves a future; and
when the I/O thread is blocked inside `send_all`, the handler of the session leads to a read that
makes room. -/
theorem no_deadlock {forthCap backCap : Fin n → Option ℕ} {h : List (Fin n × LinkEvent)}
    {s : System n} (hforth : ∀ c, full (forthCap c) 0 = false)
    (hback : ∀ c, full (backCap c) 0 = false)
    (hrun : Run system (fun s a => undisturbed s a = true)
      (System.init (fun _ => .asio) forthCap backCap) h s)
    (hcount : ∀ c, (queuedOf (lefts (onPart c h))).length < 2 ^ 32) (c : Fin n) :
    (∃ session, (s.parts c).right = .asio session ∧
      session.reads.length + (if session.running then 1 else 0) = 1) ∧
    (∀ p id payload, .issued p id payload ∈ lefts (onPart c h) →
      resultOf (s.parts c).left.conn.promises p = none →
      ∃ k t, Run system (fun s a => controls s a = true) s k t ∧
        (∀ e ∈ k, productive e.2 = false) ∧
        ∃ a u es, drives t a = true ∧ system t a = some (u, es) ∧
          ∃ e ∈ es, productive e.2 = true) ∧
    ((s.parts c).clientBlocked = true →
      ∃ k t, Run system (fun s a => ∃ b, a = .part c b ∧ (s.parts c).handles b = true) s k t ∧
        ∃ b u, system t (.part c (.inr (.asio (.readCompletes 0 (.data [b]))))) =
          some (u, [(c, .inr (.received [b]))])) := by
  have hu := Underway.of_run hforth hback hrun hcount
  refine ⟨?_, ?_, ?_⟩
  · obtain ⟨session, hs, -, -, hr⟩ := (hu.links c).ends
    refine ⟨session, hs, ?_⟩
    cases hr with
    | outstanding hreads hrunning => simp [hreads, hrunning]
    | arrived hreads hrunning => simp [hreads, hrunning]
    | handling hreads hrunning => simp [hreads, hrunning]
    | ended _ _ hd => exact absurd hd (hu.links c).reliable.joined
  · intro p id payload hissued hp
    have hleads : systemDrive.Leads (fun _ => False) s := by
      apply (hu.leads_test c).bind
      intro k t hrun hk htest
      have hold : .issued p id payload ∈ lefts (onPart c (h ++ k)) := by
        rw [onPart_append, lefts_append]
        exact List.mem_append_left _ hissued
      exact (hu.run hrun).leads_on htest hold (hu.unresolved hrun hk hp)
    obtain ⟨k, t, hrun, hk, hready | hfalse⟩ := hleads
    · exact ⟨k, t, hrun, hk, hready⟩
    · exact hfalse.elim
  · intro hblocked
    apply hu.reads_again
    apply (hu.links c).forth_ne_nil
    rw [Link.clientBlocked] at hblocked
    split at hblocked
    · simp only [Bool.and_eq_true] at hblocked
      exact hblocked.2
    · cases hblocked

/-- `"hi"` fills a channel of four bytes. -/
private def blockedHi : List (SystemAction 1) :=
  [byClient (.sendRequest [104, 105]), .test, byClient (.io (.waitReadable false)),
    byClient (.io .internal), byClient (.io .internal),
    byClient (.io (.send (.accepted 4)))]

theorem no_deadlock_hi :
    let s := (afterAll system (fun s a => undisturbed s a = true)
      (System.init (fun _ => .asio) (fun _ => some 4) fun _ => some 1) blockedHi).1
    (s.parts 0).clientBlocked = true ∧
    (∃ k t, Run system (fun s a => controls s a = true) s k t ∧
      (∀ e ∈ k, productive e.2 = false) ∧
      ∃ a u es, drives t a = true ∧ system t a = some (u, es) ∧ ∃ e ∈ es, productive e.2 = true) ∧
    ∃ k t, Run system (fun s a => ∃ b, a = .part 0 b ∧ (s.parts 0).handles b = true) s k t ∧
      ∃ b u, system t (.part 0 (.inr (.asio (.readCompletes 0 (.data [b]))))) =
        some (u, [(0, .inr (.received [b]))]) := by
  have hrun := Run.of_actions system (fun s a => undisturbed s a = true)
    (System.init (fun _ => .asio) (fun _ => some 4) fun _ => some 1) blockedHi (by decide)
  obtain ⟨-, hwaits, hblocked⟩ :=
    no_deadlock (fun _ => rfl) (fun _ => rfl) hrun (by decide) 0
  exact ⟨by decide, hwaits 0 1 [104, 105] (by decide) (by decide), hblocked (by decide)⟩

end PromiseDemo
