import PromiseDemo.Client.Futures

/-!
# Closed connections

`has_incoming_data` tests for a buffered frame before it looks at `closed_`.  A connection that
breaks while it is read has no complete frame left, but one that breaks while it is written may;
if such a connection is visited again, its frames are dispatched.
-/

namespace PromiseDemo

open Transition PromiseStore

variable {n : ℕ}

/-- Whenever `done` lets a round start, no closed connection has a complete frame buffered. -/
def drainedWhenClosed (s : Client n) : ClientAction n → Bool
  | .test =>
      s.done clientBody ||
        decide (∀ i, (s.parts i).conn.closed = true → (s.parts i).conn.frameReady = false)
  | _ => true

/-- The program points that a closed connection passes in each round. -/
def Phase.resting : Phase → Bool
  | .away | .hasIncoming | .hasOutgoing | .done => true
  | _ => false

def Event.isRejected : Event → Bool
  | .rejected _ => true
  | _ => false

/-- A connection after history `h`, seen from the moment it is closed. -/
structure Closing (h : List Event) (v : View) : Prop where
  shown : ∀ what, Event.closed what ∈ h → v.conn.closed = true
  resting : v.conn.closed = true → v.phase.resting = true
  drained : v.conn.closed = true → v.conn.frameReady = true → v.phase = .away ∨ v.phase = .done
  inert : ∀ before after what, h = before ++ .closed what :: after →
    ∀ e ∈ after, e.isRejected = true

theorem Closing.init : Closing [] View.init where
  shown what h := nomatch h
  resting h := nomatch h
  drained h := nomatch h
  inert before after what h := by simp at h

variable {h es : List Event} {v v' : View} {a : Action}

theorem Sound.open_step (hs : Sound h v) (hopen : v.conn.closed = false)
    (hstep : View.step v a = some (v', es)) :
    (v'.conn.closed = false ∧ ∀ what, Event.closed what ∉ es) ∨
    (v'.conn.closed = true ∧
      (∃ ps what, es = List.map (Event.satisfied · (.exception what)) ps ++ [.closed what]) ∧
      (v'.phase = .done ∨ v'.phase = .hasOutgoing ∧ v'.conn.frameReady = false)) := by
  cases ViewStep.of_step hstep with
  | sendRequest hp =>
    refine .inl ⟨by simpa using hopen, fun what hmem => ?_⟩
    rcases mem_sendEvents hmem with ⟨-, he⟩ | ⟨p, he⟩ | ⟨x, he⟩ <;> cases he
  | io hio =>
    cases hio with
    | lost hv =>
      obtain ⟨promises, rfl, hks, -⟩ := hs.ledger.of_closeStep hv
      exact .inr ⟨rfl, ⟨_, _, hks⟩, .inr ⟨rfl, hs.point.2⟩⟩
    | broken hv =>
      obtain ⟨promises, rfl, hks, -⟩ := hs.ledger.of_closeStep hv
      exact .inr ⟨rfl, ⟨_, _, hks⟩, .inl rfl⟩
    | received hp hc =>
      subst hc
      exact .inl ⟨hopen, by simp⟩
    | decoded hd =>
      cases hd
      exact .inl ⟨hopen, by simp⟩
    | _ => exact .inl ⟨hopen, by simp⟩
  | enter => exact .inl ⟨hopen, by simp⟩
  | leave => exact .inl ⟨hopen, by simp⟩

theorem Closing.closed_step (hs : Sound h v) (hc : Closing h v) (hclosed : v.conn.closed = true)
    (henter : a = .enter → v.conn.frameReady = false) (hstep : View.step v a = some (v', es)) :
    v'.conn.closed = true ∧ (∀ e ∈ es, e.isRejected = true) ∧ v'.phase.resting = true ∧
      (v'.conn.frameReady = true → v'.phase = .away ∨ v'.phase = .done) := by
  have hrest := hc.resting hclosed
  cases ViewStep.of_step hstep with
  | sendRequest hp =>
    refine ⟨by simpa using hclosed, ?_, hrest, by simpa using hc.drained hclosed⟩
    intro e he
    rcases hs.ledger.sendRequest_cases _ with ⟨-, -, hev⟩ | ⟨hopen, -⟩ | ⟨hopen, -⟩
    · rw [hev, List.mem_singleton] at he
      rw [he]
      rfl
    · cases hopen.symm.trans hclosed
    · cases hopen.symm.trans hclosed
  | io hio =>
    cases hio with
    | frameBuffered hf => rcases hc.drained hclosed hf with hp | hp <;> cases hp
    | closedIdle hf _ => exact ⟨hclosed, by simp, rfl, fun hf' => nomatch hf.symm.trans hf'⟩
    | notReadable hf hopen => cases hopen.symm.trans hclosed
    | readable hf hopen => cases hopen.symm.trans hclosed
    | someOutgoing ho =>
      simp only [Connection.hasOutgoingData, Bool.and_eq_true, Bool.not_eq_true'] at ho
      cases ho.1.symm.trans hclosed
    | noOutgoing ho => exact ⟨hclosed, by simp, rfl, fun _ => .inr rfl⟩
    | _ => cases hrest
  | enter => exact ⟨hclosed, by simp, rfl, fun hf => nomatch (henter rfl).symm.trans hf⟩
  | leave => exact ⟨hclosed, by simp, rfl, fun _ => .inl rfl⟩

/-- The account survives every step but the arrival at a closed connection with a complete
frame. -/
theorem Closing.step (hs : Sound h v) (hc : Closing h v)
    (henter : a = .enter → v.conn.closed = true → v.conn.frameReady = false)
    (hstep : View.step v a = some (v', es)) : Closing (h ++ es) v' := by
  cases hv : v.conn.closed with
  | true =>
    obtain ⟨hclosed, hes, hrest, hdrain⟩ := hc.closed_step hs hv (fun he => henter he hv) hstep
    refine ⟨fun _ _ => hclosed, fun _ => hrest, fun _ => hdrain, ?_⟩
    intro before after what heq e he
    rcases split_event heq with ⟨rest, hold, rfl⟩ | ⟨front, -, hnew⟩
    · rcases List.mem_append.mp he with he | he
      · exact hc.inert before rest what hold e he
      · exact hes e he
    · cases hes (.closed what) (by simp [hnew])
  | false =>
    have hnone : ∀ what, Event.closed what ∉ h := fun what hmem =>
      nomatch hv.symm.trans (hc.shown what hmem)
    rcases hs.open_step hv hstep with ⟨hopen, hes⟩ | ⟨hclosed, ⟨ps, what', rfl⟩, hphase⟩
    · refine ⟨?_, fun hcl => (nomatch hopen.symm.trans hcl),
        fun hcl => (nomatch hopen.symm.trans hcl), ?_⟩
      · intro what hmem
        rcases List.mem_append.mp hmem with hmem | hmem
        · exact absurd hmem (hnone what)
        · exact absurd hmem (hes what)
      · intro before after what heq
        have hmem : Event.closed what ∈ h ++ es := by simp [heq]
        rcases List.mem_append.mp hmem with hmem | hmem
        · exact absurd hmem (hnone what)
        · exact absurd hmem (hes what)
    · refine ⟨fun _ _ => hclosed, ?_, ?_, ?_⟩
      · intro _
        rcases hphase with hp | ⟨hp, -⟩ <;> rw [hp] <;> rfl
      · intro _ hready
        rcases hphase with hp | ⟨-, hf⟩
        · exact .inr hp
        · cases hf.symm.trans hready
      · intro before after what heq e he
        rcases split_event heq with ⟨rest, hold, -⟩ | ⟨front, -, hnew⟩
        · exact absurd (by simp [hold]) (hnone what)
        · -- the closing event is the last of the step
          rcases split_event hnew with ⟨rest, hmap, -⟩ | ⟨front', -, hlast⟩
          · have hmem : Event.closed what ∈ List.map (Event.satisfied · (.exception what')) ps := by
              simp only [hmap, List.mem_append, List.mem_cons, true_or, or_true]
            simp at hmem
          · cases front' with
            | nil => rw [(List.cons.inj hlast).2.symm] at he; cases he
            | cons x front' => simp at hlast

theorem View.closed_mono (hclosed : v.conn.closed = true)
    (hstep : View.step v a = some (v', es)) : v'.conn.closed = true := by
  cases ViewStep.of_step hstep with
  | sendRequest hp => simpa using hclosed
  | io hio =>
    cases hio with
    | lost hv => exact Connection.closeStep_closed hv
    | broken hv => exact Connection.closeStep_closed hv
    | received hp hc => subst hc; exact hclosed
    | decoded hd => cases hd; exact hclosed
    | _ => exact hclosed
  | enter => exact hclosed
  | leave => exact hclosed

/-- A step of the I/O thread on its own, which waits for nothing. -/
def View.internal (_ : View) (b : Action) : Prop := b = .io .internal

theorem Closing.toDone (hc : Closing h v) (hclosed : v.conn.closed = true)
    (haway : v.phase ≠ .away) : Run View.step View.internal v [] ⟨v.conn, .done⟩ := by
  obtain ⟨c, phase⟩ := v
  have ho : c.hasOutgoingData = false := by
    rw [Connection.hasOutgoingData, show c.closed = true from hclosed]
    rfl
  have last : Run View.step View.internal ⟨c, .hasOutgoing⟩ [] ⟨c, .done⟩ :=
    .single rfl (ioStep_iff.mpr (.noOutgoing ho))
  have hrest := hc.resting hclosed
  cases phase with
  | away => exact absurd rfl haway
  | hasIncoming =>
    have hf : c.frameReady = false := by
      by_contra hready
      rw [Bool.not_eq_false] at hready
      rcases hc.drained hclosed hready with hp | hp <;> cases hp
    have first : Run View.step View.internal ⟨c, .hasIncoming⟩ [] ⟨c, .hasOutgoing⟩ :=
      .single rfl (ioStep_iff.mpr (.closedIdle hf hclosed))
    exact first.trans last
  | hasOutgoing => exact last
  | done => exact .refl
  | _ => cases hrest

/-! ## The loop -/

/-- The client after history `h`: besides what is known of each connection, the thread has passed
every closed connection with a complete frame, and it has returned only when `done` allows it. -/
structure Inert (h : List (Fin n × Event)) (s : Client n) : Prop where
  sound : ∀ c, Sound (onPart c h) (s.parts c)
  closing : ∀ c, Closing (onPart c h) (s.parts c)
  passed : ∀ c, (s.parts c).conn.closed = true → (s.parts c).conn.frameReady = true →
    (s.parts c).phase = .away → ∀ j, s.position = .body j → c < j
  finished : s.position = .returned → s.done clientBody = true

namespace Inert

variable {k ks : List (Fin n × Event)} {s t : Client n} {b : ClientAction n}

theorem init : Inert [] (Client.init (n := n)) where
  sound _ := Sound.init
  closing _ := Closing.init
  passed _ h := nomatch h
  finished h := nomatch h

theorem enter_drained (hi : Inert k s) (ha : drainedWhenClosed s b = true) {c : Fin n} {x : Action}
    {w : View} {xs : List Event} (hr : Reaches clientBody s t c b x)
    (hs : View.step (s.parts c) x = some (w, xs)) :
    x = .enter → (s.parts c).conn.closed = true → (s.parts c).conn.frameReady = false := by
  intro hx hclosed
  subst hx
  cases hr with
  | part hc => exact absurd rfl hc
  | start hd hp =>
    simp only [drainedWhenClosed, hd, Bool.false_or, decide_eq_true_eq] at ha
    exact ha c hclosed
  | @arrive i hp hci =>
    by_contra hready
    rw [Bool.not_eq_false] at hready
    have hlt := hi.passed c hclosed hready (View.step_enter.mp hs).1 i hp
    rw [Fin.lt_def] at hlt
    omega

theorem step (hi : Inert k s) (ha : drainedWhenClosed s b = true)
    (hs : processConnections s b = some (t, ks)) : Inert (k ++ ks) t := by
  have hstep := (LoopStep.of_loopStep hs).2
  refine ⟨?_, ?_, ?_, ?_⟩
  · intro c
    rw [onPart_append]
    rcases hstep.seenFrom c with ⟨hp, hks⟩ | ⟨x, hx, -⟩
    · rw [hp, hks, List.append_nil]
      exact hi.sound c
    · exact (hi.sound c).step hx
  · intro c
    rw [onPart_append]
    rcases hstep.seenFrom c with ⟨hp, hks⟩ | ⟨x, hx, hr⟩
    · rw [hp, hks, List.append_nil]
      exact hi.closing c
    · exact (hi.closing c).step (hi.sound c) (hi.enter_drained ha hr hx) hx
  · intro c hclosed hready haway j hj
    cases hstep with
    | @part i x w xs hc ht hx =>
      by_cases hic : i = c
      · subst hic
        simp only [Function.update_self] at hclosed hready haway
        cases x with
        | sendRequest payload =>
          obtain ⟨-, rfl, -⟩ := View.step_sendRequest.mp hx
          exact hi.passed i (by simpa using hclosed) (by simpa using hready) haway j hj
        | io op => exact absurd haway (ioStep_iff.mp hx).phase_ne_away.2
        | enter => exact absurd rfl hc
        | leave => exact absurd rfl hc
      · simp only [Function.update_of_ne (Ne.symm hic)] at hclosed hready haway
        exact hi.passed c hclosed hready haway j hj
    | returned hp hd => cases hj
    | @started i w xs hp hd h0 hx =>
      obtain ⟨-, rfl, -⟩ := View.step_enter.mp hx
      by_cases hic : i = c
      · subst hic
        simp only [Function.update_self] at haway
        cases haway
      · simp only [Function.update_of_ne (Ne.symm hic)] at hclosed hready
        simp only [drainedWhenClosed, hd, Bool.false_or, decide_eq_true_eq] at ha
        cases (ha c hclosed).symm.trans hready
    | @moved i j' w w' xs xs' hp hl hj' he =>
      obtain ⟨-, rfl, -⟩ := View.step_enter.mp he
      cases hj
      by_cases hjc : j = c
      · subst hjc
        simp only [Function.update_self] at haway
        cases haway
      · simp only [Function.update_of_ne (Ne.symm hjc)] at hclosed hready haway
        rw [Fin.lt_def]
        by_cases hic : i = c
        · subst hic
          omega
        · simp only [Function.update_of_ne (Ne.symm hic)] at hclosed hready haway
          have hlt := hi.passed c hclosed hready haway i hp
          rw [Fin.lt_def] at hlt
          omega
    | finished hp hl hlast => cases hj
    | slept hp => cases hj
    | stopRequested => exact hi.passed c hclosed hready haway j hj
  · intro hret
    cases hstep with
    | @part i x w xs hc ht hx =>
      have hdone := hi.finished hret
      simp only [Loop.done, Bool.or_eq_true, decide_eq_true_eq] at hdone ⊢
      refine hdone.imp id fun hall c => ?_
      by_cases hic : i = c
      · subst hic
        rw [Function.update_self]
        exact View.closed_mono (hall i) hx
      · rw [Function.update_of_ne (Ne.symm hic)]
        exact hall c
    | returned hp hd => exact hd
    | started => cases hret
    | moved => cases hret
    | finished => cases hret
    | slept => cases hret
    | stopRequested => rfl

theorem run {h : List (Fin n × Event)}
    (hrun : Run processConnections (fun s a => drainedWhenClosed s a = true) Client.init h s) :
    Inert h s :=
  hrun.invariant (I := Inert) init fun hi ha hs => hi.step ha hs

end Inert

theorem Inert.leaves {k : List (Fin n × Event)} {s : Client n} {c : Fin n} (hi : Inert k s)
    (hl : s.Located clientBody) (hclosed : (s.parts c).conn.closed = true)
    (hp : s.position = .body c) :
    ∃ t, Run processConnections (fun s a => drainedWhenClosed s a = true) s [] t ∧
      (t.position = .endOfRound ∨ ∃ j : Fin n, j.val = c.val + 1 ∧ t.position = .body j) := by
  have haway : (s.parts c).phase ≠ .away := by
    simpa [clientBody] using (hl c).mpr hp
  have hdone : Run processConnections (fun s a => drainedWhenClosed s a = true) s []
      { s with parts := Function.update s.parts c ⟨(s.parts c).conn, .done⟩ } := by
    refine Loop.lift (B := clientBody) ?_ ?_ ?_ ?_ ((hi.closing c).toDone hclosed haway)
    · rintro v b rfl
      exact .inr ⟨rfl, hp⟩
    · rintro ⟨conn, phase⟩ b q rfl hq
      cases phase <;> first | rfl | cases hq
    · intro j hj hpj
      exact absurd (Position.body.inj (hpj.symm.trans hp)) hj
    · rintro u b rfl
      rfl
  -- the state with the loop body of `c` finished
  obtain ⟨u, hu⟩ : ∃ u : Client n,
      u = { s with parts := Function.update s.parts c ⟨(s.parts c).conn, .done⟩ } := ⟨_, rfl⟩
  rw [← hu] at hdone
  have hpu : u.position = .body c := by rw [hu]; exact hp
  have huc : u.parts c = ⟨(s.parts c).conn, .done⟩ := by rw [hu]; exact Function.update_self ..
  have hleave : View.step (u.parts c) .leave = some (⟨(s.parts c).conn, .away⟩, []) := by
    rw [huc]
    rfl
  have hterm : u.terminated clientBody = false := by
    simp [Loop.terminated, hpu, clientBody, huc, Phase.isThrew]
  by_cases hlt : c.val + 1 < n
  · obtain ⟨j, hj⟩ : ∃ j : Fin n, j.val = c.val + 1 := ⟨⟨c.val + 1, hlt⟩, rfl⟩
    have hne : j ≠ c := by rintro rfl; omega
    have hnext : (s.parts j).phase = .away := by
      have hnot := mt (hl j).mp (by simpa [hp] using Ne.symm hne)
      simpa [clientBody] using hnot
    have henter : View.step (u.parts j) .enter = some (⟨(s.parts j).conn, .hasIncoming⟩, []) := by
      have huj : u.parts j = s.parts j := by rw [hu]; exact Function.update_of_ne hne ..
      exact View.step_enter.mpr ⟨by rw [huj, hnext], by rw [huj], rfl⟩
    have hstep := LoopStep.moved (B := clientBody) hpu hleave hj henter
    exact ⟨_, hdone.tail rfl (hstep.loopStep_eq hterm), .inr ⟨j, hj, rfl⟩⟩
  · have hstep := LoopStep.finished (B := clientBody) hpu hleave (by have := c.isLt; omega)
    exact ⟨_, hdone.tail rfl (hstep.loopStep_eq hterm), .inl rfl⟩

end PromiseDemo
