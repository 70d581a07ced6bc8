import PromiseDemo.Client.Correlation
import PromiseDemo.Client.Closing
import PromiseDemo.Client.Numbering
import PromiseDemo.Net.FrameGrammar

/-!
# Lost connections

The socket is read only when no complete frame is buffered.  When `recv_some` fails, everything
that has arrived completely has been dispatched, and `pending_` holds exactly the requests whose
end mark has not arrived.
-/

namespace PromiseDemo

open Transition PromiseStore PrefixCode

@[simp] def Event.dispatches : Event → List Frame
  | .lookup data => [data]
  | _ => []

/-- The frames whose requests have been looked up, in order. -/
def dispatchedOf (h : List Event) : List Frame := h.flatMap Event.dispatches

@[simp] theorem dispatchedOf_append (h k : List Event) :
    dispatchedOf (h ++ k) = dispatchedOf h ++ dispatchedOf k := List.flatMap_append

/-- The frame that has been decoded and not yet looked up. -/
def Phase.undispatched : Phase → List Frame
  | .getRequest data => [data]
  | _ => []

def Event.isClosed : Event → Bool
  | .closed _ => true
  | _ => false

/-- The frames that have arrived completely in `h`, less those already dispatched in `h₁`. -/
def arrivedSince (h₁ h : List Event) : List Frame :=
  (completeFrames (receivedOf h)).drop (dispatchedOf h₁).length

variable {h es : List Event} {v v' : View} {a : Action} {p : ℕ} {id : UInt32}

/-! ## Dispatching -/

theorem View.step_dispatched (hstep : View.step v a = some (v', es)) :
    v.phase.undispatched ++ decodedOf es = dispatchedOf es ++ v'.phase.undispatched := by
  have closing : ∀ {c : Connection} {what : String} {next : Phase},
      c.closeStep what next = (v', es) → next.undispatched = [] →
      decodedOf es = dispatchedOf es ++ v'.phase.undispatched := by
    intro c what next hv hnext
    have hdispatched : dispatchedOf es = [] :=
      Connection.flatMap_closeStep (fun _ _ => rfl) (fun _ => rfl) hv
    rw [(streams_closeStep hv).2.2.2, hdispatched]
    rcases c.closeStep_phase what next with hp | ⟨x, hp⟩ <;> rw [hv] at hp
    · rw [show v'.phase = next from hp, hnext]
      rfl
    · rw [show v'.phase = .threw x from hp]
      rfl
  cases ViewStep.of_step hstep with
  | @sendRequest _ payload hp =>
    have hdecoded : decodedOf (v.conn.sendEvents payload) = [] :=
      Connection.flatMap_sendEvents (fun _ => rfl) (fun _ _ _ => rfl) (fun _ => rfl) v.conn payload
    have hdispatched : dispatchedOf (v.conn.sendEvents payload) = [] :=
      Connection.flatMap_sendEvents (fun _ => rfl) (fun _ _ _ => rfl) (fun _ => rfl) v.conn payload
    rw [hdecoded, hdispatched, List.append_nil]
    rfl
  | io hio =>
    cases hio with
    | lost hv => exact closing hv rfl
    | broken hv => exact closing hv rfl
    | received hp hc =>
      dsimp only
      split <;> rfl
    | pushed hr =>
      dsimp only
      split <;> rfl
    | _ => rfl
  | enter => rfl
  | leave => rfl

theorem decoded_eq_dispatched {allowed : View → Action → Prop}
    (hrun : Run View.step allowed View.init h v) :
    decodedOf h = dispatchedOf h ++ v.phase.undispatched := by
  apply hrun.invariant (I := fun h v => decodedOf h = dispatchedOf h ++ v.phase.undispatched)
  · rfl
  · intro h v v' a es hall _ hstep
    rw [decodedOf_append, dispatchedOf_append, hall, List.append_assoc,
      View.step_dispatched hstep, List.append_assoc]

theorem mem_framesFor {payload : Bytes} :
    payload ∈ framesFor id h ↔ ⟨id, payload⟩ ∈ decodedOf h := by
  rw [framesFor, List.mem_filterMap, decodedOf, List.mem_flatMap]
  apply exists_congr
  intro e
  cases e with
  | decoded data =>
    obtain ⟨i, bytes⟩ := data
    by_cases hi : i = id
    · simp [Event.payloadFor, hi, eq_comm]
    · simp [Event.payloadFor, hi, Ne.symm hi]
  | _ => simp [Event.payloadFor]

theorem Sound.mem_inHand (hs : Sound h v) (hfresh : v.conn.pending.lookup id = none)
    {payload : Bytes} : payload ∈ v.phase.inHand id ↔ ⟨id, payload⟩ ∈ v.phase.undispatched := by
  obtain ⟨c, phase⟩ := v
  cases phase with
  | getRequest data =>
    obtain ⟨i, bytes⟩ := data
    by_cases hi : i = id
    · simp [Phase.inHand, Phase.undispatched, hi]
    · simp [Phase.inHand, Phase.undispatched, hi, Ne.symm hi]
  | pushFrame data =>
    obtain ⟨r, hr⟩ := hs.point
    have hi : data.id ≠ id := by
      rintro rfl
      cases hfresh.symm.trans hr
    simp [Phase.inHand, Phase.undispatched, hi]
  | _ => simp [Phase.inHand, Phase.undispatched]

/-! ## Closing once -/

theorem Sound.not_closed_again (hs : Sound h v) (hclosed : v.conn.closed = true)
    (hstep : View.step v a = some (v', es)) : ∀ what, Event.closed what ∉ es := by
  intro what hmem
  cases ViewStep.of_step hstep with
  | sendRequest hp => rcases mem_sendEvents hmem with ⟨-, he⟩ | ⟨q, he⟩ | ⟨x, he⟩ <;> cases he
  | io hio =>
    cases hio with
    | lost hv => exact Connection.not_closed hs.point.1 hclosed
    | broken hv => exact Connection.not_closed hs.point hclosed
    | _ => simp at hmem
  | enter => simp at hmem
  | leave => simp at hmem

theorem closings_eq {allowed : View → Action → Prop} (hrun : Run View.step allowed View.init h v) :
    Sound h v ∧ h.countP Event.isClosed = if v.conn.closed then 1 else 0 := by
  apply hrun.invariant (I := fun h v =>
    Sound h v ∧ h.countP Event.isClosed = if v.conn.closed then 1 else 0)
  · exact ⟨.init, rfl⟩
  · rintro h v v' a es ⟨hs, hcount⟩ _ hstep
    refine ⟨hs.step hstep, ?_⟩
    have uncounted : (∀ what, Event.closed what ∉ es) → es.countP Event.isClosed = 0 := by
      intro hes
      rw [List.countP_eq_zero]
      intro e he
      cases e with
      | closed what => exact absurd he (hes what)
      | _ => exact Bool.false_ne_true
    rw [List.countP_append, hcount]
    cases hv : v.conn.closed with
    | true =>
      rw [uncounted (hs.not_closed_again hv hstep), View.closed_mono hv hstep]
      rfl
    | false =>
      rcases hs.open_step hv hstep with ⟨hopen, hes⟩ | ⟨hclosed, ⟨ps, what, rfl⟩, -⟩
      · rw [uncounted hes, hopen]
        rfl
      · rw [List.countP_append, hclosed, List.countP_map]
        simp [Function.comp_def, Event.isClosed]

theorem closed_of_exception {allowed : View → Action → Prop}
    (hrun : Run View.step allowed View.init h v) {what : String}
    (hmem : .satisfied p (.exception what) ∈ h) : v.conn.closed = true := by
  revert hmem
  apply hrun.invariant (I := fun h v =>
    .satisfied p (.exception what) ∈ h → v.conn.closed = true)
  · intro hmem
    simp at hmem
  · intro h v v' a es ih _ hstep hmem
    rcases List.mem_append.mp hmem with hold | hnew
    · exact View.closed_mono (ih hold) hstep
    · cases ViewStep.of_step hstep with
      | sendRequest hp => rcases mem_sendEvents hnew with ⟨-, he⟩ | ⟨q, he⟩ | ⟨x, he⟩ <;> cases he
      | io hio =>
        cases hio with
        | lost hv => exact Connection.closeStep_closed hv
        | broken hv => exact Connection.closeStep_closed hv
        | _ => simp at hnew
      | enter => simp at hnew
      | leave => simp at hnew

/-! ## The fate of a request -/

theorem Sound.outcomes_eq (hs : Sound h v) {o : Outcome} (hmem : .satisfied p o ∈ h) :
    outcomesOf p h = [o] := by
  have hout : o ∈ outcomesOf p h := List.mem_filterMap.mpr ⟨_, hmem, if_pos rfl⟩
  rw [hs.ledger.outcomes] at hout ⊢
  cases hres : resultOf v.conn.promises p with
  | none => simp [hres] at hout
  | some o' =>
    rw [hres] at hout
    rw [List.mem_singleton.mp hout]
    rfl

/-- A promise that waits has no outcome. -/
theorem Sound.waiting_outcomes (hs : Sound h v) (hserved : v.phase.served = none)
    (hp : p ∈ v.conn.pendingPromises) : outcomesOf p h = [] := by
  obtain ⟨id, r, hr, rfl⟩ := Ledger.mem_pendingPromises.mp hp
  rw [hs.ledger.outcomes, hs.ledger.unsatisfied hr (by simp [hserved])]
  rfl

theorem Sound.issue_waiting (hs : Sound h v) {payload : Bytes}
    (hstep : View.step v a = some (v', es)) (hmem : .issued p id payload ∈ es) :
    outcomesOf p (h ++ es) = [] := by
  obtain ⟨rfl, -⟩ := hs.issue_step hstep hmem
  cases ViewStep.of_step hstep
  rcases hs.ledger.sendRequest_cases payload with ⟨-, -, he⟩ | ⟨-, ⟨r, hr⟩, -, he⟩ | ⟨-, -, -, he⟩
  · simp [he] at hmem
  · simp [he] at hmem
  · rw [he] at hmem ⊢
    obtain rfl : p = v.conn.promises.length := by
      simp only [List.mem_cons, reduceCtorEq, Event.issued.injEq, List.not_mem_nil, or_false,
        false_or] at hmem
      exact hmem.1
    rw [outcomesOf_append, hs.ledger.outcomes, resultOf_of_length_le le_rfl]
    rfl

theorem Tracked.settled {held : Reply} {h₀ : List Event} (ht : Tracked p id held h₀ h v)
    (hphase : v.phase = .closeRead) (hnone : outcomesOf p h₀ = [])
    (hexception : ∀ what, Event.satisfied p (.exception what) ∉ h) :
    (endPayload ∉ held ++ framesFor id h ∧ outcomesOf p (h₀ ++ h) = [] ∧
      p ∈ v.conn.pendingPromises) ∨
    (endPayload ∈ held ++ framesFor id h ∧ ∃ reply, outcomesOf p (h₀ ++ h) = [.value reply]) := by
  rcases ht.progress with hc | hout
  · -- no frame is in hand
    obtain ⟨r, fs, hr, hrp, hfs, hframes, hheld⟩ := hc
    rw [hphase] at hframes hheld
    simp only [Phase.mark, Phase.inHand, List.append_nil] at hframes hheld
    have hp : p ∈ v.conn.pendingPromises := Ledger.mem_pendingPromises.mpr ⟨id, r, hr, hrp⟩
    exact .inl ⟨by rwa [hheld, hframes], ht.sound.waiting_outcomes (by rw [hphase]; rfl) hp, hp⟩
  · rw [outcomesOf_append, hnone, List.nil_append] at hout
    obtain ⟨o, ho⟩ := List.exists_mem_of_ne_nil _ hout
    obtain ⟨e, he, heo⟩ := List.mem_filterMap.mp ho
    cases e with
    | satisfied q o' =>
      obtain ⟨rfl, rfl⟩ : q = p ∧ o' = o := by simpa [Event.outcomeOf] using heo
      cases o' with
      | exception what => exact absurd he (hexception what)
      | value reply =>
        obtain ⟨before, after, rfl⟩ := List.append_of_mem he
        obtain ⟨hreply, fs, hfs, -⟩ := ht.value rfl
        have hend : endPayload ∈ held ++ framesFor id before := by
          rw [← hreply, hfs]
          exact List.mem_append_right _ (List.mem_singleton_self _)
        refine .inr ⟨?_, reply, ht.sound.outcomes_eq (List.mem_append_right _ he)⟩
        rw [framesFor_append, ← List.append_assoc]
        exact List.mem_append_left _ hend
    | _ => simp [Event.outcomeOf] at heo

theorem request_fate (hrun : Run View.step anyAction View.init h v) (hphase : v.phase = .closeRead)
    {h₁ h₂ : List Event} {payload : Bytes} (heq : h = h₁ ++ .issued p id payload :: h₂) :
    (⟨id, endPayload⟩ ∉ (decodedOf h).drop (dispatchedOf h₁).length ∧ outcomesOf p h = [] ∧
      p ∈ v.conn.pendingPromises) ∨
    (⟨id, endPayload⟩ ∈ (decodedOf h).drop (dispatchedOf h₁).length ∧
      ∃ reply, outcomesOf p h = [.value reply]) := by
  obtain ⟨k, t, b, es₁, es₂, t', k₂, hrun₁, hstep, hrun₂, rfl, rfl⟩ := hrun.split heq
  have hs : Sound k t := by simpa using Sound.init.run hrun₁
  have hissued : Event.issued p id payload ∈ es₁ ++ .issued p id payload :: es₂ := by simp
  obtain ⟨rfl, -, hfresh, -⟩ := hs.issue_step hstep hissued
  obtain ⟨rfl, rfl⟩ := hs.issue_split hstep
  have ht := (Tracked.issue hs hstep hissued).run hrun₂
  have hall : h = k ++ ([.queued ⟨id, payload⟩] ++ [.issued p id payload]) ++ ([] ++ k₂) := by
    simpa using heq
  have hopen : v.conn.closed = false := by
    have hat := ht.sound.point
    rw [hphase] at hat
    exact hat.1
  have hexception : ∀ what, Event.satisfied p (.exception what) ∉ [] ++ k₂ := by
    intro what hmem
    have hin : Event.satisfied p (.exception what) ∈ h := by
      rw [hall]
      exact List.mem_append_right _ hmem
    exact Connection.not_closed hopen (closed_of_exception hrun hin)
  have hsettled := ht.settled hphase (hs.issue_waiting hstep hissued) hexception
  -- what had not been dispatched before the request, and what has been decoded since
  have hdropped : (decodedOf h).drop (dispatchedOf (k ++ [.queued ⟨id, payload⟩])).length =
      t.phase.undispatched ++ decodedOf k₂ := by
    rw [hall]
    simp [decoded_eq_dispatched hrun₁, dispatchedOf]
  rw [hdropped, List.mem_append, ← hs.mem_inHand hfresh, ← mem_framesFor, ← List.mem_append, hall]
  exact hsettled

theorem View.step_lost (hstep : View.step v a = some (v', es))
    (hmem : .closed "connection lost" ∈ es) :
    v.phase = .closeRead ∧ v.conn.closeStep "connection lost" .hasOutgoing = (v', es) := by
  cases ViewStep.of_step hstep with
  | sendRequest hp => rcases mem_sendEvents hmem with ⟨-, he⟩ | ⟨q, he⟩ | ⟨x, he⟩ <;> cases he
  | io hio =>
    cases hio with
    | lost hv => exact ⟨rfl, hv⟩
    | broken hv =>
      rcases Connection.mem_closeStep hv hmem with ⟨q, he⟩ | he
      · cases he
      · exact absurd (Event.closed.inj he) (by decide)
    | _ => simp at hmem
  | enter => simp at hmem
  | leave => simp at hmem

theorem Sound.exception_iff (hs : Sound h v) (hstep : View.step v a = some (v', es))
    (hmem : .closed "connection lost" ∈ es) :
    .satisfied p (.exception "connection lost") ∈ es ↔ p ∈ v.conn.pendingPromises := by
  obtain ⟨hphase, hv⟩ := View.step_lost hstep hmem
  have hserved : v.phase.served = none := by rw [hphase]; rfl
  obtain ⟨promises, -, hes, -⟩ := (hserved ▸ hs.ledger).of_closeStep hv
  rw [hes]
  simp

/-- The promises that wait are those of the requests whose end mark has not been decoded. -/
theorem waits_iff (hrun : Run View.step anyAction View.init h v) (hphase : v.phase = .closeRead) :
    p ∈ v.conn.pendingPromises ↔ ∃ h₁ id payload h₂, h = h₁ ++ .issued p id payload :: h₂ ∧
      ⟨id, endPayload⟩ ∉ (decodedOf h).drop (dispatchedOf h₁).length := by
  constructor
  · intro hp
    obtain ⟨hs, -, ht⟩ := numbered_run hrun
    obtain ⟨id, r, hr, rfl⟩ := Ledger.mem_pendingPromises.mp hp
    obtain ⟨payload, hmem⟩ := ht.entry hr
    obtain ⟨h₁, h₂, heq⟩ := List.append_of_mem hmem
    refine ⟨h₁, id, payload, h₂, heq, ?_⟩
    rcases request_fate hrun hphase heq with ⟨hnot, -⟩ | ⟨-, reply, hvalue⟩
    · exact hnot
    · have hserved : v.phase.served = none := by rw [hphase]; rfl
      cases hvalue.symm.trans (hs.waiting_outcomes hserved hp)
  · rintro ⟨h₁, id, payload, h₂, heq, hnot⟩
    rcases request_fate hrun hphase heq with ⟨-, -, hp⟩ | ⟨hend, -⟩
    · exact hp
    · exact absurd hend hnot

theorem arrivedSince_eq (hrun : Run View.step anyAction View.init h v)
    (hready : v.conn.frameReady = false) (hformat : Declares (2 ^ 32 - 8) (receivedOf h))
    (h₁ : List Event) : arrivedSince h₁ h = (decodedOf h).drop (dispatchedOf h₁).length := by
  have hin := (streams_run hrun).2.inflow
  rw [arrivedSince,
    decoded_eq_completeFrames hin hformat ((v.conn.frameReady_eq_false).mp hready)]

/-- For every interleaving, every cutting of the peer's bytes and all answers of the system calls:
when `close_with_error("connection lost")` runs on a connection whose peer keeps to the format, no
complete frame is in `read_buffer_`, every request whose end mark has arrived has its value, and
exactly the others get the exception; and no connection ever runs `close_with_error` twice.

Nothing is asked of the ids in the frames: after a frame for no pending request `get_request`
throws, and the process ends before the connection is closed. -/
theorem lost_connection_delivers {n : ℕ} {c : Fin n} {h₁ es h₂ : List (Fin n × Event)}
    {s₁ s₂ s₃ : Client n} {b : ClientAction n}
    (hrun₁ : Run processConnections anyAction Client.init h₁ s₁)
    (hclose : processConnections s₁ b = some (s₂, es))
    (hlost : (c, .closed "connection lost") ∈ es)
    (hrun₂ : Run processConnections anyAction s₂ h₂ s₃)
    (hformat : Declares (2 ^ 32 - 8) (receivedOf (onPart c h₁))) :
    completeFrames (s₁.parts c).conn.readBuffer = [] ∧
    (∀ k₁ p id payload k₂, onPart c h₁ = k₁ ++ .issued p id payload :: k₂ →
      ⟨id, endPayload⟩ ∈ arrivedSince k₁ (onPart c h₁) →
        ∃ reply, outcomesOf p (onPart c h₁) = [.value reply]) ∧
    (∀ p, .satisfied p (.exception "connection lost") ∈ onPart c es ↔
      ∃ k₁ id payload k₂, onPart c h₁ = k₁ ++ .issued p id payload :: k₂ ∧
        ⟨id, endPayload⟩ ∉ arrivedSince k₁ (onPart c h₁)) ∧
    ∀ i, (onPart i (h₁ ++ es ++ h₂)).countP Event.isClosed ≤ 1 := by
  have hpart := Client.part_run hrun₁ c
  have hs := Client.sound hrun₁ c
  obtain ⟨x, hx⟩ : ∃ x, View.step (s₁.parts c) x = some (s₂.parts c, onPart c es) := by
    rcases (LoopStep.of_loopStep hclose).2.seenFrom c with ⟨-, hnone⟩ | ⟨x, hx, -⟩
    · rw [← mem_onPart, hnone] at hlost
      simp at hlost
    · exact ⟨x, hx⟩
  have hshown := mem_onPart.mpr hlost
  have hphase := (View.step_lost hx hshown).1
  have hready : (s₁.parts c).conn.frameReady = false := by
    have hat := hs.point
    rw [hphase] at hat
    exact hat.2
  refine ⟨?_, ?_, ?_, ?_⟩
  · exact completeFrames_of_none (((s₁.parts c).conn.frameReady_eq_false).mp hready)
  · intro k₁ p id payload k₂ heq hend
    rw [arrivedSince_eq hpart hready hformat] at hend
    rcases request_fate hpart hphase heq with ⟨hnot, -⟩ | ⟨-, hvalue⟩
    · exact absurd hend hnot
    · exact hvalue
  · intro p
    rw [hs.exception_iff hx hshown, waits_iff hpart hphase]
    simp only [arrivedSince_eq hpart hready hformat]
  · intro i
    have hall := (hrun₁.tail trivial hclose).trans hrun₂
    rw [(closings_eq (Client.part_run hall i)).2]
    split <;> omega

/-- Two requests; the reply to the first and three bytes more arrive, then the peer closes. -/
private def halfAnswered (c : Fin 1) : List (ClientAction 1) :=
  [.part c (.sendRequest [7]), .part c (.sendRequest [8]), .test,
    .part c (.io (.waitReadable true)),
    .part c (.io (.recv (.data (encodeFrame 1 endPayload ++ [0, 0, 0])))),
    .part c (.io .internal), .part c (.io .internal), .part c (.io .internal),
    .part c (.io .internal), .part c (.io .internal), .part c (.io .internal),
    .part c (.io .internal), .part c (.io (.send (.accepted 9))), .part c (.io .internal),
    .next, .sleep, .test, .part c (.io (.waitReadable true)), .part c (.io (.recv .failed))]

theorem lost_connection_delivers_half :
    let q := afterAll processConnections anyAction (Client.init (n := 1)) (halfAnswered 0)
    (∃ reply, outcomesOf 0 (onPart 0 q.2) = [.value reply]) ∧
      .satisfied 1 (.exception "connection lost") ∈
        onPart 0 (after processConnections q.1 (.part 0 (.io .internal))).2 := by
  intro q
  have hrun := Run.of_actions processConnections anyAction (Client.init (n := 1)) (halfAnswered 0)
    (by decide)
  have hclose := step_eq_after processConnections q.1 (.part 0 (.io .internal)) (by decide)
  have hformat : Declares (2 ^ 32 - 8) (receivedOf (onPart 0 q.2)) := by
    apply Declares.frame (by decide) (by decide) (by decide)
    exact .header (by decide)
  obtain ⟨-, hvalue, hexception, -⟩ :=
    lost_connection_delivers (c := 0) hrun hclose (by decide) .refl hformat
  refine ⟨hvalue [.queued ⟨1, [7]⟩] 0 1 [7] ((onPart 0 q.2).drop 2) (by decide) (by decide), ?_⟩
  exact (hexception 1).mpr ⟨(onPart 0 q.2).take 3, 2, [8], (onPart 0 q.2).drop 4, by decide,
    by decide⟩

end PromiseDemo
