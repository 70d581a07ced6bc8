import PromiseDemo.Client.Ledger

/-!
# Futures are resolved once

The invariant of a connection under every interleaving of `send_request` calls with the I/O
thread, every byte stream of the peer and every answer of the system calls; from it, the fate
of every future that `send_request` has returned.
-/

namespace PromiseDemo

open Transition PromiseStore

/-- The id whose promise has been satisfied while its entry is still in `pending_`. -/
def Phase.served : Phase → Option UInt32
  | .removeRequest id => some id
  | _ => none

/-- What the I/O thread has established when it stands at a program point. -/
def Connection.At (c : Connection) : Phase → Prop
  | .receive => c.closed = false ∧ c.frameReady = false
  | .closeRead => c.closed = false ∧ c.frameReady = false
  | .incoming => c.frameReady = true
  | .pushFrame data => ∃ r, c.getRequest data.id = some r
  | .setValue id => ∃ r, c.getRequest id = some r
  | .removeRequest id => ∃ r, c.getRequest id = some r
  | .popOutgoing => c.closed = false ∧ c.outgoing ≠ []
  | .sending _ _ => c.closed = false
  | .closeWrite => c.closed = false
  | .threw e => e = .outOfRange
  | _ => True

/-- The invariant of a connection after history `h`. -/
structure Sound (h : List Event) (v : View) : Prop where
  ledger : Ledger h v.conn v.phase.served
  point : v.conn.At v.phase
  closed : v.conn.closed = true → v.conn.pending = ∅ ∧ v.conn.outgoing = []

theorem Sound.init : Sound [] View.init := ⟨Ledger.init, trivial, fun h => by cases h⟩

theorem Connection.At.grow {c c' : Connection} {phase : Phase} (hat : c.At phase)
    (hbuf : c'.readBuffer = c.readBuffer) (hclosed : c'.closed = c.closed)
    (hpend : ∀ {id r}, c.pending.lookup id = some r → c'.pending.lookup id = some r)
    (hout : c.outgoing ≠ [] → c'.outgoing ≠ []) : c'.At phase := by
  have hready : c'.frameReady = c.frameReady := by simp only [frameReady, hbuf]
  cases phase with
  | pushFrame data => exact hat.imp fun _ h => hpend h
  | setValue id => exact hat.imp fun _ h => hpend h
  | removeRequest id => exact hat.imp fun _ h => hpend h
  | popOutgoing => exact ⟨hclosed.trans hat.1, hout hat.2⟩
  | receive => exact ⟨hclosed.trans hat.1, hready.trans hat.2⟩
  | closeRead => exact ⟨hclosed.trans hat.1, hready.trans hat.2⟩
  | incoming => exact hready.trans hat
  | sending data sent => exact hclosed.trans hat
  | closeWrite => exact hclosed.trans hat
  | threw e => exact hat
  | _ => trivial

theorem Sound.open_of_pending {h : List Event} {v : View} {id : UInt32} {r : PendingRequest}
    (hs : Sound h v) (hr : v.conn.getRequest id = some r) : v.conn.closed = false := by
  by_contra hc
  rw [Bool.not_eq_false] at hc
  rw [Connection.getRequest, (hs.closed hc).1] at hr
  simp at hr

theorem Sound.sendRequest {h : List Event} {v : View} (hs : Sound h v) (payload : Bytes) :
    Sound (h ++ v.conn.sendEvents payload) ⟨(v.conn.sendRequest payload).1, v.phase⟩ := by
  rcases hs.ledger.sendRequest_cases payload with ⟨hc, hv, he⟩ | ⟨hc, -, hv, he⟩ |
    ⟨hc, hid, hv, he⟩
  · rw [hv, he]
    exact ⟨hs.ledger.congr (by simp [Event.quiet]), hs.point, hs.closed⟩
  · rw [hv, he]
    refine ⟨?_, ?_, Connection.not_closed hc⟩
    · exact hs.ledger.congr (by simp [Event.quiet])
    · exact hs.point.grow rfl rfl id fun _ => by simp
  · rw [hv, he]
    refine ⟨hs.ledger.issue hid rfl rfl, ?_, Connection.not_closed hc⟩
    refine hs.point.grow rfl rfl (fun {i r} hr => ?_) fun _ => by simp
    have hi : i ≠ v.conn.nextId := by rintro rfl; rw [hid] at hr; cases hr
    exact (AList.lookup_insert_ne hi).trans hr

theorem Sound.ioStep {h es : List Event} {v v' : View} {op : IoOp} (hs : Sound h v)
    (hstep : IoStep v op v' es) : Sound (h ++ es) v' := by
  have hclosed := hs.closed
  cases hstep with
  | frameBuffered hf => exact ⟨hs.ledger.congr (by simp), hf, hclosed⟩
  | closedIdle hf hc => exact ⟨hs.ledger.congr (by simp), trivial, hclosed⟩
  | notReadable hf hc => exact ⟨hs.ledger.congr (by simp), trivial, hclosed⟩
  | readable hf hc => exact ⟨hs.ledger.congr (by simp), ⟨hc, hf⟩, hclosed⟩
  | @received c c' chunk hp hc =>
    subst hc
    have hl : Ledger (h ++ [.received chunk]) { c with readBuffer := c.readBuffer ++ chunk } none :=
      hs.ledger.congr (by simp [Event.quiet])
    split
    · exact ⟨hl, ‹_›, hclosed⟩
    · exact ⟨hl, trivial, hclosed⟩
  | recvFailed => exact ⟨hs.ledger.congr (by simp), hs.point, hclosed⟩
  | lost hv =>
    obtain ⟨promises, rfl, -, hl⟩ := hs.ledger.of_closeStep hv
    exact ⟨hl, trivial, fun _ => ⟨rfl, rfl⟩⟩
  | decoded hd =>
    cases hd
    exact ⟨hs.ledger.congr (by simp [Event.quiet]), trivial, hclosed⟩
  | found hr => exact ⟨hs.ledger.congr (by simp [Event.quiet]), ⟨_, hr⟩, hclosed⟩
  | missing hr => exact ⟨hs.ledger.congr (by simp [Event.quiet]), rfl, hclosed⟩
  | @pushed c data request hr =>
    have hopen := hs.open_of_pending hr
    rw [List.append_nil]
    split
    · exact ⟨hs.ledger.update hr rfl, ⟨_, AList.lookup_insert _⟩, Connection.not_closed hopen⟩
    · exact ⟨hs.ledger.update hr rfl, trivial, Connection.not_closed hopen⟩
  | @valueSet c id request promises hr hset =>
    have hopen := hs.open_of_pending hr
    obtain ⟨promises', hok, hl⟩ := Ledger.setValue hs.ledger hr (.value request.frames)
    rw [hset] at hok
    cases hok
    exact ⟨hl.update hr rfl, ⟨_, AList.lookup_insert _⟩, Connection.not_closed hopen⟩
  | @valueFault c id request fault hr hset =>
    obtain ⟨promises', hok, -⟩ := Ledger.setValue hs.ledger hr (.value request.frames)
    rw [hset] at hok
    cases hok
  | @removed c id =>
    obtain ⟨r, hr⟩ := hs.point
    have hopen := hs.open_of_pending hr
    rw [List.append_nil]
    exact ⟨hs.ledger.remove, trivial, Connection.not_closed hopen⟩
  | @someOutgoing c ho =>
    simp only [Connection.hasOutgoingData, Bool.and_eq_true, Bool.not_eq_true',
      List.isEmpty_eq_false_iff] at ho
    exact ⟨hs.ledger.congr (by simp), ho, hclosed⟩
  | noOutgoing ho => exact ⟨hs.ledger.congr (by simp), trivial, hclosed⟩
  | popped ho =>
    have hopen := hs.point.1
    exact ⟨hs.ledger.congr (by simp), hopen, Connection.not_closed hopen⟩
  | sentSome hlt hp => exact ⟨hs.ledger.congr (by simp [Event.quiet]), hs.point, hclosed⟩
  | sendFailed hlt => exact ⟨hs.ledger.congr (by simp [Event.quiet]), hs.point, hclosed⟩
  | sentAll hle => exact ⟨hs.ledger.congr (by simp), trivial, hclosed⟩
  | broken hv =>
    obtain ⟨promises, rfl, -, hl⟩ := hs.ledger.of_closeStep hv
    exact ⟨hl, trivial, fun _ => ⟨rfl, rfl⟩⟩

/-- Every step of a connection keeps its invariant. -/
theorem Sound.step {h es : List Event} {v v' : View} {a : Action} (hs : Sound h v)
    (hstep : View.step v a = some (v', es)) : Sound (h ++ es) v' := by
  cases ViewStep.of_step hstep with
  | sendRequest hp => exact hs.sendRequest _
  | io hio => exact hs.ioStep hio
  | enter => exact ⟨hs.ledger.congr (by simp), trivial, hs.closed⟩
  | leave => exact ⟨hs.ledger.congr (by simp), trivial, hs.closed⟩

theorem Sound.run {allowed : View → Action → Prop} {h₀ h : List Event} {v w : View}
    (hs : Sound h₀ v) (hrun : Run View.step allowed v h w) : Sound (h₀ ++ h) w :=
  hrun.invariant (I := fun h w => Sound (h₀ ++ h) w) (by simpa using hs)
    fun hI _ hstep => by rw [← List.append_assoc]; exact hI.step hstep

/-- What every step keeps of a connection with its invariant holds after every run. -/
theorem Sound.invariant {allowed : View → Action → Prop} {I : View → Prop} {h₀ h : List Event}
    {v w : View} (hs : Sound h₀ v) (hrun : Run View.step allowed v h w) (hv : I v)
    (hstep : ∀ {k v a v' es}, Sound k v → I v → allowed v a → View.step v a = some (v', es) →
      I v') : I w := by
  have hboth : Sound (h₀ ++ h) w ∧ I w := by
    apply hrun.invariant (I := fun h w => Sound (h₀ ++ h) w ∧ I w)
    · exact ⟨by rwa [List.append_nil], hv⟩
    · intro h v v' a es hI ha hnext
      rw [← List.append_assoc]
      exact ⟨hI.1.step hnext, hstep hI.1 hI.2 ha hnext⟩
  exact hboth.2

/-- The invariant holds of each connection in every run of the client. -/
theorem Client.sound {n : ℕ} {allowed : Client n → ClientAction n → Prop}
    {h : List (Fin n × Event)} {s : Client n}
    (hrun : Run processConnections allowed Client.init h s) (c : Fin n) :
    Sound (onPart c h) (s.parts c) := by
  simpa using Sound.init.run (Client.part_run hrun c)

/-- Every future is resolved exactly once or still waiting.  In every reachable state of every
connection, each returned future waits in `pending_` under the id of its request, or its promise
was satisfied once, by `set_value` or by `set_exception`; a satisfied promise is in `pending_`
only between `set_value` and `remove_request`; no promise is satisfied twice, for the attempt
would have thrown `future_error`; and a closed connection holds no request and owes no future. -/
theorem futures_resolved_once {n : ℕ} {h : List (Fin n × Event)} {s : Client n}
    (hrun : Run processConnections anyAction Client.init h s) (c : Fin n) :
    let conn := (s.parts c).conn
    (∀ p id payload, Event.issued p id payload ∈ onPart c h →
      (outcomesOf p (onPart c h) = [] ∧ Waiting conn.promises p ∧
        ∃ r, conn.pending.lookup id = some r ∧ r.promise = p) ∨
      (∃ reply, outcomesOf p (onPart c h) = [.value reply] ∧
        resultOf conn.promises p = some (.value reply)) ∨
      (∃ what, outcomesOf p (onPart c h) = [.exception what] ∧
        resultOf conn.promises p = some (.exception what))) ∧
    (∀ id r, conn.pending.lookup id = some r → resultOf conn.promises r.promise ≠ none →
      (s.parts c).phase = .removeRequest id) ∧
    (∀ fault, (s.parts c).phase ≠ .threw (.future fault)) ∧
    (conn.closed = true → conn.pending = ∅ ∧ conn.outgoing = [] ∧
      ∀ p id payload, Event.issued p id payload ∈ onPart c h →
        resultOf conn.promises p ≠ none) := by
  intro conn
  have hs := Client.sound hrun c
  have fate : ∀ p id payload, Event.issued p id payload ∈ onPart c h →
      resultOf conn.promises p = none → Waiting conn.promises p ∧
        ∃ r, conn.pending.lookup id = some r ∧ r.promise = p := by
    intro p id payload hmem hnone
    obtain ⟨hlt, huniq⟩ := hs.ledger.tickets hmem
    have hw : Waiting conn.promises p := ⟨hlt, hnone⟩
    obtain ⟨id', r, hr, hp⟩ := hs.ledger.waiting hw
    exact ⟨hw, r, huniq hr hp ▸ hr, hp⟩
  refine ⟨?_, ?_, ?_, ?_⟩
  · intro p id payload hmem
    have hout := hs.ledger.outcomes p
    change _ = (resultOf conn.promises p).toList at hout
    cases hres : resultOf conn.promises p with
    | none =>
      rw [hres] at hout
      exact .inl ⟨hout, fate p id payload hmem hres⟩
    | some outcome =>
      rw [hres] at hout
      cases outcome with
      | value reply => exact .inr (.inl ⟨reply, hout, rfl⟩)
      | exception what => exact .inr (.inr ⟨what, hout, rfl⟩)
  · intro id r hr hne
    by_contra hphase
    refine hne (hs.ledger.unsatisfied hr ?_)
    intro hserved
    cases hp : (s.parts c).phase <;> simp only [hp, Phase.served, reduceCtorEq] at hserved
    exact hphase (by rw [hp, Option.some.inj hserved])
  · intro fault hphase
    have hat := hs.point
    rw [hphase] at hat
    cases hat
  · intro hc
    obtain ⟨hpend, hout⟩ := hs.closed hc
    refine ⟨hpend, hout, ?_⟩
    intro p id payload hmem hnone
    obtain ⟨-, r, hr, -⟩ := fate p id payload hmem hnone
    rw [show conn.pending = ∅ from hpend] at hr
    simp at hr

/-- The connection breaks with one request waiting: its future gets the exception. -/
theorem futures_resolved_once_lost :
    ∃ (h : List (Fin 1 × Event)) (s : Client 1),
      Run processConnections anyAction Client.init h s ∧
      Event.issued 0 1 [104, 105] ∈ onPart 0 h ∧ (s.parts 0).conn.closed = true ∧
      resultOf (s.parts 0).conn.promises 0 ≠ none := by
  have hrun := Run.of_actions processConnections anyAction (Client.init (n := 1))
    [.part 0 (.sendRequest [104, 105]), .test, .part 0 (.io (.waitReadable true)),
      .part 0 (.io (.recv .failed)), .part 0 (.io .internal)] (by decide)
  refine ⟨_, _, hrun, by decide, by decide, ?_⟩
  exact ((futures_resolved_once hrun 0).2.2.2 (by decide)).2.2 0 1 [104, 105] (by decide)

end PromiseDemo
