import PromiseDemo.Framework.Transition
import PromiseDemo.Client.Connection

/-!
# One connection in the loop of `process_connections`

The body of the loop is cut at every point where another thread can run or the operating system
answers: each separately locked call, each socket call and each access to data of the I/O thread
alone is a step.  Between two of them any number of `send_request` calls can happen.
-/

namespace PromiseDemo

open Transition PromiseStore

/-- Program points of the loop body for one connection; `away` is outside of it. -/
inductive Phase
  | away
  /-- About to test for incoming data (`frame_ready`, `closed_`, `wait_readable`). -/
  | hasIncoming
  /-- The socket is readable, `recv_some` comes next. -/
  | receive
  /-- `recv_some` failed, `close_with_error("connection lost")` comes next. -/
  | closeRead
  | incoming
  | getRequest (data : DataPacket)
  | pushFrame (data : DataPacket)
  | setValue (id : UInt32)
  | removeRequest (id : UInt32)
  | hasOutgoing
  | popOutgoing
  /-- Inside `send_all(sock_, data)` with `sent` bytes accepted. -/
  | sending (data : Bytes) (sent : ℕ)
  /-- `send_all` failed, `close_with_error("send failed")` comes next. -/
  | closeWrite
  | done
  /-- An exception left the loop body, and with it the thread. -/
  | threw (e : StdException)
  deriving DecidableEq, Repr

/-- What the I/O thread does next: a step of its own, or a system call with its answer. -/
inductive IoOp
  | internal
  | waitReadable (ready : Bool)
  | recv (result : RecvResult)
  | send (result : SendResult)
  deriving DecidableEq, Repr

/-- What a step shows. -/
inductive Event
  /-- `send_request` appended a packet to `outgoing_`. -/
  | queued (packet : OutgoingPacket)
  /-- `send_request` returned the future of a promise. -/
  | issued (promise : ℕ) (id : UInt32) (payload : Bytes)
  /-- `send_request` threw. -/
  | rejected (e : StdException)
  | received (chunk : Bytes)
  | decoded (data : DataPacket)
  /-- `get_request` looked for the frame's id. -/
  | lookup (data : DataPacket)
  | satisfied (promise : ℕ) (outcome : Outcome)
  | sent (bytes : Bytes)
  | sendFailed
  /-- `close_with_error` ran. -/
  | closed (what : String)
  deriving DecidableEq, Repr

/-- A connection with the program point of the I/O thread in its loop body. -/
structure View where
  conn : Connection
  phase : Phase

/-- `send_request` by a user thread, and what it shows. -/
def Connection.sendEvents (c : Connection) (payload : Bytes) : List Event :=
  (if c.closed then [] else [.queued ⟨c.nextId, payload⟩]) ++
    match (c.sendRequest payload).2 with
    | .ok p => [.issued p c.nextId payload]
    | .error e => [.rejected e]

/-- `close_with_error(what)`, after which the loop body goes on at `next`. -/
def Connection.closeStep (c : Connection) (what : String) (next : Phase) : View × List Event :=
  let (c, ps, fault) := c.closeWithError what
  (⟨c, match fault with | none => next | some e => .threw e⟩,
    ps.map (Event.satisfied · (.exception what)) ++ [.closed what])

/-- `request.frames.push_back(data.payload)` through the reference into `pending_`, and the test
for `"END"`.  A reference to an erased entry has no defined behaviour. -/
def Connection.pushStep (c : Connection) (data : DataPacket) : Option (View × List Event) :=
  (c.getRequest data.id).map fun request =>
    (⟨c.updateRequest data.id { request with frames := request.frames ++ [data.payload] },
      if data.payload = endPayload then .setValue data.id else .hasOutgoing⟩, [])

/-- `request.promise.set_value(std::move(request.frames))`. -/
def Connection.setValueStep (c : Connection) (id : UInt32) : Option (View × List Event) :=
  (c.getRequest id).map fun request =>
    match satisfy c.promises request.promise (.value request.frames) with
    | .ok promises =>
        (⟨{ c with promises }.updateRequest id { request with frames := [] }, .removeRequest id⟩,
          [.satisfied request.promise (.value request.frames)])
    | .error fault => (⟨c, .threw (.future fault)⟩, [])

/-- The I/O thread's next step in the loop body. -/
def ioStep : StepFn View IoOp Event
  | ⟨c, .hasIncoming⟩, .internal =>
      if c.frameReady then some (⟨c, .incoming⟩, [])
      else if c.closed then some (⟨c, .hasOutgoing⟩, []) else none
  | ⟨c, .hasIncoming⟩, .waitReadable ready =>
      if c.frameReady || c.closed then none
      else some (⟨c, if ready then .receive else .hasOutgoing⟩, [])
  | ⟨c, .receive⟩, .recv result =>
      if result.possible then
        match result with
        | .data chunk =>
            let c := { c with readBuffer := c.readBuffer ++ chunk }
            some (⟨c, if c.frameReady then .incoming else .hasOutgoing⟩, [.received chunk])
        | .failed => some (⟨c, .closeRead⟩, [])
      else none
  | ⟨c, .closeRead⟩, .internal => some (c.closeStep "connection lost" .hasOutgoing)
  | ⟨c, .incoming⟩, .internal =>
      some (⟨c.incoming.1, .getRequest c.incoming.2⟩, [.decoded c.incoming.2])
  | ⟨c, .getRequest data⟩, .internal =>
      some (⟨c, if (c.getRequest data.id).isSome then .pushFrame data else .threw .outOfRange⟩,
        [.lookup data])
  | ⟨c, .pushFrame data⟩, .internal => c.pushStep data
  | ⟨c, .setValue id⟩, .internal => c.setValueStep id
  | ⟨c, .removeRequest id⟩, .internal => some (⟨c.removeRequest id, .hasOutgoing⟩, [])
  | ⟨c, .hasOutgoing⟩, .internal =>
      some (⟨c, if c.hasOutgoingData then .popOutgoing else .done⟩, [])
  | ⟨c, .popOutgoing⟩, .internal =>
      c.popOutgoing.map fun q => (⟨q.1, .sending (encodeFrame q.2.id q.2.payload) 0⟩, [])
  | ⟨c, .sending data sent⟩, .internal =>
      if sent < data.length then none else some (⟨c, .done⟩, [])
  | ⟨c, .sending data sent⟩, .send result =>
      if sent < data.length ∧ result.possible (data.length - sent) = true then
        match sendCall data sent result with
        | (bytes, some sent') => some (⟨c, .sending data sent'⟩, [.sent bytes])
        | (_, none) => some (⟨c, .closeWrite⟩, [.sendFailed])
      else none
  | ⟨c, .closeWrite⟩, .internal => some (c.closeStep "send failed" .done)
  | _, _ => none

/-- Everything that can happen to a connection: a user thread's `send_request`, a step of the
I/O thread, and the thread's arrival and departure. -/
inductive Action
  | sendRequest (payload : Bytes)
  | io (op : IoOp)
  | enter
  | leave
  deriving DecidableEq, Repr

def Phase.isThrew : Phase → Bool
  | .threw _ => true
  | _ => false

/-- The transition function of a connection.  An exception that leaves the I/O thread ends the
process, so nothing happens after it. -/
def View.step : StepFn View Action Event
  | v, .sendRequest payload =>
      if v.phase.isThrew then none
      else some (⟨(v.conn.sendRequest payload).1, v.phase⟩, v.conn.sendEvents payload)
  | v, .io op => ioStep v op
  | ⟨c, .away⟩, .enter => some (⟨c, .hasIncoming⟩, [])
  | ⟨c, .done⟩, .leave => some (⟨c, .away⟩, [])
  | _, _ => none

/-- A connection as its constructor leaves it. -/
def View.init : View := ⟨{}, .away⟩

/-! ## What one step can do -/

/-- The steps of the I/O thread, one constructor for each branch of the loop body. -/
inductive IoStep : View → IoOp → View → List Event → Prop
  | frameBuffered {c : Connection} (hf : c.frameReady = true) :
      IoStep ⟨c, .hasIncoming⟩ .internal ⟨c, .incoming⟩ []
  | closedIdle {c : Connection} (hf : c.frameReady = false) (hc : c.closed = true) :
      IoStep ⟨c, .hasIncoming⟩ .internal ⟨c, .hasOutgoing⟩ []
  | notReadable {c : Connection} (hf : c.frameReady = false) (hc : c.closed = false) :
      IoStep ⟨c, .hasIncoming⟩ (.waitReadable false) ⟨c, .hasOutgoing⟩ []
  | readable {c : Connection} (hf : c.frameReady = false) (hc : c.closed = false) :
      IoStep ⟨c, .hasIncoming⟩ (.waitReadable true) ⟨c, .receive⟩ []
  | received {c c' : Connection} {chunk : Bytes}
      (hp : (RecvResult.data chunk).possible = true)
      (hc : c' = { c with readBuffer := c.readBuffer ++ chunk }) :
      IoStep ⟨c, .receive⟩ (.recv (.data chunk))
        ⟨c', if c'.frameReady then .incoming else .hasOutgoing⟩ [.received chunk]
  | recvFailed {c : Connection} : IoStep ⟨c, .receive⟩ (.recv .failed) ⟨c, .closeRead⟩ []
  | lost {c : Connection} {v : View} {es : List Event}
      (h : c.closeStep "connection lost" .hasOutgoing = (v, es)) :
      IoStep ⟨c, .closeRead⟩ .internal v es
  | decoded {c c' : Connection} {data : DataPacket} (h : c.incoming = (c', data)) :
      IoStep ⟨c, .incoming⟩ .internal ⟨c', .getRequest data⟩ [.decoded data]
  | found {c : Connection} {data : DataPacket} {request : PendingRequest}
      (h : c.getRequest data.id = some request) :
      IoStep ⟨c, .getRequest data⟩ .internal ⟨c, .pushFrame data⟩ [.lookup data]
  | missing {c : Connection} {data : DataPacket} (h : c.getRequest data.id = none) :
      IoStep ⟨c, .getRequest data⟩ .internal ⟨c, .threw .outOfRange⟩ [.lookup data]
  | pushed {c : Connection} {data : DataPacket} {request : PendingRequest}
      (h : c.getRequest data.id = some request) :
      IoStep ⟨c, .pushFrame data⟩ .internal
        ⟨c.updateRequest data.id { request with frames := request.frames ++ [data.payload] },
          if data.payload = endPayload then .setValue data.id else .hasOutgoing⟩ []
  | valueSet {c : Connection} {id : UInt32} {request : PendingRequest} {promises : Store Outcome}
      (h : c.getRequest id = some request)
      (hs : satisfy c.promises request.promise (.value request.frames) = .ok promises) :
      IoStep ⟨c, .setValue id⟩ .internal
        ⟨{ c with promises }.updateRequest id { request with frames := [] }, .removeRequest id⟩
        [.satisfied request.promise (.value request.frames)]
  | valueFault {c : Connection} {id : UInt32} {request : PendingRequest} {fault : Fault}
      (h : c.getRequest id = some request)
      (hs : satisfy c.promises request.promise (.value request.frames) = .error fault) :
      IoStep ⟨c, .setValue id⟩ .internal ⟨c, .threw (.future fault)⟩ []
  | removed {c : Connection} {id : UInt32} :
      IoStep ⟨c, .removeRequest id⟩ .internal ⟨c.removeRequest id, .hasOutgoing⟩ []
  | someOutgoing {c : Connection} (h : c.hasOutgoingData = true) :
      IoStep ⟨c, .hasOutgoing⟩ .internal ⟨c, .popOutgoing⟩ []
  | noOutgoing {c : Connection} (h : c.hasOutgoingData = false) :
      IoStep ⟨c, .hasOutgoing⟩ .internal ⟨c, .done⟩ []
  | popped {c : Connection} {packet : OutgoingPacket} {rest : List OutgoingPacket}
      (h : c.outgoing = packet :: rest) :
      IoStep ⟨c, .popOutgoing⟩ .internal
        ⟨{ c with outgoing := rest }, .sending (encodeFrame packet.id packet.payload) 0⟩ []
  | sentSome {c : Connection} {data : Bytes} {sent n : ℕ} (hs : sent < data.length)
      (hp : (SendResult.accepted n).possible (data.length - sent) = true) :
      IoStep ⟨c, .sending data sent⟩ (.send (.accepted n)) ⟨c, .sending data (sent + n)⟩
        [.sent ((data.drop sent).take n)]
  | sendFailed {c : Connection} {data : Bytes} {sent : ℕ} (hs : sent < data.length) :
      IoStep ⟨c, .sending data sent⟩ (.send .failed) ⟨c, .closeWrite⟩ [.sendFailed]
  | sentAll {c : Connection} {data : Bytes} {sent : ℕ} (hs : data.length ≤ sent) :
      IoStep ⟨c, .sending data sent⟩ .internal ⟨c, .done⟩ []
  | broken {c : Connection} {v : View} {es : List Event}
      (h : c.closeStep "send failed" .done = (v, es)) : IoStep ⟨c, .closeWrite⟩ .internal v es

theorem ioStep_iff {v v' : View} {op : IoOp} {es : List Event} :
    ioStep v op = some (v', es) ↔ IoStep v op v' es := by
  constructor
  · intro h
    obtain ⟨c, phase⟩ := v
    cases phase <;> cases op <;> simp only [ioStep, reduceCtorEq] at h
    case hasIncoming.internal =>
      split at h
      · cases h; exact .frameBuffered ‹_›
      · split at h
        · cases h; exact .closedIdle (by simpa using ‹¬c.frameReady = true›) ‹_›
        · cases h
    case hasIncoming.waitReadable ready =>
      split at h
      · cases h
      · rename_i hn
        simp only [Bool.or_eq_true, not_or, Bool.not_eq_true] at hn
        cases h
        cases ready
        · exact .notReadable hn.1 hn.2
        · exact .readable hn.1 hn.2
    case receive.recv result =>
      split at h
      · cases result with
        | data chunk => cases h; exact .received ‹_› rfl
        | failed => cases h; exact .recvFailed
      · cases h
    case closeRead.internal => exact .lost (Option.some.inj h)
    case incoming.internal => cases h; exact .decoded rfl
    case getRequest.internal data =>
      cases h
      cases hr : c.getRequest data.id with
      | none => exact .missing hr
      | some request => exact .found hr
    case pushFrame.internal data =>
      obtain ⟨request, hr, hv⟩ := Option.map_eq_some_iff.mp h
      cases hv
      exact .pushed hr
    case setValue.internal id =>
      obtain ⟨request, hr, hv⟩ := Option.map_eq_some_iff.mp h
      split at hv
      · cases hv; exact .valueSet hr ‹_›
      · cases hv; exact .valueFault hr ‹_›
    case removeRequest.internal => cases h; exact .removed
    case hasOutgoing.internal =>
      cases h
      cases ho : c.hasOutgoingData with
      | true => exact .someOutgoing ho
      | false => exact .noOutgoing ho
    case popOutgoing.internal =>
      obtain ⟨q, hq, hv⟩ := Option.map_eq_some_iff.mp h
      rw [Connection.popOutgoing] at hq
      split at hq
      · cases hq
      · cases hq; cases hv; exact .popped ‹_›
    case sending.internal data sent =>
      split at h
      · cases h
      · cases h; exact .sentAll (by omega)
    case sending.send data sent result =>
      split at h
      · rename_i hc
        cases result with
        | accepted n => cases h; exact .sentSome hc.1 hc.2
        | failed => cases h; exact .sendFailed hc.1
      · cases h
    case closeWrite.internal => exact .broken (Option.some.inj h)
  · intro h
    cases h with
    | frameBuffered hf => simp [ioStep, hf]
    | closedIdle hf hc => simp [ioStep, hf, hc]
    | notReadable hf hc => simp [ioStep, hf, hc]
    | readable hf hc => simp [ioStep, hf, hc]
    | received hp hc => subst hc; simp [ioStep, hp]
    | recvFailed => rfl
    | lost h => exact congrArg some h
    | decoded h => simp [ioStep, h]
    | found h => simp [ioStep, h]
    | missing h => simp [ioStep, h]
    | pushed h => simp [ioStep, Connection.pushStep, h]
    | valueSet h hs => simp [ioStep, Connection.setValueStep, h, hs]
    | valueFault h hs => simp [ioStep, Connection.setValueStep, h, hs]
    | removed => rfl
    | someOutgoing h => simp [ioStep, h]
    | noOutgoing h => simp [ioStep, h]
    | popped h => simp [ioStep, Connection.popOutgoing, h]
    | sentSome hs hp => simp [ioStep, hs, hp, sendCall]
    | sendFailed hs => simp [ioStep, hs, sendCall, SendResult.possible]
    | sentAll hs => simp [ioStep, Nat.not_lt.mpr hs]
    | broken h => exact congrArg some h

/-- The steps of a connection. -/
inductive ViewStep : View → Action → View → List Event → Prop
  | sendRequest {v : View} {payload : Bytes} (hp : v.phase.isThrew = false) :
      ViewStep v (.sendRequest payload) ⟨(v.conn.sendRequest payload).1, v.phase⟩
        (v.conn.sendEvents payload)
  | io {v v' : View} {op : IoOp} {es : List Event} (h : IoStep v op v' es) :
      ViewStep v (.io op) v' es
  | enter {c : Connection} : ViewStep ⟨c, .away⟩ .enter ⟨c, .hasIncoming⟩ []
  | leave {c : Connection} : ViewStep ⟨c, .done⟩ .leave ⟨c, .away⟩ []

theorem ViewStep.of_step {v v' : View} {a : Action} {es : List Event}
    (h : View.step v a = some (v', es)) : ViewStep v a v' es := by
  obtain ⟨c, phase⟩ := v
  cases a with
  | sendRequest payload =>
    simp only [View.step, Option.ite_none_left_eq_some, Bool.not_eq_true] at h
    obtain ⟨hp, h⟩ := h
    cases h
    exact .sendRequest hp
  | io op => exact .io (ioStep_iff.mp h)
  | enter =>
    cases phase <;> simp only [View.step, reduceCtorEq] at h
    cases h
    exact .enter
  | leave =>
    cases phase <;> simp only [View.step, reduceCtorEq] at h
    cases h
    exact .leave

theorem View.step_sendRequest {v v' : View} {payload : Bytes} {es : List Event} :
    View.step v (.sendRequest payload) = some (v', es) ↔
      v.phase.isThrew = false ∧ v' = ⟨(v.conn.sendRequest payload).1, v.phase⟩ ∧
        es = v.conn.sendEvents payload := by
  rw [View.step, Option.ite_none_left_eq_some, Bool.not_eq_true, Option.some.injEq,
    Prod.mk.injEq, eq_comm (b := v'), eq_comm (b := es)]

theorem View.step_enter {v v' : View} {es : List Event} :
    View.step v .enter = some (v', es) ↔ v.phase = .away ∧ v' = ⟨v.conn, .hasIncoming⟩ ∧ es = [] := by
  obtain ⟨c, phase⟩ := v
  cases phase <;> simp [View.step, eq_comm]

theorem View.step_leave {v v' : View} {es : List Event} :
    View.step v .leave = some (v', es) ↔ v.phase = .done ∧ v' = ⟨v.conn, .away⟩ ∧ es = [] := by
  obtain ⟨c, phase⟩ := v
  cases phase <;> simp [View.step, eq_comm]

theorem mem_sendEvents {c : Connection} {payload : Bytes} {e : Event}
    (he : e ∈ c.sendEvents payload) :
    (c.closed = false ∧ e = .queued ⟨c.nextId, payload⟩) ∨
      (∃ p, e = .issued p c.nextId payload) ∨ ∃ x, e = .rejected x := by
  rw [Connection.sendEvents, List.mem_append] at he
  rcases he with he | he
  · cases hc : c.closed with
    | true => simp [hc] at he
    | false => exact .inl ⟨rfl, by simpa [hc] using he⟩
  · split at he
    · exact .inr (.inl ⟨_, List.mem_singleton.mp he⟩)
    · exact .inr (.inr ⟨_, List.mem_singleton.mp he⟩)

theorem Connection.mem_closeStep {c : Connection} {what : String} {next : Phase} {v : View}
    {es : List Event} (hv : c.closeStep what next = (v, es)) {e : Event} (he : e ∈ es) :
    (∃ p, e = .satisfied p (.exception what)) ∨ e = .closed what := by
  rw [← (Prod.mk.inj hv).2] at he
  rcases List.mem_append.mp he with he | he
  · obtain ⟨p, -, rfl⟩ := List.mem_map.mp he
    exact .inl ⟨p, rfl⟩
  · exact .inr (List.mem_singleton.mp he)

theorem Connection.flatMap_closeStep {β : Type*} {f : Event → List β}
    (hsatisfied : ∀ p o, f (.satisfied p o) = []) (hclosed : ∀ what, f (.closed what) = [])
    {c : Connection} {what : String} {next : Phase} {v : View} {es : List Event}
    (hv : c.closeStep what next = (v, es)) : es.flatMap f = [] := by
  rw [List.flatMap_eq_nil_iff]
  intro e he
  rcases Connection.mem_closeStep hv he with ⟨p, rfl⟩ | rfl
  · exact hsatisfied p _
  · exact hclosed what

theorem Connection.flatMap_sendEvents {β : Type*} {f : Event → List β}
    (hqueued : ∀ packet, f (.queued packet) = []) (hissued : ∀ p id payload, f (.issued p id payload) = [])
    (hrejected : ∀ e, f (.rejected e) = []) (c : Connection) (payload : Bytes) :
    (c.sendEvents payload).flatMap f = [] := by
  rw [List.flatMap_eq_nil_iff]
  intro e he
  rcases mem_sendEvents he with ⟨-, rfl⟩ | ⟨p, rfl⟩ | ⟨x, rfl⟩
  · exact hqueued _
  · exact hissued p _ _
  · exact hrejected x

theorem Connection.closeStep_closed {c : Connection} {what : String} {next : Phase} {v : View}
    {es : List Event} (hv : c.closeStep what next = (v, es)) : v.conn.closed = true := by
  rw [← (Prod.mk.inj hv).1]
  dsimp only
  split <;> rfl

theorem Connection.closeStep_phase (c : Connection) (what : String) (next : Phase) :
    (c.closeStep what next).1.phase = next ∨ ∃ e, (c.closeStep what next).1.phase = .threw e := by
  simp only [Connection.closeStep]
  cases (c.closeWithError what).2.2 with
  | none => exact .inl rfl
  | some e => exact .inr ⟨e, rfl⟩

theorem Connection.closeStep_next {c : Connection} {what : String} {next phase : Phase} {v : View}
    {es : List Event} (hv : c.closeStep what next = (v, es)) (hphase : v.phase = phase)
    (hthrew : phase.isThrew = false) : next = phase := by
  rcases c.closeStep_phase what next with hp | ⟨e, hp⟩ <;> rw [hv, hphase] at hp
  · exact hp.symm
  · rw [hp] at hthrew
    cases hthrew

/-- The steps of the I/O thread stay inside the loop body. -/
theorem IoStep.phase_ne_away {v v' : View} {op : IoOp} {es : List Event} (h : IoStep v op v' es) :
    v.phase ≠ .away ∧ v'.phase ≠ .away := by
  cases h with
  | @lost c v es hc =>
    rcases c.closeStep_phase "connection lost" .hasOutgoing with h | ⟨e, h⟩ <;>
      simp only [hc] at h <;> simp [h]
  | @broken c v es hc =>
    rcases c.closeStep_phase "send failed" .done with h | ⟨e, h⟩ <;>
      simp only [hc] at h <;> simp [h]
  | received hp hc => refine ⟨by simp, ?_⟩; dsimp only; split <;> simp
  | pushed h => refine ⟨by simp, ?_⟩; dsimp only; split <;> simp
  | _ => exact ⟨by simp, by simp⟩

end PromiseDemo
