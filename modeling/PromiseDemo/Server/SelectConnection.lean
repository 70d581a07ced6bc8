import PromiseDemo.Server.Protocol

/-!
# One connection in the loop of `promise_server`

The body of the loop over `connections`, cut at every answer of the operating system and at
every evaluation of the loop test.  When the thread comes to this connection is left open; while
it is inside the loop body of one connection it serves no other.
-/

namespace PromiseDemo

open Transition PrefixCode

inductive SelectPhase
  /-- The thread is not at this connection. -/
  | elsewhere
  /-- `FD_ISSET` was true, `recv_some` comes next. -/
  | recv
  /-- At the loop test `try_decode_frame(read_buffer, id, request)`. -/
  | drain
  /-- Inside `send_all` of the echo with `sent` bytes accepted. -/
  | echo (request : Frame) (sent : ℕ)
  /-- Inside `send_all` of the `"END"` frame. -/
  | finish (request : Frame) (sent : ℕ)
  /-- The socket is closed and the connection erased. -/
  | erased
  deriving DecidableEq, Repr

/-- A `client_connection`. -/
structure SelectConnection where
  readBuffer : Bytes := []
  phase : SelectPhase := .elsewhere

inductive SelectAction
  /-- The thread comes to the connection; `ready` is `FD_ISSET`. -/
  | visit (ready : Bool)
  | recv (result : RecvResult)
  | internal
  | send (result : SendResult)
  deriving DecidableEq, Repr

/-- `encode_frame(id, request)` -/
def echoFrame (request : Frame) : Bytes := encodeFrame request.id request.payload

/-- `encode_frame(id, "END")` -/
def endFrame (request : Frame) : Bytes := encodeFrame request.id endPayload

/-- One `::send` inside `send_all(sock, data)`, whose result the caller ignores: `next` follows a
failure as it follows success. -/
def SelectConnection.sendStep (c : SelectConnection) (data : Bytes) (sent : ℕ)
    (again : ℕ → SelectPhase) (next : SelectPhase) (result : SendResult) :
    Option (SelectConnection × List ServerEvent) :=
  if sent < data.length ∧ result.possible (data.length - sent) = true then
    match sendCall data sent result with
    | (bytes, some sent') => some ({ c with phase := again sent' }, [.sent bytes])
    | (_, none) => some ({ c with phase := next }, [.writeFailed])
  else none

/-- The transition function of a connection of `promise_server`. -/
def SelectConnection.step : StepFn SelectConnection SelectAction ServerEvent
  | ⟨buffer, .elsewhere⟩, .visit ready => some (⟨buffer, if ready then .recv else .drain⟩, [])
  | ⟨buffer, .recv⟩, .recv result =>
      if result.possible then
        match result with
        | .data chunk => some (⟨buffer ++ chunk, .drain⟩, [.received chunk])
        | .failed => some (⟨buffer, .erased⟩, [.disconnected])
      else none
  | ⟨buffer, .drain⟩, .internal =>
      match nextFrame buffer with
      | some (request, rest) => some (⟨rest, .echo request 0⟩, [.decoded request])
      | none => some (⟨buffer, .elsewhere⟩, [])
  | ⟨buffer, .echo request sent⟩, .internal =>
      if sent < (echoFrame request).length then none
      else some (⟨buffer, .finish request 0⟩, [])
  | ⟨buffer, .echo request sent⟩, .send result =>
      SelectConnection.sendStep ⟨buffer, .echo request sent⟩ (echoFrame request) sent
        (.echo request) (.finish request 0) result
  | ⟨buffer, .finish request sent⟩, .internal =>
      if sent < (endFrame request).length then none else some (⟨buffer, .drain⟩, [])
  | ⟨buffer, .finish request sent⟩, .send result =>
      SelectConnection.sendStep ⟨buffer, .finish request sent⟩ (endFrame request) sent
        (.finish request) .drain result
  | _, _ => none

/-! ## What one step can do -/

inductive SelectStep : SelectConnection → SelectAction → SelectConnection → List ServerEvent → Prop
  | visited {buffer : Bytes} {ready : Bool} :
      SelectStep ⟨buffer, .elsewhere⟩ (.visit ready) ⟨buffer, if ready then .recv else .drain⟩ []
  | received {buffer chunk : Bytes} (hp : (RecvResult.data chunk).possible = true) :
      SelectStep ⟨buffer, .recv⟩ (.recv (.data chunk)) ⟨buffer ++ chunk, .drain⟩ [.received chunk]
  | disconnected {buffer : Bytes} :
      SelectStep ⟨buffer, .recv⟩ (.recv .failed) ⟨buffer, .erased⟩ [.disconnected]
  | decoded {buffer rest : Bytes} {request : Frame}
      (hn : nextFrame buffer = some (request, rest)) :
      SelectStep ⟨buffer, .drain⟩ .internal ⟨rest, .echo request 0⟩ [.decoded request]
  | drained {buffer : Bytes} (hn : nextFrame buffer = none) :
      SelectStep ⟨buffer, .drain⟩ .internal ⟨buffer, .elsewhere⟩ []
  | echoed {buffer : Bytes} {request : Frame} {sent : ℕ}
      (hs : (echoFrame request).length ≤ sent) :
      SelectStep ⟨buffer, .echo request sent⟩ .internal ⟨buffer, .finish request 0⟩ []
  | echoSome {buffer : Bytes} {request : Frame} {sent n : ℕ}
      (hs : sent < (echoFrame request).length)
      (hp : (SendResult.accepted n).possible ((echoFrame request).length - sent) = true) :
      SelectStep ⟨buffer, .echo request sent⟩ (.send (.accepted n))
        ⟨buffer, .echo request (sent + n)⟩ [.sent (((echoFrame request).drop sent).take n)]
  | echoFailed {buffer : Bytes} {request : Frame} {sent : ℕ}
      (hs : sent < (echoFrame request).length) :
      SelectStep ⟨buffer, .echo request sent⟩ (.send .failed) ⟨buffer, .finish request 0⟩
        [.writeFailed]
  | finished {buffer : Bytes} {request : Frame} {sent : ℕ}
      (hs : (endFrame request).length ≤ sent) :
      SelectStep ⟨buffer, .finish request sent⟩ .internal ⟨buffer, .drain⟩ []
  | finishSome {buffer : Bytes} {request : Frame} {sent n : ℕ}
      (hs : sent < (endFrame request).length)
      (hp : (SendResult.accepted n).possible ((endFrame request).length - sent) = true) :
      SelectStep ⟨buffer, .finish request sent⟩ (.send (.accepted n))
        ⟨buffer, .finish request (sent + n)⟩ [.sent (((endFrame request).drop sent).take n)]
  | finishFailed {buffer : Bytes} {request : Frame} {sent : ℕ}
      (hs : sent < (endFrame request).length) :
      SelectStep ⟨buffer, .finish request sent⟩ (.send .failed) ⟨buffer, .drain⟩ [.writeFailed]

theorem SelectStep.of_step {c d : SelectConnection} {a : SelectAction} {es : List ServerEvent}
    (h : c.step a = some (d, es)) : SelectStep c a d es := by
  obtain ⟨buffer, phase⟩ := c
  cases phase <;> cases a <;> simp only [SelectConnection.step, reduceCtorEq] at h
  case elsewhere.visit ready => cases h; exact .visited
  case recv.recv result =>
    split at h
    · cases result with
      | data chunk => cases h; exact .received ‹_›
      | failed => cases h; exact .disconnected
    · cases h
  case drain.internal =>
    split at h
    · cases h; exact .decoded ‹_›
    · cases h; exact .drained ‹_›
  case echo.internal request sent =>
    split at h
    · cases h
    · cases h; exact .echoed (by omega)
  case echo.send request sent result =>
    rw [SelectConnection.sendStep] at h
    split at h
    · rename_i hc
      cases result with
      | accepted n => cases h; exact .echoSome hc.1 hc.2
      | failed => cases h; exact .echoFailed hc.1
    · cases h
  case finish.internal request sent =>
    split at h
    · cases h
    · cases h; exact .finished (by omega)
  case finish.send request sent result =>
    rw [SelectConnection.sendStep] at h
    split at h
    · rename_i hc
      cases result with
      | accepted n => cases h; exact .finishSome hc.1 hc.2
      | failed => cases h; exact .finishFailed hc.1
    · cases h

/-! ## The streams -/

/-- What is still to be sent of the reply in progress. -/
def SelectConnection.owed (c : SelectConnection) : Bytes :=
  match c.phase with
  | .echo request sent => (echoFrame request).drop sent ++ endFrame request
  | .finish request sent => (endFrame request).drop sent
  | _ => []

/-- The streams of a connection after history `h`. -/
structure Echoing (h : List ServerEvent) (c : SelectConnection) : Prop where
  inflow : frameCode.Reassembled (receivedBytes h) (requestsOf h) c.readBuffer
  exact : .writeFailed ∉ h → sentBytes h ++ c.owed = replies (requestsOf h)

theorem Echoing.start : Echoing [] ({} : SelectConnection) where
  inflow := .nil
  exact _ := rfl

theorem Echoing.step {h es : List ServerEvent} {c d : SelectConnection} {a : SelectAction}
    (he : Echoing h c) (hstep : SelectStep c a d es) : Echoing (h ++ es) d := by
  obtain ⟨hin, hex⟩ := he
  cases hstep with
  | visited =>
    refine ⟨by simpa using hin, fun hf => ?_⟩
    have hall := hex (by simpa using hf)
    rename_i ready
    cases ready <;> simpa [SelectConnection.owed] using hall
  | received hp =>
    refine ⟨by simpa using hin.receive _, fun hf => ?_⟩
    simpa [SelectConnection.owed] using hex (by simpa using hf)
  | disconnected =>
    refine ⟨by simpa using hin, fun hf => ?_⟩
    simpa [SelectConnection.owed] using hex (by simpa using hf)
  | decoded hn =>
    refine ⟨by simpa using hin.decode hn, fun hf => ?_⟩
    have hall := hex (by simpa using hf)
    simp only [SelectConnection.owed, List.append_nil] at hall
    simp [SelectConnection.owed, hall, reply, echoFrame, endFrame]
  | drained hn =>
    refine ⟨by simpa using hin, fun hf => ?_⟩
    simpa [SelectConnection.owed] using hex (by simpa using hf)
  | echoed hs =>
    refine ⟨by simpa using hin, fun hf => ?_⟩
    simpa [SelectConnection.owed, List.drop_of_length_le hs] using hex (by simpa using hf)
  | @echoSome buffer request sent n hs hp =>
    refine ⟨by simpa using hin, fun hf => ?_⟩
    have hall := hex (by simpa using hf)
    simp only [SelectConnection.owed] at hall
    simpa [SelectConnection.owed] using accepted_stream n hall
  | echoFailed hs => exact ⟨by simpa using hin, fun hf => absurd (by simp) hf⟩
  | finished hs =>
    refine ⟨by simpa using hin, fun hf => ?_⟩
    simpa [SelectConnection.owed, List.drop_of_length_le hs] using hex (by simpa using hf)
  | @finishSome buffer request sent n hs hp =>
    refine ⟨by simpa using hin, fun hf => ?_⟩
    have hall := hex (by simpa using hf)
    simp only [SelectConnection.owed] at hall
    rw [← List.append_nil (List.drop _ _)] at hall
    simpa [SelectConnection.owed] using accepted_stream n hall
  | finishFailed hs => exact ⟨by simpa using hin, fun hf => absurd (by simp) hf⟩

theorem Echoing.run {allowed : SelectConnection → SelectAction → Prop} {h : List ServerEvent}
    {c : SelectConnection} (hrun : Run SelectConnection.step allowed {} h c) : Echoing h c :=
  hrun.invariant (I := Echoing) .start fun he _ hs => he.step (SelectStep.of_step hs)

/-! ## Between two visits -/

/-- The thread is not inside the drain loop of the connection. -/
def SelectPhase.atRest : SelectPhase → Bool
  | .elsewhere | .recv | .erased => true
  | _ => false

/-- Outside of its drain loop a connection has no complete frame buffered. -/
def SelectConnection.Drained (c : SelectConnection) : Prop :=
  c.phase.atRest = true → nextFrame c.readBuffer = none

theorem SelectConnection.Drained.step {c d : SelectConnection} {a : SelectAction}
    {es : List ServerEvent} (hc : c.Drained) (hstep : SelectStep c a d es) : d.Drained := by
  cases hstep with
  | visited => exact fun _ => hc rfl
  | disconnected => exact fun _ => hc rfl
  | drained hn => exact fun _ => hn
  | _ => exact fun hrest => Bool.noConfusion hrest

theorem SelectConnection.Drained.run {allowed : SelectConnection → SelectAction → Prop}
    {h : List ServerEvent} {c : SelectConnection}
    (hrun : Run SelectConnection.step allowed {} h c) : c.Drained :=
  hrun.invariant (I := fun _ c => c.Drained) (fun _ => rfl)
    fun hc _ hs => hc.step (SelectStep.of_step hs)

theorem SelectConnection.owed_atRest {c : SelectConnection} (h : c.phase.atRest = true) :
    c.owed = [] := by
  obtain ⟨buffer, phase⟩ := c
  cases phase with
  | drain => cases h
  | echo request sent => cases h
  | finish request sent => cases h
  | _ => rfl

theorem SelectStep.erased {c d : SelectConnection} {a : SelectAction} {es : List ServerEvent}
    (hstep : SelectStep c a d es) : c.phase ≠ .erased ∧
      (d.phase = .erased ↔ .disconnected ∈ es) ∧ (d.phase = .erased → c.phase = .recv) := by
  cases hstep with
  | @visited buffer ready => cases ready <;> simp
  | disconnected => simp
  | _ => simp

theorem SelectConnection.disconnected_iff {allowed : SelectConnection → SelectAction → Prop}
    {h : List ServerEvent} {c : SelectConnection}
    (hrun : Run SelectConnection.step allowed {} h c) : .disconnected ∈ h ↔ c.phase = .erased := by
  apply hrun.invariant (I := fun h c => .disconnected ∈ h ↔ c.phase = .erased)
  · simp
  · intro h c d a es hI _ hs
    obtain ⟨hold, hnew, -⟩ := (SelectStep.of_step hs).erased
    rw [List.mem_append, hI, hnew]
    exact or_iff_right hold

end PromiseDemo
