import PromiseDemo.Framework.PromiseStore
import PromiseDemo.Net.Socket
import Mathlib.Data.List.AList

/-!
# The client's connection

The members of `class connection` and its methods.  A method that holds `mutex_` for its whole
body is one function on the state; `std::unordered_map` is an association list without
duplicate keys, whose order the code never relies on.
-/

namespace PromiseDemo

open PromiseStore

/-- A frame received from the server. -/
abbrev DataPacket := Frame

/-- A request waiting to be sent. -/
abbrev OutgoingPacket := Frame

/-- All frames of one reply. -/
abbrev Reply := List Bytes

/-- What a promise of a reply is satisfied with. -/
inductive Outcome
  | value (reply : Reply)
  | exception (what : String)
  deriving DecidableEq, Repr

/-- The exceptions that the client's operations throw. -/
inductive StdException
  | outOfRange
  | future (fault : Fault)
  | runtimeError (what : String)
  deriving DecidableEq, Repr

/-- `promise` is the index of the promise in the connection's store of shared states. -/
structure PendingRequest where
  promise : ℕ
  frames : Reply := []
  deriving DecidableEq, Repr

abbrev PendingMap := AList fun _ : UInt32 => PendingRequest

structure Connection where
  readBuffer : Bytes := []
  pending : PendingMap := ∅
  outgoing : List OutgoingPacket := []
  nextId : UInt32 := 1
  closed : Bool := false
  /-- The shared states of all promises created by this connection. -/
  promises : Store Outcome := []

namespace Connection

/-- `frame_ready`, with the same 32-bit sum as `try_decode_frame`. -/
def frameReady (c : Connection) : Bool :=
  8 ≤ c.readBuffer.length && (8 + getU32 c.readBuffer 4).toNat ≤ c.readBuffer.length

/-- `pending_[id]`: the entry under `id`, created with a fresh promise if there is none. -/
def pendingAt (c : Connection) (id : UInt32) : Connection × PendingRequest :=
  match c.pending.lookup id with
  | some request => (c, request)
  | none =>
      let request : PendingRequest := { promise := c.promises.length }
      ({ c with promises := create c.promises, pending := c.pending.insert id request }, request)

/-- `send_request`.  The id is drawn and the packet queued before `get_future` can throw; on
success the future is named by its promise. -/
def sendRequest (c : Connection) (payload : Bytes) : Connection × Except StdException ℕ :=
  if c.closed then (c, .error (.runtimeError "connection is closed"))
  else
    let id := c.nextId
    let c : Connection :=
      { c with nextId := c.nextId + 1, outgoing := c.outgoing ++ [⟨id, payload⟩] }
    let (c, request) := c.pendingAt id
    match getFuture c.promises request.promise with
    | .error fault => (c, .error (.future fault))
    | .ok promises => ({ c with promises }, .ok request.promise)

/-- `incoming`: the packet stays value-initialised if nothing decodes. -/
def incoming (c : Connection) : Connection × DataPacket :=
  let args := (tryDecodeFrame { buffer := c.readBuffer, id := 0, payload := [] }).2
  ({ c with readBuffer := args.buffer }, ⟨args.id, args.payload⟩)

/-- `pending_.at(id)`; `none` is the exception `std::out_of_range`. -/
def getRequest (c : Connection) (id : UInt32) : Option PendingRequest := c.pending.lookup id

/-- Write through the reference returned by `get_request`. -/
def updateRequest (c : Connection) (id : UInt32) (request : PendingRequest) : Connection :=
  { c with pending := c.pending.insert id request }

def removeRequest (c : Connection) (id : UInt32) : Connection :=
  { c with pending := c.pending.erase id }

def hasOutgoingData (c : Connection) : Bool := !c.closed && !c.outgoing.isEmpty

/-- `pop_outgoing`; `front()` of an empty deque has no defined behaviour. -/
def popOutgoing (c : Connection) : Option (Connection × OutgoingPacket) :=
  match c.outgoing with
  | [] => none
  | packet :: rest => some ({ c with outgoing := rest }, packet)

/-- The promises that wait in `pending_`. -/
def pendingPromises (c : Connection) : List ℕ := c.pending.entries.map fun e => e.2.promise

/-- `close_with_error`, with the promises whose `set_exception` succeeded; a fault there leaves
the function before the maps are cleared. -/
def closeWithError (c : Connection) (what : String) :
    Connection × List ℕ × Option StdException :=
  match satisfyAll c.promises c.pendingPromises (.exception what) with
  | (promises, ps, none) =>
      ({ c with closed := true, promises, pending := ∅, outgoing := [] }, ps, none)
  | (promises, ps, some fault) => ({ c with closed := true, promises }, ps, some (.future fault))

theorem not_closed {c : Connection} {p : Prop} (hopen : c.closed = false) (hc : c.closed = true) :
    p := by
  rw [hopen] at hc
  cases hc

/-! ## What `send_request` does to the rest of the connection -/

theorem pendingAt_fst (c : Connection) (id : UInt32) :
    ∃ pending promises, (c.pendingAt id).1 = { c with pending, promises } := by
  rw [pendingAt]
  split
  · exact ⟨c.pending, c.promises, rfl⟩
  · exact ⟨_, _, rfl⟩

theorem sendRequest_fst (c : Connection) (payload : Bytes) : ∃ pending promises,
    (c.sendRequest payload).1 =
      if c.closed then c
      else { c with
        nextId := c.nextId + 1
        outgoing := c.outgoing ++ [⟨c.nextId, payload⟩]
        pending, promises } := by
  rw [sendRequest]
  split
  · exact ⟨c.pending, c.promises, rfl⟩
  · obtain ⟨pending, promises, hp⟩ := pendingAt_fst
      { c with nextId := c.nextId + 1, outgoing := c.outgoing ++ [⟨c.nextId, payload⟩] } c.nextId
    dsimp only
    split
    · exact ⟨pending, promises, hp⟩
    · exact ⟨pending, _, by rw [hp]⟩

@[simp] theorem sendRequest_readBuffer (c : Connection) (payload : Bytes) :
    (c.sendRequest payload).1.readBuffer = c.readBuffer := by
  obtain ⟨pending, promises, h⟩ := c.sendRequest_fst payload
  rw [h]
  split <;> rfl

@[simp] theorem sendRequest_closed (c : Connection) (payload : Bytes) :
    (c.sendRequest payload).1.closed = c.closed := by
  obtain ⟨pending, promises, h⟩ := c.sendRequest_fst payload
  rw [h]
  split <;> rfl

@[simp] theorem sendRequest_frameReady (c : Connection) (payload : Bytes) :
    (c.sendRequest payload).1.frameReady = c.frameReady := by
  simp only [frameReady, sendRequest_readBuffer]

theorem sendRequest_nextId (c : Connection) (payload : Bytes) :
    (c.sendRequest payload).1.nextId = if c.closed then c.nextId else c.nextId + 1 := by
  obtain ⟨pending, promises, h⟩ := c.sendRequest_fst payload
  rw [h]
  split <;> rfl

theorem sendRequest_outgoing (c : Connection) (payload : Bytes) :
    (c.sendRequest payload).1.outgoing =
      if c.closed then c.outgoing else c.outgoing ++ [⟨c.nextId, payload⟩] := by
  obtain ⟨pending, promises, h⟩ := c.sendRequest_fst payload
  rw [h]
  split <;> rfl

/-! ## Framing seen from the connection -/

theorem frameReady_iff (c : Connection) :
    c.frameReady = true ↔ ∃ f r, nextFrame c.readBuffer = some (f, r) := by
  rw [frameReady, nextFrame_eq, Bool.and_eq_true, decide_eq_true_eq, decide_eq_true_eq]
  split
  · exact iff_of_true ‹_› ⟨_, _, rfl⟩
  · exact iff_of_false ‹_› (by rintro ⟨f, r, h⟩; cases h)

theorem frameReady_eq_false (c : Connection) :
    c.frameReady = false ↔ nextFrame c.readBuffer = none := by
  rw [← Bool.not_eq_true, frameReady_iff]
  cases nextFrame c.readBuffer with
  | none => simp
  | some q => simp only [Option.some.injEq, reduceCtorEq, iff_false, not_not]; exact ⟨q.1, q.2, rfl⟩

theorem incoming_of_nextFrame {c : Connection} {f : Frame} {r : Bytes}
    (h : nextFrame c.readBuffer = some (f, r)) : c.incoming = ({ c with readBuffer := r }, f) := by
  rw [nextFrame_eq_some] at h
  simp [incoming, h]

end Connection

end PromiseDemo
