import PromiseDemo.Server.Protocol

/-!
# A session of `promise_server_asio`

The state of a session is its members together with its asynchronous operations.  An operation
is outstanding until it completes; its handler then waits for the strand.  Handlers of one
session exclude each other, but operations make progress while a handler runs.
-/

namespace PromiseDemo

open Transition

/-- An `async_read_some` into `chunk_` that has been started and whose handler has not begun. -/
inductive ReadOp
  | outstanding
  /-- Completed with a byte count, or with an error or eof. -/
  | completed (count : Option ℕ)
  deriving DecidableEq, Repr

/-- An `async_write` that has been started and whose handler has not run; `outcome` is its
completion. -/
structure WriteOp where
  data : Bytes
  sent : ℕ := 0
  outcome : Option Bool := none
  deriving DecidableEq, Repr

structure Session where
  chunk : Bytes := []
  readBuffer : Bytes := []
  writeQueue : List Bytes := []
  /-- The socket has not been closed by this side. -/
  isOpen : Bool := true
  reads : List ReadOp := []
  writes : List WriteOp := []
  /-- The read handler is running. -/
  running : Bool := false

namespace Session

/-- `do_read` -/
def doRead (s : Session) : Session := { s with reads := s.reads ++ [.outstanding] }

/-- `start` -/
def start : Session := doRead {}

/-- `do_write`; `front()` of an empty queue has no defined behaviour. -/
def doWrite (s : Session) : Option (Session × List ServerEvent) :=
  match s.writeQueue with
  | [] => none
  | front :: _ => some ({ s with writes := s.writes ++ [{ data := front }] }, [.started front])

/-- `queue_write` -/
def queueWrite (s : Session) (data : Bytes) : Option (Session × List ServerEvent) :=
  let idle := s.writeQueue.isEmpty
  let s := { s with writeQueue := s.writeQueue ++ [data] }
  if idle then s.doWrite else some (s, [])

/-- The handler of a read after its test of `ec`: `read_buffer_.append(chunk_.data(), n)`. -/
def handleRead (s : Session) : Option ℕ → Session
  | some n => { s with readBuffer := s.readBuffer ++ s.chunk.take n, running := true }
  | none => s

/-- One evaluation of the loop test in the read handler, with the loop body or what follows the
loop. -/
def drain (s : Session) : Option (Session × List ServerEvent) :=
  match nextFrame s.readBuffer with
  | some (request, rest) =>
      (queueWrite { s with readBuffer := rest } (reply request)).map fun (s, es) =>
        (s, .decoded request :: es)
  | none => some ({ s.doRead with running := false }, [])

/-- The handler of a write; `pop_front()` on an empty queue has no defined behaviour. -/
def handleWrite (s : Session) : Bool → Option (Session × List ServerEvent)
  | true =>
      match s.writeQueue with
      | [] => none
      | _ :: rest =>
          let s := { s with writeQueue := rest }
          if rest.isEmpty then some (s, []) else s.doWrite
  | false => some ({ s with isOpen := false }, [])

end Session

/-- The operations are numbered in the order in which they were started. -/
inductive SessionAction
  /-- The operating system completes a read. -/
  | readCompletes (k : ℕ) (result : RecvResult)
  /-- The strand runs the handler of a read. -/
  | runRead (k : ℕ)
  /-- The running read handler goes on. -/
  | drain
  /-- The operating system accepts some bytes of a write. -/
  | writeSome (k n : ℕ)
  | writeCompletes (k : ℕ) (ok : Bool)
  /-- The strand runs the handler of a write. -/
  | runWrite (k : ℕ)
  deriving DecidableEq, Repr

/-- The transition function of a session. -/
def Session.step : StepFn Session SessionAction ServerEvent
  | s, .readCompletes k result =>
      if s.reads[k]? = some .outstanding then
        match result with
        | .data chunk =>
            -- also after `close`: the bytes may have been on their way already
            if result.possible then
              some ({ s with
                chunk := chunk ++ s.chunk.drop chunk.length
                reads := s.reads.set k (.completed (some chunk.length)) }, [.received chunk])
            else none
        | .failed => some ({ s with reads := s.reads.set k (.completed none) }, [.disconnected])
      else none
  | s, .runRead k =>
      if s.running then none
      else
        match s.reads[k]? with
        | some (.completed count) =>
            some ({ s with reads := s.reads.eraseIdx k }.handleRead count, [])
        | _ => none
  | s, .drain => if s.running then s.drain else none
  | s, .writeSome k n =>
      (s.writes[k]?).bind fun op =>
        if op.outcome = none ∧ s.isOpen = true ∧ 0 < n ∧ n ≤ op.data.length - op.sent then
          some ({ s with writes := s.writes.set k { op with sent := op.sent + n } },
            [.sent ((op.data.drop op.sent).take n)])
        else none
  | s, .writeCompletes k ok =>
      (s.writes[k]?).bind fun op =>
        if op.outcome = none ∧ (ok = true → op.sent = op.data.length) then
          some ({ s with writes := s.writes.set k { op with outcome := some ok } },
            if ok then [] else [.writeFailed])
        else none
  | s, .runWrite k =>
      if s.running then none
      else
        (s.writes[k]?).bind fun op =>
          op.outcome.bind fun ok => { s with writes := s.writes.eraseIdx k }.handleWrite ok

/-! ## What one step can do -/

/-- The steps of a session, one constructor for each way an action can go. -/
inductive SessionStep (s : Session) : SessionAction → Session → List ServerEvent → Prop
  | readData {k : ℕ} {chunk : Bytes} (hk : s.reads[k]? = some .outstanding)
      (hp : (RecvResult.data chunk).possible = true) :
      SessionStep s (.readCompletes k (.data chunk))
        { s with
          chunk := chunk ++ s.chunk.drop chunk.length
          reads := s.reads.set k (.completed (some chunk.length)) } [.received chunk]
  | readFailed {k : ℕ} (hk : s.reads[k]? = some .outstanding) :
      SessionStep s (.readCompletes k .failed) { s with reads := s.reads.set k (.completed none) }
        [.disconnected]
  | readBegins {k n : ℕ} (hr : s.running = false) (hk : s.reads[k]? = some (.completed (some n))) :
      SessionStep s (.runRead k)
        { s with
          reads := s.reads.eraseIdx k
          readBuffer := s.readBuffer ++ s.chunk.take n
          running := true } []
  | readEnds {k : ℕ} (hr : s.running = false) (hk : s.reads[k]? = some (.completed none)) :
      SessionStep s (.runRead k) { s with reads := s.reads.eraseIdx k } []
  | answeredIdle {request : Frame} {rest : Bytes} (hr : s.running = true)
      (hn : nextFrame s.readBuffer = some (request, rest)) (hq : s.writeQueue = []) :
      SessionStep s .drain
        { s with
          readBuffer := rest
          writeQueue := [reply request]
          writes := s.writes ++ [{ data := reply request }] }
        [.decoded request, .started (reply request)]
  | answered {request : Frame} {rest : Bytes} (hr : s.running = true)
      (hn : nextFrame s.readBuffer = some (request, rest)) (hq : s.writeQueue ≠ []) :
      SessionStep s .drain
        { s with readBuffer := rest, writeQueue := s.writeQueue ++ [reply request] }
        [.decoded request]
  | rearmed (hr : s.running = true) (hn : nextFrame s.readBuffer = none) :
      SessionStep s .drain { s with reads := s.reads ++ [.outstanding], running := false } []
  | wrote {k n : ℕ} {op : WriteOp} (hk : s.writes[k]? = some op) (ho : op.outcome = none)
      (hopen : s.isOpen = true) (hn : 0 < n) (hle : n ≤ op.data.length - op.sent) :
      SessionStep s (.writeSome k n)
        { s with writes := s.writes.set k { op with sent := op.sent + n } }
        [.sent ((op.data.drop op.sent).take n)]
  | writeDone {k : ℕ} {op : WriteOp} (hk : s.writes[k]? = some op) (ho : op.outcome = none)
      (hsent : op.sent = op.data.length) :
      SessionStep s (.writeCompletes k true)
        { s with writes := s.writes.set k { op with outcome := some true } } []
  | writeFailed {k : ℕ} {op : WriteOp} (hk : s.writes[k]? = some op) (ho : op.outcome = none) :
      SessionStep s (.writeCompletes k false)
        { s with writes := s.writes.set k { op with outcome := some false } } [.writeFailed]
  | poppedLast {k : ℕ} {op : WriteOp} {front : Bytes} (hr : s.running = false)
      (hk : s.writes[k]? = some op) (ho : op.outcome = some true) (hq : s.writeQueue = [front]) :
      SessionStep s (.runWrite k) { s with writes := s.writes.eraseIdx k, writeQueue := [] } []
  | popped {k : ℕ} {op : WriteOp} {front next : Bytes} {rest : List Bytes} (hr : s.running = false)
      (hk : s.writes[k]? = some op) (ho : op.outcome = some true)
      (hq : s.writeQueue = front :: next :: rest) :
      SessionStep s (.runWrite k)
        { s with
          writes := s.writes.eraseIdx k ++ [{ data := next }]
          writeQueue := next :: rest } [.started next]
  | closed {k : ℕ} {op : WriteOp} (hr : s.running = false) (hk : s.writes[k]? = some op)
      (ho : op.outcome = some false) :
      SessionStep s (.runWrite k) { s with writes := s.writes.eraseIdx k, isOpen := false } []

theorem SessionStep.of_step {s t : Session} {a : SessionAction} {es : List ServerEvent}
    (h : s.step a = some (t, es)) : SessionStep s a t es := by
  cases a with
  | readCompletes k result =>
    simp only [Session.step, Option.ite_none_right_eq_some] at h
    obtain ⟨hk, h⟩ := h
    cases result with
    | data chunk =>
      simp only [Option.ite_none_right_eq_some] at h
      obtain ⟨hp, h⟩ := h
      cases h
      exact .readData hk hp
    | failed => cases h; exact .readFailed hk
  | runRead k =>
    simp only [Session.step, Option.ite_none_left_eq_some, Bool.not_eq_true] at h
    obtain ⟨hr, h⟩ := h
    split at h
    · rename_i count hk
      cases count with
      | some n => cases h; exact .readBegins hr hk
      | none => cases h; exact .readEnds hr hk
    · cases h
  | drain =>
    simp only [Session.step, Option.ite_none_right_eq_some, Session.drain] at h
    obtain ⟨hr, h⟩ := h
    split at h
    · rename_i request rest hn
      obtain ⟨q, hq, he⟩ := Option.map_eq_some_iff.mp h
      cases hw : s.writeQueue with
      | nil =>
        simp only [Session.queueWrite, Session.doWrite, hw, List.isEmpty_nil, if_true,
          List.nil_append, Option.some.injEq] at hq
        subst hq
        cases he
        exact .answeredIdle hr hn hw
      | cons front queue =>
        simp only [Session.queueWrite, hw, List.isEmpty_cons, Bool.false_eq_true, if_false,
          Option.some.injEq] at hq
        subst hq
        cases he
        rw [← hw]
        exact .answered hr hn (by simp [hw])
    · rename_i hn
      cases h
      exact .rearmed hr hn
  | writeSome k n =>
    simp only [Session.step, Option.bind_eq_some_iff, Option.ite_none_right_eq_some] at h
    obtain ⟨op, hk, ⟨ho, hopen, hn, hle⟩, h⟩ := h
    cases h
    exact .wrote hk ho hopen hn hle
  | writeCompletes k ok =>
    simp only [Session.step, Option.bind_eq_some_iff, Option.ite_none_right_eq_some] at h
    obtain ⟨op, hk, ⟨ho, hsent⟩, h⟩ := h
    cases ok with
    | true => cases h; exact .writeDone hk ho (hsent rfl)
    | false => cases h; exact .writeFailed hk ho
  | runWrite k =>
    simp only [Session.step, Option.ite_none_left_eq_some, Bool.not_eq_true,
      Option.bind_eq_some_iff] at h
    obtain ⟨hr, op, hk, ok, ho, h⟩ := h
    cases ok with
    | true =>
      simp only [Session.handleWrite] at h
      split at h
      · cases h
      · rename_i front rest hq
        cases rest with
        | nil => cases h; exact .poppedLast hr hk ho hq
        | cons next rest => cases h; exact .popped hr hk ho hq
    | false => cases h; exact .closed hr hk ho

theorem drain_decodes {s : Session} {request : Frame} {rest : Bytes} (hrun : s.running = true)
    (hn : nextFrame s.readBuffer = some (request, rest)) : ∃ t rs,
    s.step .drain = some (t, .decoded request :: rs) ∧ receivedBytes rs = [] ∧
      sentBytes rs = [] ∧ t.running = true ∧ t.reads = s.reads ∧ t.readBuffer = rest := by
  cases hq : s.writeQueue with
  | nil =>
    refine ⟨{ s with
      readBuffer := rest
      writeQueue := [reply request]
      writes := s.writes ++ [{ data := reply request }] }, [.started (reply request)],
      ?_, rfl, rfl, hrun, rfl, rfl⟩
    simp [Session.step, hrun, Session.drain, hn, Session.queueWrite, hq, Session.doWrite]
  | cons front queue =>
    refine ⟨{ s with readBuffer := rest, writeQueue := s.writeQueue ++ [reply request] }, [],
      ?_, rfl, rfl, hrun, rfl, rfl⟩
    simp [Session.step, hrun, Session.drain, hn, Session.queueWrite, hq]

theorem drain_rearms {s : Session} (hrun : s.running = true) (hn : nextFrame s.readBuffer = none) :
    s.step .drain = some ({ s with reads := s.reads ++ [.outstanding], running := false }, []) := by
  simp [Session.step, hrun, Session.drain, hn, Session.doRead]

end PromiseDemo
