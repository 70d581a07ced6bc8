import PromiseDemo.Rpc.AsyncWriter
import PromiseDemo.Rpc.ReadLoop
import PromiseDemo.Rpc.Serve

/-!
# A session of the server

`server_session` reads messages one after the other, posts a task for each to the `io_service`,
and any worker thread takes any task.  Responses meet again in the strand of the write queue, in
the order in which the tasks end.
-/

namespace PromiseDemo.Rpc

open MsgPack Transition

/-- Where the object of a posted response lies: in a zone of the response itself, in that of a
thread's `this_handler`, or in one that has been freed since. -/
inductive Storage
  | own
  | lent (thread : ℕ) (slot : Slot)
  | freed
  deriving DecidableEq, Repr

/-- What a task may ask for after its response: to close its session, or all sessions of the
server. -/
inductive Request
  | close
  | closeSessions

/-- What is posted to the write strand: a response, a request, and what `close` posts. -/
inductive Posted
  | write (resp : Response) (storage : Storage)
  | request (r : Request)
  | shutdown
  | leave

/-- What ends a session other than an exception of a task: a block or a stack that is refused, a
`close()` that throws, a response that is packed after its zone has been freed, a closure that runs
on a session that has been deleted.  After the last two the language leaves open what happens. -/
inductive Failure
  | noMemory
  | stackOverflow
  | closeThrows
  | staleReply
  | freedSession
  deriving DecidableEq, Repr

/-- The response of a task that `thread` has run. -/
def ThisHandler.storage (handler : ThisHandler) (thread : ℕ) : Storage :=
  match handler.lends with
  | some slot => .lent thread slot
  | none => .own

/-- A thread runs a task that leaves `handler` behind. -/
def Storage.reuse (thread : ℕ) (handler : ThisHandler) : Storage → Storage
  | .lent t slot => if t = thread ∧ handler.sets slot = true then .freed else .lent t slot
  | storage => storage

def Posted.reuse (thread : ℕ) (handler : ThisHandler) : Posted → Posted
  | .write resp storage => .write resp (storage.reuse thread handler)
  | p => p

/-- Does the closure hold a pointer that keeps the session alive?  A request holds a bare
`this`. -/
def Posted.holds : Posted → Bool
  | .write _ _ | .shutdown | .leave => true
  | .request _ => false

/-- What a task has still to post when its response is posted. -/
def taskRequests (exit stop : Bool) : List (Request × List Request) :=
  match exit, stop with
  | true, true => [(.close, [.closeSessions])]
  | true, false => [(.close, [])]
  | false, true => [(.closeSessions, [])]
  | false, false => []

/-- `server_session` with the tasks it has posted, those that have requests left to post, and its
place in the server's list.  A session that `close_sessions` has taken off the list is `closing`
until it is closed. -/
structure ServerSession where
  unpacker : Unpacker := .init
  phase : ReadPhase := .reading
  tasks : List Object := []
  ending : List (Request × List Request) := []
  strand : List Posted := []
  writer : AsyncWriter := {}
  socketOpen : Bool := true
  listed : Bool := true
  closing : Bool := false
  terminated : Bool := false
  failure : Option Failure := none

/-- What the socket, the read handler, the workers and the write strand do.  `run thread i` is a
worker that ends the `i`-th of the tasks, but for the requests that `post` posts; `reuse` is a task
of another session, and `closeSessions` a request from elsewhere to close all sessions. -/
inductive ServerSessionAction
  | receive (chunk : Bytes)
  | next
  | refused
  | disconnect
  | readError
  | run (thread i : ℕ)
  | post (j : ℕ)
  | reuse (thread : ℕ) (handler : ThisHandler)
  | closeSessions
  | closeTaken
  | strand
  | overflow
  | closeFails
  | transfer (count : ℕ)
  | written
  | failed

inductive ServerSessionEvent
  | received (chunk : Bytes)
  | ignored (chunk : Bytes)
  | posted (msg : Object)
  | ran (msg : Object)
  | reused
  | writer (e : WriterEvent)
  | closed
  | terminated

namespace ServerSession

/-- The process has not ended, and has done nothing after which it is open what it does. -/
def Alive (s : ServerSession) : Prop := s.terminated = false ∧ s.failure = none

instance (s : ServerSession) : Decidable s.Alive := inferInstanceAs (Decidable (_ ∧ _))

/-- `close`. -/
def close (s : ServerSession) : ServerSession :=
  { s with writer := { s.writer with exit := true }, strand := s.strand ++ [.shutdown, .leave] }

/-- The read handler with a chunk; a closed session does not look at it. -/
def receive (s : ServerSession) (chunk : Bytes) : ServerSession × List ServerSessionEvent :=
  if s.writer.exit then ({ s with phase := .ended }, [.ignored chunk])
  else ({ s with unpacker := s.unpacker.bufferConsumed chunk, phase := .parsing },
    [.received chunk])

/-- One turn of `while (pac_.next(result) && !is_closed())`.  A message that a closed session has
just parsed is dropped. -/
def next (s : ServerSession) : ServerSession × List ServerSessionEvent :=
  match s.unpacker.next with
  | .object msg unpacker =>
      if s.writer.exit then ({ s with unpacker, phase := .ended }, [])
      else ({ s with unpacker, tasks := s.tasks ++ [msg] }, [.posted msg])
  | .incomplete unpacker =>
      if s.writer.exit then ({ s with unpacker, phase := .ended }, [])
      else ({ s with unpacker, phase := .reading }, [])
  | .parseError => ({ s with terminated := true }, [.terminated])

/-- A thread sets the objects of its `this_handler` anew, and frees the zones of those before. -/
def reuse (s : ServerSession) (thread : ℕ) (handler : ThisHandler) : ServerSession :=
  { s with strand := s.strand.map (Posted.reuse thread handler) }

/-- A worker ends a task up to its requests, or the process with it. -/
def runTask (c : Config) (s : ServerSession) (thread i : ℕ) (msg : Object) :
    ServerSession × List ServerSessionEvent :=
  match c.serve msg with
  | .terminated => ({ s with terminated := true }, [.terminated])
  | .finished reply exit stop =>
      ({ s with
          tasks := s.tasks.eraseIdx i
          ending := s.ending ++ taskRequests exit stop
          strand := s.strand.map (Posted.reuse thread (c.handler msg)) ++
            reply.toList.map fun resp => .write resp ((c.handler msg).storage thread) },
        [.ran msg])

/-- A task posts its next request. -/
def post (s : ServerSession) (j : ℕ) (r : Request) (rest : List Request) : ServerSession :=
  { s with
    strand := s.strand ++ [.request r]
    ending := match rest with
      | [] => s.ending.eraseIdx j
      | q :: rest => s.ending.set j (q, rest) }

/-- `close_sessions` takes the session off the server's list, if it is there, to close it. -/
def closeSessions (s : ServerSession) : ServerSession :=
  if s.listed then { s with listed := false, closing := true } else s

/-- Does anything hold a pointer to the session?  The server's list, the read handler, a task, a
thread in `close_sessions`, a write under way or a closure of the strand. -/
def held (s : ServerSession) : Bool :=
  s.listed || s.phase ≠ .ended || !s.tasks.isEmpty || !s.ending.isEmpty || s.closing ||
    s.writer.writing.isSome || s.strand.any Posted.holds

/-- What goes wrong when the strand runs what was posted first. -/
def wrong (s : ServerSession) : Option Failure :=
  match s.strand with
  | .write _ .freed :: _ => some .staleReply
  | .request _ :: rest => if held { s with strand := rest } then none else some .freedSession
  | _ => none

/-- The response that the strand is about to pack holds objects in objects. -/
def nested (s : ServerSession) : Bool :=
  match s.strand with
  | .write resp _ :: _ => resp.nests
  | _ => false

/-- The strand is about to close a socket that is open.  An error of `shutdown` is logged, one of
`close` is thrown. -/
def closes (s : ServerSession) : Bool :=
  match s.strand with
  | .shutdown :: _ => s.socketOpen
  | _ => false

/-- The write strand runs what was posted first. -/
def runPosted (s : ServerSession) : Posted → ServerSession × List ServerSessionEvent
  | .write resp _ =>
      ({ s with writer := s.writer.write resp.getData }, [.writer (.queued resp.getData)])
  | .request .close => (s.close, [.closed])
  | .request .closeSessions => (s.closeSessions, [])
  | .shutdown => ({ s with socketOpen := false }, [])
  | .leave => ({ s with listed := false }, [])

/-- An `async_write` makes progress or ends. -/
def io (s : ServerSession) (a : WriterAction) : Option (ServerSession × List ServerSessionEvent) :=
  (s.writer.step a).map fun q => ({ s with writer := q.1 }, q.2.map .writer)

/-- What happens in a process that is alive. -/
def act (c : Config) (s : ServerSession) :
    ServerSessionAction → Option (ServerSession × List ServerSessionEvent)
  | .receive chunk => if s.phase = .reading then some (s.receive chunk) else none
  | .next => if s.phase = .parsing then some s.next else none
  | .refused =>
      if s.phase = .parsing ∧ s.unpacker.opens = true then
        some ({ s with failure := some .noMemory }, [])
      else none
  | .disconnect =>
      if s.phase = .reading then
        if s.writer.exit then some ({ s with phase := .ended }, [])
        else some ({ s with phase := .ended }.close, [.closed])
      else none
  | .readError => if s.phase = .reading then some ({ s with phase := .ended }, []) else none
  | .run thread i => (s.tasks[i]?).map fun msg => s.runTask c thread i msg
  | .post j => (s.ending[j]?).map fun e => (s.post j e.1 e.2, [])
  | .reuse thread handler => some (s.reuse thread handler, [.reused])
  | .closeSessions => some (s.closeSessions, [])
  | .closeTaken => if s.closing then some ({ s with closing := false }.close, [.closed]) else none
  | .strand =>
      match s.strand with
      | [] => none
      | p :: rest =>
          match s.wrong with
          | some failure => some ({ s with failure := some failure }, [])
          | none => some (runPosted { s with strand := rest } p)
  | .overflow =>
      if s.nested then some ({ s with failure := some .stackOverflow }, []) else none
  | .closeFails =>
      if s.closes then some ({ s with failure := some .closeThrows }, []) else none
  | .transfer count => if s.socketOpen then s.io (.transfer count) else none
  | .written => s.io .written
  | .failed => s.io .failed

def step (c : Config) (s : ServerSession) (a : ServerSessionAction) :
    Option (ServerSession × List ServerSessionEvent) :=
  if s.Alive then s.act c a else none

end ServerSession

/-- What a turn of the read loop can do. -/
inductive SessionTurn (s : ServerSession) : ServerSession × List ServerSessionEvent → Prop
  | closed (unpacker : Unpacker) (hexit : s.writer.exit = true) :
      SessionTurn s ({ s with unpacker, phase := .ended }, [])
  | posted {msg : Object} {unpacker : Unpacker} (hnext : s.unpacker.next = .object msg unpacker) :
      SessionTurn s ({ s with unpacker, tasks := s.tasks ++ [msg] }, [.posted msg])
  | incomplete {unpacker : Unpacker} (hnext : s.unpacker.next = .incomplete unpacker) :
      SessionTurn s ({ s with unpacker, phase := .reading }, [])
  | parseError (hnext : s.unpacker.next = .parseError) :
      SessionTurn s ({ s with terminated := true }, [.terminated])

theorem sessionTurn (s : ServerSession) : SessionTurn s s.next := by
  unfold ServerSession.next
  cases hnext : s.unpacker.next with
  | object msg unpacker =>
    dsimp only
    split_ifs with hexit
    · exact .closed unpacker hexit
    · exact .posted hnext
  | incomplete unpacker =>
    dsimp only
    split_ifs with hexit
    · exact .closed unpacker hexit
    · exact .incomplete hnext
  | parseError => exact .parseError hnext

/-- What an action does to the write queue by way of the socket. -/
def ServerSessionAction.toWriter : ServerSessionAction → Option WriterAction
  | .transfer count => some (.transfer count)
  | .written => some .written
  | .failed => some .failed
  | _ => none

/-- How a session fails. -/
inductive ServerSession.Fails (s : ServerSession) : ServerSessionAction → Failure → Prop
  | refused (hphase : s.phase = .parsing) (hopens : s.unpacker.opens = true) :
      Fails s .refused .noMemory
  | overflow (hnested : s.nested = true) : Fails s .overflow .stackOverflow
  | closeFails (hcloses : s.closes = true) : Fails s .closeFails .closeThrows
  | strand {failure : Failure} (hwrong : s.wrong = some failure) : Fails s .strand failure

/-- What a step of a session can do. -/
inductive SessionStep (c : Config) (s : ServerSession) :
    ServerSessionAction → ServerSession → List ServerSessionEvent → Prop
  | receive {chunk : Bytes} (hphase : s.phase = .reading) :
      SessionStep c s (.receive chunk) (s.receive chunk).1 (s.receive chunk).2
  | next (hphase : s.phase = .parsing) : SessionStep c s .next s.next.1 s.next.2
  | fails {a : ServerSessionAction} {failure : Failure} (hfails : s.Fails a failure) :
      SessionStep c s a { s with failure := some failure } []
  | lost {a : ServerSessionAction} (hphase : s.phase = .reading)
      (ha : a = .readError ∨ a = .disconnect) : SessionStep c s a { s with phase := .ended } []
  | disconnect (hphase : s.phase = .reading) :
      SessionStep c s .disconnect { s with phase := .ended }.close [.closed]
  | run {thread i : ℕ} {msg : Object} (hmsg : s.tasks[i]? = some msg) :
      SessionStep c s (.run thread i) (s.runTask c thread i msg).1 (s.runTask c thread i msg).2
  | post {j : ℕ} {r : Request} {rest : List Request} (hj : s.ending[j]? = some (r, rest)) :
      SessionStep c s (.post j) (s.post j r rest) []
  | reuse (thread : ℕ) (handler : ThisHandler) :
      SessionStep c s (.reuse thread handler) (s.reuse thread handler) [.reused]
  | closeSessions : SessionStep c s .closeSessions s.closeSessions []
  | closeTaken (hclosing : s.closing = true) :
      SessionStep c s .closeTaken { s with closing := false }.close [.closed]
  | strand {p : Posted} {rest : List Posted} (hstrand : s.strand = p :: rest)
      (hright : s.wrong = none) :
      SessionStep c s .strand (ServerSession.runPosted { s with strand := rest } p).1
        (ServerSession.runPosted { s with strand := rest } p).2
  | io {a : ServerSessionAction} {b : WriterAction} {w : AsyncWriter} {ws : List WriterEvent}
      (hwrite : ∀ data, b ≠ .write data) (hclose : b ≠ .close)
      (hw : s.writer.step b = some (w, ws)) (ha : a.toWriter = some b) :
      SessionStep c s a { s with writer := w } (ws.map .writer)

theorem sessionStep_io {c : Config} {s s' : ServerSession} {a : ServerSessionAction}
    {b : WriterAction} {es : List ServerSessionEvent} (hwrite : ∀ data, b ≠ .write data)
    (hclose : b ≠ .close) (hio : s.io b = some (s', es)) (ha : a.toWriter = some b) :
    SessionStep c s a s' es := by
  rw [ServerSession.io, Option.map_eq_some_iff] at hio
  obtain ⟨⟨w, ws⟩, hw, heq⟩ := hio
  cases heq
  exact .io hwrite hclose hw ha

theorem sessionStep_of_step {c : Config} {s s' : ServerSession} {a : ServerSessionAction}
    {es : List ServerSessionEvent} (hstep : s.step c a = some (s', es)) :
    s.Alive ∧ SessionStep c s a s' es := by
  rw [ServerSession.step, Option.ite_none_right_eq_some] at hstep
  obtain ⟨halive, hact⟩ := hstep
  refine ⟨halive, ?_⟩
  have hof : ∀ {r : ServerSession × List ServerSessionEvent}, r = (s', es) →
      SessionStep c s a r.1 r.2 → SessionStep c s a s' es := by
    rintro r rfl hr
    exact hr
  cases a with
  | receive chunk =>
    rw [ServerSession.act, Option.ite_none_right_eq_some] at hact
    exact hof (Option.some.inj hact.2) (.receive hact.1)
  | next =>
    rw [ServerSession.act, Option.ite_none_right_eq_some] at hact
    exact hof (Option.some.inj hact.2) (.next hact.1)
  | refused =>
    rw [ServerSession.act, Option.ite_none_right_eq_some] at hact
    cases hact.2
    exact .fails (.refused hact.1.1 hact.1.2)
  | disconnect =>
    rw [ServerSession.act, Option.ite_none_right_eq_some] at hact
    obtain ⟨hphase, heq⟩ := hact
    split_ifs at heq
    · cases heq
      exact .lost hphase (.inr rfl)
    · cases heq
      exact .disconnect hphase
  | readError =>
    rw [ServerSession.act, Option.ite_none_right_eq_some] at hact
    cases hact.2
    exact .lost hact.1 (.inl rfl)
  | run thread i =>
    rw [ServerSession.act, Option.map_eq_some_iff] at hact
    obtain ⟨msg, hmsg, heq⟩ := hact
    exact hof heq (.run hmsg)
  | post j =>
    rw [ServerSession.act, Option.map_eq_some_iff] at hact
    obtain ⟨⟨p, rest⟩, hj, heq⟩ := hact
    cases heq
    exact .post hj
  | reuse thread handler =>
    cases hact
    exact .reuse thread handler
  | closeSessions =>
    cases hact
    exact .closeSessions
  | closeTaken =>
    rw [ServerSession.act, Option.ite_none_right_eq_some] at hact
    cases hact.2
    exact .closeTaken hact.1
  | strand =>
    rw [ServerSession.act] at hact
    split at hact
    · cases hact
    · next p rest hstrand =>
      split at hact
      · next failure hwrong =>
        cases hact
        exact .fails (.strand hwrong)
      · next hright => exact hof (Option.some.inj hact) (.strand hstrand hright)
  | overflow =>
    rw [ServerSession.act, Option.ite_none_right_eq_some] at hact
    cases hact.2
    exact .fails (.overflow hact.1)
  | closeFails =>
    rw [ServerSession.act, Option.ite_none_right_eq_some] at hact
    cases hact.2
    exact .fails (.closeFails hact.1)
  | transfer count =>
    rw [ServerSession.act, Option.ite_none_right_eq_some] at hact
    exact sessionStep_io (by simp) (by simp) hact.2 rfl
  | written => exact sessionStep_io (by simp) (by simp) hact rfl
  | failed => exact sessionStep_io (by simp) (by simp) hact rfl

/-- A session that can take a step has not failed before. -/
theorem session_failure {c : Config} {s s' : ServerSession} {a : ServerSessionAction}
    {es : List ServerSessionEvent} (hstep : s.step c a = some (s', es)) :
    s'.failure = none ∨ ∃ failure, s'.failure = some failure ∧ s.Fails a failure := by
  obtain ⟨⟨-, hwell⟩, hact⟩ := sessionStep_of_step hstep
  cases hact with
  | @fails _ failure hfails => exact .inr ⟨failure, rfl, hfails⟩
  | receive hphase =>
    unfold ServerSession.receive
    split_ifs <;> exact .inl hwell
  | next hphase =>
    have hturn := sessionTurn s
    generalize s.next = q at hturn ⊢
    cases hturn <;> exact .inl hwell
  | run hmsg =>
    unfold ServerSession.runTask
    split <;> exact .inl hwell
  | closeSessions =>
    unfold ServerSession.closeSessions
    split_ifs <;> exact .inl hwell
  | @strand p rest hstrand hright =>
    cases p with
    | request r =>
      cases r with
      | close => exact .inl hwell
      | closeSessions =>
        unfold ServerSession.runPosted ServerSession.closeSessions
        dsimp only
        split_ifs <;> exact .inl hwell
    | write | shutdown | leave => exact .inl hwell
  | lost | disconnect | post | reuse | closeTaken | io => exact .inl hwell

theorem session_reused {c : Config} {s s' : ServerSession} {a : ServerSessionAction}
    {es : List ServerSessionEvent} (ha : ∀ thread handler, a ≠ .reuse thread handler)
    (hstep : s.step c a = some (s', es)) : ServerSessionEvent.reused ∉ es := by
  obtain ⟨-, hact⟩ := sessionStep_of_step hstep
  cases hact with
  | receive hphase =>
    unfold ServerSession.receive
    split_ifs <;> simp
  | next hphase =>
    have hturn := sessionTurn s
    generalize s.next = q at hturn ⊢
    cases hturn <;> simp
  | run hmsg =>
    unfold ServerSession.runTask
    split <;> simp
  | @strand p rest hstrand hright =>
    cases p with
    | request r => cases r <;> simp [ServerSession.runPosted]
    | write | shutdown | leave => simp [ServerSession.runPosted]
  | reuse thread handler => exact absurd rfl (ha thread handler)
  | fails | lost | disconnect | post | closeSessions | closeTaken | io => simp

/-! ## What a history shows -/

/-- The chunks that the read handler has taken up. -/
def receivedChunks (h : List ServerSessionEvent) : List Bytes :=
  h.filterMap fun e => match e with
    | .received chunk => some chunk
    | _ => none

/-- The messages for which a task was posted. -/
def postedOf (h : List ServerSessionEvent) : List Object :=
  h.filterMap fun e => match e with
    | .posted msg => some msg
    | _ => none

/-- The messages whose tasks have ended, in the order in which they ended. -/
def ranOf (h : List ServerSessionEvent) : List Object :=
  h.filterMap fun e => match e with
    | .ran msg => some msg
    | _ => none

/-- What has happened to the write queue. -/
def writerOf (h : List ServerSessionEvent) : List WriterEvent :=
  h.filterMap fun e => match e with
    | .writer e => some e
    | _ => none

@[simp] theorem receivedChunks_append (h k : List ServerSessionEvent) :
    receivedChunks (h ++ k) = receivedChunks h ++ receivedChunks k := List.filterMap_append

@[simp] theorem postedOf_append (h k : List ServerSessionEvent) :
    postedOf (h ++ k) = postedOf h ++ postedOf k := List.filterMap_append

@[simp] theorem ranOf_append (h k : List ServerSessionEvent) :
    ranOf (h ++ k) = ranOf h ++ ranOf k := List.filterMap_append

@[simp] theorem writerOf_append (h k : List ServerSessionEvent) :
    writerOf (h ++ k) = writerOf h ++ writerOf k := List.filterMap_append

@[simp] theorem writerOf_map_writer (es : List WriterEvent) :
    writerOf (es.map .writer) = es := by
  simp [writerOf, List.filterMap_map]

/-- The responses that are posted and not yet queued. -/
def postedWrites (ps : List Posted) : List Response :=
  ps.filterMap fun p => match p with
    | .write resp _ => some resp
    | _ => none

theorem postedWrites_append (ps qs : List Posted) :
    postedWrites (ps ++ qs) = postedWrites ps ++ postedWrites qs := List.filterMap_append

theorem postedWrites_reuse (thread : ℕ) (handler : ThisHandler) (ps : List Posted) :
    postedWrites (ps.map (Posted.reuse thread handler)) = postedWrites ps := by
  rw [postedWrites, postedWrites, List.filterMap_map]
  congr 1
  funext p
  cases p <;> rfl

end PromiseDemo.Rpc
