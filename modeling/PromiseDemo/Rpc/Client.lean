import PromiseDemo.Framework.PromiseStore
import PromiseDemo.Rpc.AsyncWriter
import PromiseDemo.Rpc.ReadLoop
import PromiseDemo.Rpc.Serve
import Mathlib.Data.List.AList

/-!
# The client of rpclib

User threads take a number for each call and post what is left to do to a strand; one I/O thread
runs the strand, reads responses and satisfies the promises.  The timeouts are left out: a call
that gives up drops its future, and the rest goes on without it.
-/

namespace PromiseDemo.Rpc

open MsgPack PromiseStore

/-- `client::connection_state`. -/
inductive ConnectionState
  | initial
  | connected
  | disconnected
  | reset
  deriving DecidableEq, Repr

/-- What a future of a call yields: a result, the `rpc_error` thrown for an error response, or
the `broken_promise` of a promise that has gone unsatisfied. -/
inductive CallResult
  | value (o : Object)
  | rpcError (funcName : Bytes) (error : Object)
  | brokenPromise

/-- `call_t`. -/
structure OngoingCall where
  funcName : Bytes := []
  promise : ℕ
  deriving DecidableEq, Repr

/-- A call that has its number and has not been posted. -/
structure Numbered where
  idx : ℤ
  funcName : Bytes
  args : List Object

/-- What is posted to `strand_`. -/
inductive Closure
  | call (idx : ℤ) (funcName : Bytes) (promise : ℕ) (buffer : Bytes)
  | notify (buffer : Bytes)
  | erase (id : ℕ)
  deriving DecidableEq

/-- `client::impl`, with the calls that user threads are about to post.  A process that is
`exhausted` has been refused a block of memory or its stack. -/
structure ClientImpl where
  isConnected : Bool := false
  connectionEc : Bool := false
  state : ConnectionState := .initial
  callIdx : ℤ := 0
  numbered : List Numbered := []
  strand : List Closure := []
  ongoingCalls : AList fun _ : ℕ => OngoingCall := ∅
  promises : Store CallResult := []
  unpacker : Unpacker := .init
  phase : ReadPhase := .reading
  writer : AsyncWriter := {}
  terminated : Bool := false
  destroyed : Bool := false
  exhausted : Bool := false

/-- What the user threads, the strand, the read handler and the socket do. -/
inductive ClientAction
  | connect (ok : Bool)
  | call (funcName : Bytes) (args : List Object)
  | post (i : ℕ)
  | send (funcName : Bytes) (args : List Object)
  | strand
  | receive (chunk : Bytes)
  | next
  | noMemory
  | overflow
  | readError (known : Bool)
  | transfer (count : ℕ)
  | written
  | failed
  | destroy

inductive ClientEvent
  | numbered (idx : ℤ)
  | issued (p : ℕ) (idx : ℤ) (funcName : Bytes) (args : List Object)
  | notified (funcName : Bytes) (args : List Object)
  | received (chunk : Bytes)
  | responded (msg : Object)
  | resolved (p : ℕ) (r : CallResult)
  | writer (e : WriterEvent)
  | terminated

/-! ## Messages -/

/-- The arguments, a `std::tuple`. -/
def packArgs (args : List Object) : Bytes := packArray args.length ++ packItems args

/-- `call_obj` of `async_call`, packed. -/
def packCall (idx : ℤ) (funcName : Bytes) (args : List Object) : Bytes :=
  packArray 4 ++ (packImpUint8 0 ++ (packImpInt32 idx ++
    (packStr funcName.length ++ funcName ++ packArgs args)))

/-- `call_obj` of `send`, packed. -/
def packNotification (funcName : Bytes) (args : List Object) : Bytes :=
  packArray 3 ++ (packImpUint8 2 ++ (packStr funcName.length ++ funcName ++ packArgs args))

/-- An element of a `std::tuple` is converted if it is there, and left as it is otherwise. -/
def convertElement {α : Type} (convert : Object → Option α) (default : α) :
    Option Object → Option α
  | none => some default
  | some o => convert o

/-- What the constructor of `response` takes from an object: id, error and result; `none` is
`type_error`. -/
def convertResponse : Object → Option (ℕ × Object × Object)
  | .array ptr => do
      let _ ← convertElement convertUint32 0 ptr[0]?
      let id ← convertElement convertUint32 0 ptr[1]?
      some (id, ptr[2]?.getD .nil, ptr[3]?.getD .nil)
  | _ => none

/-- What a response means to the call that it is for. -/
def resultFor (funcName : Bytes) (error result : Object) : CallResult :=
  if isNil error then .value result else .rpcError funcName error

/-! ## Steps -/

/-- A promise is destroyed: its future yields `broken_promise` unless it was satisfied. -/
def abandon (s : Store CallResult) (p : ℕ) : Store CallResult × List ClientEvent :=
  match satisfy s p .brokenPromise with
  | .ok s' => (s', [.resolved p .brokenPromise])
  | .error _ => (s, [])

def abandonAll (s : Store CallResult) : List ℕ → Store CallResult × List ClientEvent
  | [] => (s, [])
  | p :: ps =>
      let q := abandon s p
      let r := abandonAll q.1 ps
      (r.1, q.2 ++ r.2)

/-- A call that is posted and not yet entered. -/
structure Ticket where
  idx : ℤ
  funcName : Bytes
  promise : ℕ
  deriving DecidableEq

def tickets (cs : List Closure) : List Ticket :=
  cs.filterMap fun c => match c with
    | .call idx funcName p _ => some ⟨idx, funcName, p⟩
    | _ => none

/-- The entries' promises. -/
def ongoingPromises (m : AList fun _ : ℕ => OngoingCall) : List ℕ :=
  m.entries.map fun e => e.2.promise

namespace ClientImpl

/-- `get_next_call_idx`; the `std::atomic<int>` wraps around. -/
def nextCallIdx (c : ClientImpl) : ℤ := (c.callIdx + 1).bmod (2 ^ 32)

/-- `async_call`, from the number on. -/
def takeNumber (c : ClientImpl) (funcName : Bytes) (args : List Object) :
    ClientImpl × List ClientEvent :=
  ({ c with callIdx := c.nextCallIdx, numbered := c.numbered ++ [⟨c.nextCallIdx, funcName, args⟩] },
    [.numbered c.nextCallIdx])

/-- The rest of `async_call`: the promise, its future and the closure. -/
def post (c : ClientImpl) (i : ℕ) (n : Numbered) : ClientImpl × List ClientEvent :=
  let p := c.promises.length
  match getFuture (create c.promises) p with
  | .ok promises =>
      ({ c with
          promises
          numbered := c.numbered.eraseIdx i
          strand := c.strand ++ [.call n.idx n.funcName p (packCall n.idx n.funcName n.args)] },
        [.issued p n.idx n.funcName n.args])
  | .error _ => (c, [])

/-- `writer_->write`. -/
def write (c : ClientImpl) (buffer : Bytes) : ClientImpl :=
  { c with writer := c.writer.write buffer }

/-- The strand runs what was posted first.  `insert` leaves an entry that is there as it is, and
the promise that it was given is destroyed. -/
def runClosure (c : ClientImpl) : Closure → ClientImpl × List ClientEvent
  | .call idx funcName p buffer =>
      let key := castUnsigned 4 idx
      match c.ongoingCalls.lookup key with
      | none =>
          ({ c with ongoingCalls := c.ongoingCalls.insert key ⟨funcName, p⟩ }.write buffer,
            [.writer (.queued buffer)])
      | some _ =>
          let q := abandon c.promises p
          ({ c with promises := q.1 }.write buffer, q.2 ++ [.writer (.queued buffer)])
  | .notify buffer => (c.write buffer, [.writer (.queued buffer)])
  | .erase id =>
      match c.ongoingCalls.lookup id with
      | none => (c, [])
      | some call =>
          let q := abandon c.promises call.promise
          ({ c with promises := q.1, ongoingCalls := c.ongoingCalls.erase id }, q.2)

/-- `ongoing_calls_[id]`: a missing entry is made, with a promise that has no future. -/
def ongoingAt (c : ClientImpl) (id : ℕ) : ClientImpl × OngoingCall :=
  match c.ongoingCalls.lookup id with
  | some call => (c, call)
  | none =>
      let call := { promise := c.promises.length }
      ({ c with ongoingCalls := c.ongoingCalls.insert id call, promises := create c.promises },
        call)

/-- One turn of `while (pac_.next(result))`.  If the promise is satisfied already, `set_value`
and then `set_exception` throw, and the exception leaves the I/O thread. -/
def next (c : ClientImpl) : ClientImpl × List ClientEvent :=
  match c.unpacker.next with
  | .object msg unpacker =>
      match convertResponse msg with
      | none => ({ c with unpacker, terminated := true }, [.responded msg, .terminated])
      | some (id, error, result) =>
          let q := { c with unpacker }.ongoingAt id
          let r := resultFor q.2.funcName error result
          match satisfy q.1.promises q.2.promise r with
          | .ok promises =>
              ({ q.1 with promises, strand := q.1.strand ++ [.erase id] },
                [.responded msg, .resolved q.2.promise r])
          | .error _ => ({ q.1 with terminated := true }, [.responded msg, .terminated])
  | .incomplete unpacker => ({ c with unpacker, phase := .reading }, [])
  | .parseError => ({ c with terminated := true }, [.terminated])

/-- The response that is parsed next has an error with objects in objects, which the constructor of
`response` clones. -/
def nested (c : ClientImpl) : Bool :=
  match c.unpacker.next with
  | .object msg _ => (convertResponse msg).any fun t => t.2.1.nests
  | _ => false

/-- An `async_write` makes progress or ends. -/
def io (c : ClientImpl) (a : WriterAction) : Option (ClientImpl × List ClientEvent) :=
  (c.writer.step a).map fun q => ({ c with writer := q.1 }, q.2.map .writer)

/-- `~client`: the I/O thread has ended and every promise that is left goes with the map and the
strand. -/
def destroy (c : ClientImpl) : ClientImpl × List ClientEvent :=
  let q := abandonAll c.promises
    ((tickets c.strand).map Ticket.promise ++ ongoingPromises c.ongoingCalls)
  ({ c with promises := q.1, strand := [], ongoingCalls := ∅, destroyed := true }, q.2)

/-- What happens in a client that lives. -/
def act (c : ClientImpl) : ClientAction → Option (ClientImpl × List ClientEvent)
  | .connect ok =>
      if c.state = .initial then
        if ok then some ({ c with isConnected := true, state := .connected }, [])
        else some ({ c with state := .disconnected, connectionEc := true }, [])
      else none
  | .call funcName args => if c.isConnected then some (c.takeNumber funcName args) else none
  | .post i => (c.numbered[i]?).map fun n => c.post i n
  | .send funcName args =>
      some ({ c with strand := c.strand ++ [.notify (packNotification funcName args)] },
        [.notified funcName args])
  | .strand =>
      match c.strand with
      | [] => none
      | closure :: rest => some ({ c with strand := rest }.runClosure closure)
  | .receive chunk =>
      if c.isConnected ∧ c.phase = .reading then
        some ({ c with unpacker := c.unpacker.bufferConsumed chunk, phase := .parsing },
          [.received chunk])
      else none
  | .next => if c.phase = .parsing then some c.next else none
  | .noMemory =>
      if c.phase = .parsing ∧ c.unpacker.opens = true then
        some ({ c with exhausted := true }, [])
      else none
  | .overflow =>
      if c.phase = .parsing ∧ c.nested = true then some ({ c with exhausted := true }, []) else none
  | .readError known =>
      if c.isConnected ∧ c.phase = .reading then
        some ({ c with phase := .ended, state := if known then .disconnected else c.state }, [])
      else none
  | .transfer count => if c.isConnected then c.io (.transfer count) else none
  | .written => c.io .written
  | .failed => c.io .failed
  | .destroy => if c.phase ≠ .parsing ∧ c.numbered = [] then some c.destroy else none

/-- A process that has ended does nothing, and a client that is gone neither. -/
def step (c : ClientImpl) (a : ClientAction) : Option (ClientImpl × List ClientEvent) :=
  if c.terminated = false ∧ c.destroyed = false ∧ c.exhausted = false then c.act a else none

/-- `wait_all_responses`, without the waiting: it fetches the future of every entry. -/
def waitAllResponses (s : Store CallResult) : List ℕ → Except Fault (Store CallResult)
  | [] => .ok s
  | p :: ps =>
      match getFuture s p with
      | .ok s' => waitAllResponses s' ps
      | .error e => .error e

end ClientImpl

theorem ongoingAt_eq (c : ClientImpl) (id : ℕ) : ∃ ongoingCalls promises call,
    c.ongoingAt id = ({ c with ongoingCalls, promises }, call) := by
  unfold ClientImpl.ongoingAt
  split
  · exact ⟨_, _, _, rfl⟩
  · exact ⟨_, _, _, rfl⟩

theorem abandon_broken (s : Store CallResult) (p : ℕ) :
    ∀ e ∈ (abandon s p).2, ∃ q, e = .resolved q .brokenPromise := by
  intro e he
  unfold abandon at he
  split at he
  · exact ⟨p, List.mem_singleton.mp he⟩
  · cases he

theorem abandonAll_broken (s : Store CallResult) (ps : List ℕ) :
    ∀ e ∈ (abandonAll s ps).2, ∃ q, e = .resolved q .brokenPromise := by
  induction ps generalizing s with
  | nil => nofun
  | cons p ps ih =>
    intro e he
    rw [abandonAll] at he
    rcases List.mem_append.mp he with hfirst | hrest
    · exact abandon_broken s p e hfirst
    · exact ih _ e hrest

theorem filterMap_broken {β : Type} {f : ClientEvent → Option β} {es : List ClientEvent}
    (hes : ∀ e ∈ es, ∃ q, e = .resolved q .brokenPromise)
    (hf : ∀ q, f (.resolved q .brokenPromise) = none) : es.filterMap f = [] := by
  rw [List.filterMap_eq_nil_iff]
  intro e he
  obtain ⟨q, rfl⟩ := hes e he
  exact hf q

/-- What a closure can do: it touches the map and the promises, and it may write a message. -/
inductive ClosureStep (c : ClientImpl) : ClientImpl × List ClientEvent → Prop
  | queued (ongoingCalls : AList fun _ : ℕ => OngoingCall) (promises : Store CallResult)
      (buffer : Bytes) {es : List ClientEvent}
      (hes : ∀ e ∈ es, ∃ q, e = .resolved q .brokenPromise) :
      ClosureStep c ({ c with ongoingCalls, promises, writer := c.writer.write buffer },
        es ++ [.writer (.queued buffer)])
  | erased (ongoingCalls : AList fun _ : ℕ => OngoingCall) (promises : Store CallResult)
      {es : List ClientEvent} (hes : ∀ e ∈ es, ∃ q, e = .resolved q .brokenPromise) :
      ClosureStep c ({ c with ongoingCalls, promises }, es)

theorem closureStep (c : ClientImpl) (closure : Closure) :
    ClosureStep c (c.runClosure closure) := by
  have hnone : ∀ e ∈ ([] : List ClientEvent), ∃ q, e = .resolved q .brokenPromise := nofun
  cases closure with
  | call idx funcName p buffer =>
    unfold ClientImpl.runClosure
    dsimp only
    split
    · exact .queued _ c.promises buffer hnone
    · exact .queued c.ongoingCalls _ buffer (abandon_broken _ _)
  | notify buffer => exact .queued c.ongoingCalls c.promises buffer hnone
  | erase id =>
    unfold ClientImpl.runClosure
    dsimp only
    split
    · exact .erased c.ongoingCalls c.promises hnone
    · exact .erased _ _ (abandon_broken _ _)

/-- What a turn of the read loop can do. -/
inductive NextStep (c : ClientImpl) : ClientImpl × List ClientEvent → Prop
  | incomplete (unpacker : Unpacker) : NextStep c ({ c with unpacker, phase := .reading }, [])
  | parseError : NextStep c ({ c with terminated := true }, [.terminated])
  | malformed (msg : Object) (unpacker : Unpacker) :
      NextStep c ({ c with unpacker, terminated := true }, [.responded msg, .terminated])
  | answered (msg : Object) (unpacker : Unpacker)
      (ongoingCalls : AList fun _ : ℕ => OngoingCall) (promises : Store CallResult) (id p : ℕ)
      (funcName : Bytes) (error result : Object) :
      NextStep c
        ({ c with unpacker, ongoingCalls, promises, strand := c.strand ++ [.erase id] },
          [.responded msg, .resolved p (resultFor funcName error result)])
  | repeated (msg : Object) (unpacker : Unpacker)
      (ongoingCalls : AList fun _ : ℕ => OngoingCall) (promises : Store CallResult) :
      NextStep c ({ c with unpacker, ongoingCalls, promises, terminated := true },
        [.responded msg, .terminated])

theorem nextStep (c : ClientImpl) : NextStep c c.next := by
  unfold ClientImpl.next
  cases c.unpacker.next with
  | incomplete u => exact .incomplete u
  | parseError => exact .parseError
  | object msg u =>
    dsimp only
    cases convertResponse msg with
    | none => exact .malformed msg u
    | some t =>
      obtain ⟨id, error, result⟩ := t
      obtain ⟨ongoing, promises, call, hat⟩ := ongoingAt_eq { c with unpacker := u } id
      simp only [hat]
      split
      · exact .answered msg u ongoing _ id call.promise call.funcName error result
      · exact .repeated msg u ongoing promises

/-- What an action does to the write queue by way of the socket. -/
def ClientAction.toWriter : ClientAction → Option WriterAction
  | .transfer count => some (.transfer count)
  | .written => some .written
  | .failed => some .failed
  | _ => none

/-- What a step of a client can do. -/
inductive ClientStep (c : ClientImpl) : ClientAction → ClientImpl → List ClientEvent → Prop
  | connected (hstate : c.state = .initial) :
      ClientStep c (.connect true) { c with isConnected := true, state := .connected } []
  | refused (hstate : c.state = .initial) :
      ClientStep c (.connect false) { c with state := .disconnected, connectionEc := true } []
  | call {funcName : Bytes} {args : List Object} (hopen : c.isConnected = true) :
      ClientStep c (.call funcName args) (c.takeNumber funcName args).1
        (c.takeNumber funcName args).2
  | post {i : ℕ} {n : Numbered} (hn : c.numbered[i]? = some n) :
      ClientStep c (.post i)
        { c with
          promises := c.promises ++ [{ retrieved := true }]
          numbered := c.numbered.eraseIdx i
          strand := c.strand ++ [.call n.idx n.funcName c.promises.length
            (packCall n.idx n.funcName n.args)] }
        [.issued c.promises.length n.idx n.funcName n.args]
  | send {funcName : Bytes} {args : List Object} :
      ClientStep c (.send funcName args)
        { c with strand := c.strand ++ [.notify (packNotification funcName args)] }
        [.notified funcName args]
  | strand {closure : Closure} {rest : List Closure} (hstrand : c.strand = closure :: rest) :
      ClientStep c .strand (ClientImpl.runClosure { c with strand := rest } closure).1
        (ClientImpl.runClosure { c with strand := rest } closure).2
  | receive {chunk : Bytes} (hopen : c.isConnected = true) (hphase : c.phase = .reading) :
      ClientStep c (.receive chunk)
        { c with unpacker := c.unpacker.bufferConsumed chunk, phase := .parsing }
        [.received chunk]
  | next (hphase : c.phase = .parsing) : ClientStep c .next c.next.1 c.next.2
  | exhausts {a : ClientAction} (hphase : c.phase = .parsing)
      (ha : a = .noMemory ∧ c.unpacker.opens = true ∨ a = .overflow ∧ c.nested = true) :
      ClientStep c a { c with exhausted := true } []
  | readError {known : Bool} (hopen : c.isConnected = true) (hphase : c.phase = .reading) :
      ClientStep c (.readError known)
        { c with phase := .ended, state := if known then .disconnected else c.state } []
  | io {a : ClientAction} {b : WriterAction} {w : AsyncWriter} {ws : List WriterEvent}
      (hwrite : ∀ data, b ≠ .write data) (hclose : b ≠ .close)
      (hw : c.writer.step b = some (w, ws)) (ha : a.toWriter = some b) :
      ClientStep c a { c with writer := w } (ws.map .writer)
  | destroy (hphase : c.phase ≠ .parsing) :
      ClientStep c .destroy c.destroy.1 c.destroy.2

theorem clientStep_io {c c' : ClientImpl} {a : ClientAction} {b : WriterAction}
    {es : List ClientEvent} (hwrite : ∀ data, b ≠ .write data) (hclose : b ≠ .close)
    (hio : c.io b = some (c', es)) (ha : a.toWriter = some b) : ClientStep c a c' es := by
  rw [ClientImpl.io, Option.map_eq_some_iff] at hio
  obtain ⟨⟨w, ws⟩, hw, heq⟩ := hio
  cases heq
  exact .io hwrite hclose hw ha

theorem clientStep_of_step {c c' : ClientImpl} {a : ClientAction} {es : List ClientEvent}
    (hstep : c.step a = some (c', es)) :
    c.terminated = false ∧ c.destroyed = false ∧ ClientStep c a c' es := by
  rw [ClientImpl.step, Option.ite_none_right_eq_some] at hstep
  obtain ⟨⟨halive, hstay, -⟩, hact⟩ := hstep
  refine ⟨halive, hstay, ?_⟩
  cases a with
  | connect ok =>
    rw [ClientImpl.act, Option.ite_none_right_eq_some] at hact
    obtain ⟨hstate, hact⟩ := hact
    cases ok with
    | true =>
      cases hact
      exact .connected hstate
    | false =>
      cases hact
      exact .refused hstate
  | call funcName args =>
    rw [ClientImpl.act, Option.ite_none_right_eq_some] at hact
    cases hact.2
    exact .call hact.1
  | post i =>
    rw [ClientImpl.act, Option.map_eq_some_iff] at hact
    obtain ⟨n, hn, heq⟩ := hact
    simp only [ClientImpl.post, create_getFuture] at heq
    cases heq
    exact .post hn
  | send funcName args =>
    cases hact
    exact .send
  | strand =>
    rw [ClientImpl.act] at hact
    cases hstrand : c.strand with
    | nil =>
      rw [hstrand] at hact
      cases hact
    | cons closure rest =>
      rw [hstrand] at hact
      have hrun := ClientStep.strand hstrand
      rw [Option.some.inj hact] at hrun
      exact hrun
  | receive chunk =>
    rw [ClientImpl.act, Option.ite_none_right_eq_some] at hact
    cases hact.2
    exact .receive hact.1.1 hact.1.2
  | next =>
    rw [ClientImpl.act, Option.ite_none_right_eq_some] at hact
    have hnext := ClientStep.next hact.1
    rw [Option.some.inj hact.2] at hnext
    exact hnext
  | noMemory =>
    rw [ClientImpl.act, Option.ite_none_right_eq_some] at hact
    cases hact.2
    exact .exhausts hact.1.1 (.inl ⟨rfl, hact.1.2⟩)
  | overflow =>
    rw [ClientImpl.act, Option.ite_none_right_eq_some] at hact
    cases hact.2
    exact .exhausts hact.1.1 (.inr ⟨rfl, hact.1.2⟩)
  | readError known =>
    rw [ClientImpl.act, Option.ite_none_right_eq_some] at hact
    cases hact.2
    exact .readError hact.1.1 hact.1.2
  | transfer count =>
    rw [ClientImpl.act, Option.ite_none_right_eq_some] at hact
    exact clientStep_io (by simp) (by simp) hact.2 rfl
  | written => exact clientStep_io (by simp) (by simp) hact rfl
  | failed => exact clientStep_io (by simp) (by simp) hact rfl
  | destroy =>
    rw [ClientImpl.act, Option.ite_none_right_eq_some] at hact
    have hdestroy := ClientStep.destroy hact.1.1
    rw [Option.some.inj hact.2] at hdestroy
    exact hdestroy

end PromiseDemo.Rpc
