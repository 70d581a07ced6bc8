import PromiseDemo.Server.Server

/-!
# The server of `promise_server_asio`

`server::do_accept` starts an accept whose handler hands `socket_` over to a new session and calls
`do_accept` again.  The handler runs on one of the threads that call `io.run()`.  Three of its calls
on the accepted socket throw when they fail; nothing in the handler or in `io.run()` catches.
-/

namespace PromiseDemo

open Transition PrefixCode

/-- An `async_accept` into `socket_` whose handler has not begun. -/
inductive AcceptOp
  | outstanding
  /-- Completed, without an error if `ok`. -/
  | completed (ok : Bool)
  deriving DecidableEq, Repr

/-- The calls of the handler, each about to come next. -/
inductive HandlerPoint
  /-- `socket_.set_option(tcp::no_delay(true))` -/
  | setOption
  /-- The description, with `local_endpoint()`, `remote_endpoint()` and `++client_count_`. -/
  | describe
  /-- `std::make_shared<session>(std::move(socket_), description)->start()`; `number` is the
  client's in the description. -/
  | start (number : ℕ)
  /-- The last statement, `do_accept()`. -/
  | doAccept
  deriving DecidableEq, Repr

/-- A running handler of an accept; the thread that called `main` is number 0. -/
structure AcceptHandler where
  thread : ℕ
  point : HandlerPoint
  deriving DecidableEq, Repr

/-- A `session` that has been started. -/
structure AsioClient where
  sock : ℕ
  number : ℕ
  session : Session

inductive ProcessEnd
  /-- `std::terminate` -/
  | terminated
  /-- `main` has returned. -/
  | returned (code : ℕ)
  deriving DecidableEq, Repr

/-- The members of `server`, its operations and handlers, the sessions, and `thread_count`. -/
structure AsioServer where
  threads : ℕ
  socket : Option ℕ := none
  clientCount : ℕ := 0
  accepts : List AcceptOp := []
  handlers : List AcceptHandler := []
  clients : List AsioClient := []
  ended : Option ProcessEnd := none

/-- A call of the handler with its outcome. -/
inductive HandlerOp
  | setOption (ok : Bool)
  | describe (localOk remoteOk : Bool)
  | start
  | doAccept
  deriving DecidableEq, Repr

/-- Operations, handlers and sessions are numbered in the order in which they were started. -/
inductive AsioAction
  /-- The operating system completes an accept with a socket or an error. -/
  | acceptCompletes (k : ℕ) (result : Option ℕ)
  /-- A thread runs the handler of an accept. -/
  | runAccept (k thread : ℕ)
  | handler (j : ℕ) (op : HandlerOp)
  | session (i : ℕ) (a : SessionAction)
  deriving DecidableEq, Repr

/-- A call on the accepted socket fails. -/
def AsioAction.callFails : AsioAction → Bool
  | .handler _ (.setOption ok) => !ok
  | .handler _ (.describe localOk remoteOk) => !(localOk && remoteOk)
  | _ => false

inductive AsioEvent
  | accepted (sock : ℕ)
  | acceptFailed
  /-- The socket of an accept was closed at once, `socket_` being open. -/
  | refused (sock : ℕ)
  | started (number sock : ℕ)
  /-- An exception left `io.run()`. -/
  | threw
  | session (number : ℕ) (e : ServerEvent)
  deriving DecidableEq, Repr

namespace AsioServer

/-- `do_accept`; an accept into an open socket completes with an error. -/
def doAccept (s : AsioServer) : AsioServer :=
  { s with accepts := s.accepts ++ [if s.socket.isSome then .completed false else .outstanding] }

/-- The server as its constructor leaves it, with `std::max(1u, cores)` threads. -/
def start (cores : ℕ) : AsioServer := doAccept { threads := max 1 cores }

/-- An exception leaves handler `j` and `io.run()`.  Nothing catches it in the threads of the pool;
in the main thread the way to the `catch` destroys the joinable threads of the pool, if any. -/
def throwFrom (s : AsioServer) (j thread : ℕ) : AsioServer × List AsioEvent :=
  ({ s with
    handlers := s.handlers.eraseIdx j
    ended := some (if thread = 0 ∧ s.threads = 1 then .returned 1 else .terminated) }, [.threw])

/-- The handler goes on at another point. -/
def goOn (s : AsioServer) (j thread : ℕ) (point : HandlerPoint) : AsioServer :=
  { s with handlers := s.handlers.set j ⟨thread, point⟩ }

/-- A call of handler `j`.  The order in which the operands of the description are evaluated is
unspecified; after an exception `client_count_` is not used. -/
def handlerStep (s : AsioServer) (j : ℕ) :
    AcceptHandler → HandlerOp → Option (AsioServer × List AsioEvent)
  | ⟨thread, .setOption⟩, .setOption ok =>
      some (if ok then (s.goOn j thread .describe, []) else s.throwFrom j thread)
  | ⟨thread, .describe⟩, .describe localOk remoteOk =>
      some (if localOk && remoteOk then
          (goOn { s with clientCount := s.clientCount + 1 } j thread
            (.start (s.clientCount + 1)), [])
        else s.throwFrom j thread)
  | ⟨thread, .start number⟩, .start =>
      -- `std::move` leaves `socket_` closed
      s.socket.map fun sock =>
        (goOn { s with
          socket := none
          clients := s.clients ++ [⟨sock, number, Session.start⟩] } j thread .doAccept,
          [.started number sock])
  | ⟨_, .doAccept⟩, .doAccept => some ({ s with handlers := s.handlers.eraseIdx j }.doAccept, [])
  | _, _ => none

/-- The transition function of the process. -/
def step : StepFn AsioServer AsioAction AsioEvent
  | s, a =>
    if s.ended.isSome then none
    else
      match a with
      | .acceptCompletes k result =>
          if s.accepts[k]? = some .outstanding then
            match result with
            | some sock =>
                if s.socket.isSome then
                  some ({ s with accepts := s.accepts.set k (.completed false) },
                    [.accepted sock, .refused sock])
                else
                  some ({ s with
                    socket := some sock
                    accepts := s.accepts.set k (.completed true) }, [.accepted sock])
            | none =>
                some ({ s with accepts := s.accepts.set k (.completed false) }, [.acceptFailed])
          else none
      | .runAccept k thread =>
          match s.accepts[k]? with
          | some (.completed ok) =>
              if thread < s.threads then
                some ({ s with
                  accepts := s.accepts.eraseIdx k
                  handlers := s.handlers ++ [⟨thread, if ok then .setOption else .doAccept⟩] }, [])
              else none
          | _ => none
      | .handler j op => (s.handlers[j]?).bind fun handler => s.handlerStep j handler op
      | .session i a =>
          (s.clients[i]?).bind fun client =>
            (client.session.step a).map fun q =>
              ({ s with clients := s.clients.set i { client with session := q.1 } },
                q.2.map (.session client.number))

end AsioServer

/-! ## What one step can do -/

inductive AsioStep (s : AsioServer) : AsioAction → AsioServer → List AsioEvent → Prop
  | acceptFailed {k : ℕ} (hk : s.accepts[k]? = some .outstanding) :
      AsioStep s (.acceptCompletes k none)
        { s with accepts := s.accepts.set k (.completed false) } [.acceptFailed]
  | accepted {k sock : ℕ} (hk : s.accepts[k]? = some .outstanding) (hs : s.socket = none) :
      AsioStep s (.acceptCompletes k (some sock))
        { s with socket := some sock, accepts := s.accepts.set k (.completed true) }
        [.accepted sock]
  | refused {k sock other : ℕ} (hk : s.accepts[k]? = some .outstanding)
      (hs : s.socket = some other) :
      AsioStep s (.acceptCompletes k (some sock))
        { s with accepts := s.accepts.set k (.completed false) } [.accepted sock, .refused sock]
  | begins {k thread : ℕ} {ok : Bool} (hk : s.accepts[k]? = some (.completed ok)) :
      AsioStep s (.runAccept k thread)
        { s with
          accepts := s.accepts.eraseIdx k
          handlers := s.handlers ++ [⟨thread, if ok then .setOption else .doAccept⟩] } []
  | optionSet {j thread : ℕ} (hj : s.handlers[j]? = some ⟨thread, .setOption⟩) :
      AsioStep s (.handler j (.setOption true)) (s.goOn j thread .describe) []
  | described {j thread : ℕ} (hj : s.handlers[j]? = some ⟨thread, .describe⟩) :
      AsioStep s (.handler j (.describe true true))
        (AsioServer.goOn { s with clientCount := s.clientCount + 1 } j thread
          (.start (s.clientCount + 1))) []
  | started {j thread number sock : ℕ} (hj : s.handlers[j]? = some ⟨thread, .start number⟩)
      (hs : s.socket = some sock) :
      AsioStep s (.handler j .start)
        (AsioServer.goOn { s with
          socket := none
          clients := s.clients ++ [⟨sock, number, Session.start⟩] } j thread .doAccept)
        [.started number sock]
  | ended {j thread : ℕ} (hj : s.handlers[j]? = some ⟨thread, .doAccept⟩) :
      AsioStep s (.handler j .doAccept)
        { s with handlers := s.handlers.eraseIdx j }.doAccept []
  | threw {a : AsioAction} {j thread : ℕ} (ha : a.callFails = true) :
      AsioStep s a (s.throwFrom j thread).1 (s.throwFrom j thread).2
  | session {i : ℕ} {client : AsioClient} {a : SessionAction} {session : Session}
      {es : List ServerEvent} (hi : s.clients[i]? = some client)
      (h : client.session.step a = some (session, es)) :
      AsioStep s (.session i a)
        { s with clients := s.clients.set i { client with session } }
        (es.map (.session client.number))

theorem AsioStep.of_handlerStep {s t : AsioServer} {j : ℕ} {handler : AcceptHandler}
    {op : HandlerOp} {es : List AsioEvent} (hj : s.handlers[j]? = some handler)
    (h : s.handlerStep j handler op = some (t, es)) : AsioStep s (.handler j op) t es := by
  obtain ⟨thread, point⟩ := handler
  cases point <;> cases op <;> simp only [AsioServer.handlerStep, reduceCtorEq] at h
  case setOption.setOption ok =>
    cases ok with
    | true => cases h; exact .optionSet hj
    | false => cases h; exact .threw rfl
  case describe.describe localOk remoteOk =>
    cases hok : localOk && remoteOk with
    | true =>
      obtain ⟨rfl, rfl⟩ := (Bool.and_eq_true _ _).mp hok
      cases h
      exact .described hj
    | false =>
      rw [hok] at h
      cases h
      exact .threw (by rw [AsioAction.callFails, hok]; rfl)
  case start.start number =>
    obtain ⟨sock, hs, h⟩ := Option.map_eq_some_iff.mp h
    cases h
    exact .started hj hs
  case doAccept.doAccept => cases h; exact .ended hj

theorem AsioStep.of_step {s t : AsioServer} {a : AsioAction} {es : List AsioEvent}
    (h : s.step a = some (t, es)) : s.ended = none ∧ AsioStep s a t es := by
  simp only [AsioServer.step, Option.ite_none_left_eq_some, Bool.not_eq_true,
    Option.isSome_eq_false_iff, Option.isNone_iff_eq_none] at h
  obtain ⟨hended, h⟩ := h
  refine ⟨hended, ?_⟩
  cases a with
  | acceptCompletes k result =>
    simp only [Option.ite_none_right_eq_some] at h
    obtain ⟨hk, h⟩ := h
    cases result with
    | none => cases h; exact .acceptFailed hk
    | some sock =>
      simp only at h
      split at h
      · rename_i hs
        obtain ⟨other, hs⟩ := Option.isSome_iff_exists.mp hs
        cases h
        exact .refused hk hs
      · rename_i hs
        rw [Bool.not_eq_true, Option.isSome_eq_false_iff, Option.isNone_iff_eq_none] at hs
        cases h
        exact .accepted hk hs
  | runAccept k thread =>
    simp only at h
    split at h
    · simp only [Option.ite_none_right_eq_some] at h
      obtain ⟨-, h⟩ := h
      cases h
      exact .begins ‹_›
    · cases h
  | handler j op =>
    obtain ⟨handler, hj, h⟩ := Option.bind_eq_some_iff.mp h
    exact .of_handlerStep hj h
  | session i a =>
    obtain ⟨client, hi, h⟩ := Option.bind_eq_some_iff.mp h
    obtain ⟨q, hq, he⟩ := Option.map_eq_some_iff.mp h
    cases he
    exact .session hi hq

/-! ## The accept -/

/-- What an accept has yielded. -/
def AsioEvent.socks : AsioEvent → List ℕ
  | .accepted sock => [sock]
  | _ => []

/-- The sockets of the clients accepted, in order. -/
def acceptedSocks (h : List AsioEvent) : List ℕ := h.flatMap AsioEvent.socks

@[simp] theorem acceptedSocks_append (h k : List AsioEvent) :
    acceptedSocks (h ++ k) = acceptedSocks h ++ acceptedSocks k := List.flatMap_append

@[simp] theorem acceptedSocks_session (number : ℕ) (es : List ServerEvent) :
    acceptedSocks (es.map (.session number)) = [] := by
  simp [acceptedSocks, List.flatMap_map, AsioEvent.socks]

/-- Where the one accept is, with what its handler has of `socket_`. -/
inductive Accepting : List AcceptOp → List AcceptHandler → Option ℕ → Prop
  | outstanding : Accepting [.outstanding] [] none
  | accepted {sock : ℕ} : Accepting [.completed true] [] (some sock)
  | failed : Accepting [.completed false] [] none
  | handling {thread sock : ℕ} {point : HandlerPoint} (hp : point ≠ .doAccept) :
      Accepting [] [⟨thread, point⟩] (some sock)
  | ending {thread : ℕ} : Accepting [] [⟨thread, .doAccept⟩] none

/-- The invariant of the process. -/
structure Armed (h : List AsioEvent) (s : AsioServer) : Prop where
  accepting : s.ended = none → Accepting s.accepts s.handlers s.socket
  calm : s.ended = none → .threw ∉ h
  placed : acceptedSocks h = s.clients.map AsioClient.sock ++ s.socket.toList

variable {h k es : List AsioEvent} {s t : AsioServer} {a : AsioAction} {as : List AsioAction}

namespace Accepting

variable {accepts : List AcceptOp} {handlers : List AcceptHandler} {socket : Option ℕ} {j : ℕ}

theorem at_zero {α : Type*} {x y : α} (hj : [x][j]? = some y) : j = 0 ∧ x = y := by
  rw [List.getElem?_singleton] at hj
  split at hj
  · exact ⟨‹_›, Option.some.inj hj⟩
  · cases hj

theorem of_outstanding (ha : Accepting accepts handlers socket)
    (hj : accepts[j]? = some .outstanding) :
    j = 0 ∧ accepts = [.outstanding] ∧ handlers = [] ∧ socket = none := by
  cases ha with
  | outstanding => exact ⟨(at_zero hj).1, rfl, rfl, rfl⟩
  | accepted => cases (at_zero hj).2
  | failed => cases (at_zero hj).2
  | handling => simp at hj
  | ending => simp at hj

theorem of_completed {ok : Bool} (ha : Accepting accepts handlers socket)
    (hj : accepts[j]? = some (.completed ok)) :
    j = 0 ∧ accepts = [.completed ok] ∧ handlers = [] ∧ socket.isSome = ok := by
  cases ha with
  | outstanding => cases (at_zero hj).2
  | accepted =>
    obtain ⟨rfl, hok⟩ := at_zero hj
    cases hok
    exact ⟨rfl, rfl, rfl, rfl⟩
  | failed =>
    obtain ⟨rfl, hok⟩ := at_zero hj
    cases hok
    exact ⟨rfl, rfl, rfl, rfl⟩
  | handling => simp at hj
  | ending => simp at hj

theorem of_handler {handler : AcceptHandler} (ha : Accepting accepts handlers socket)
    (hj : handlers[j]? = some handler) :
    j = 0 ∧ accepts = [] ∧ handlers = [handler] ∧
      (socket.isSome = true ↔ handler.point ≠ .doAccept) := by
  cases ha with
  | handling hp =>
    obtain ⟨rfl, rfl⟩ := at_zero hj
    exact ⟨rfl, rfl, rfl, iff_of_true rfl hp⟩
  | ending =>
    obtain ⟨rfl, rfl⟩ := at_zero hj
    exact ⟨rfl, rfl, rfl, iff_of_false Bool.false_ne_true fun hp => hp rfl⟩
  | _ => simp at hj

theorem socket_of_handler {handler : AcceptHandler} (ha : Accepting accepts handlers socket)
    (hj : handlers[j]? = some handler) (hp : handler.point ≠ .doAccept) :
    ∃ sock, socket = some sock :=
  Option.isSome_iff_exists.mp ((ha.of_handler hj).2.2.2.mpr hp)

theorem step (ha : Accepting s.accepts s.handlers s.socket) (hstep : AsioStep s a t es)
    (ht : t.ended = none) : Accepting t.accepts t.handlers t.socket := by
  obtain ⟨threads, socket, clientCount, accepts, handlers, clients, ended⟩ := s
  dsimp only at ha
  cases hstep with
  | acceptFailed hk =>
    obtain ⟨rfl, rfl, rfl, rfl⟩ := ha.of_outstanding hk
    exact .failed
  | accepted hk hs =>
    obtain ⟨rfl, rfl, rfl, -⟩ := ha.of_outstanding hk
    exact .accepted
  | refused hk hs => cases (ha.of_outstanding hk).2.2.2.symm.trans hs
  | @begins _ thread ok hk =>
    obtain ⟨rfl, rfl, rfl, hsock⟩ := ha.of_completed hk
    cases ok with
    | true =>
      obtain ⟨sock, rfl⟩ := Option.isSome_iff_exists.mp hsock
      exact .handling HandlerPoint.noConfusion
    | false =>
      obtain rfl := Option.isNone_iff_eq_none.mp (Option.isSome_eq_false_iff.mp hsock)
      exact .ending
  | optionSet hj =>
    obtain ⟨sock, rfl⟩ := ha.socket_of_handler hj HandlerPoint.noConfusion
    obtain ⟨rfl, rfl, rfl, -⟩ := ha.of_handler hj
    exact .handling HandlerPoint.noConfusion
  | described hj =>
    obtain ⟨sock, rfl⟩ := ha.socket_of_handler hj HandlerPoint.noConfusion
    obtain ⟨rfl, rfl, rfl, -⟩ := ha.of_handler hj
    exact .handling HandlerPoint.noConfusion
  | started hj hs =>
    obtain ⟨rfl, rfl, rfl, -⟩ := ha.of_handler hj
    exact .ending
  | ended hj =>
    obtain ⟨rfl, rfl, rfl, hsock⟩ := ha.of_handler hj
    cases socket with
    | none => exact .outstanding
    | some sock => exact absurd rfl (hsock.mp rfl)
  | threw => cases ht
  | session hi hs => exact ha

end Accepting

theorem Armed.start (cores : ℕ) : Armed [] (AsioServer.start cores) where
  accepting _ := .outstanding
  calm _ hmem := by cases hmem
  placed := rfl

theorem Armed.placed_step (ha : Accepting s.accepts s.handlers s.socket)
    (hp : acceptedSocks h = s.clients.map AsioClient.sock ++ s.socket.toList)
    (hstep : AsioStep s a t es) :
    acceptedSocks (h ++ es) = t.clients.map AsioClient.sock ++ t.socket.toList := by
  rw [acceptedSocks_append, hp]
  cases hstep with
  | accepted hk hs =>
    rw [hs, Option.toList_none, List.append_nil]
    rfl
  | refused hk hs => cases hs.symm.trans (ha.of_outstanding hk).2.2.2
  | started hj hs => simp [AsioServer.goOn, hs, acceptedSocks, AsioEvent.socks]
  | session hi hs =>
    rw [acceptedSocks_session, List.append_nil]
    exact congrArg (· ++ s.socket.toList) (Eq.symm (map_set_same hi rfl))
  | _ => exact List.append_nil _

theorem AsioStep.calm (hstep : AsioStep s a t es) (ht : t.ended = none) : .threw ∉ es := by
  cases hstep with
  | threw => cases ht
  | session => simp
  | _ => simp

theorem Armed.step (ha : Armed h s) (hstep : s.step a = some (t, es)) : Armed (h ++ es) t := by
  obtain ⟨hs, hstep⟩ := AsioStep.of_step hstep
  refine ⟨(ha.accepting hs).step hstep, ?_,
    Armed.placed_step (ha.accepting hs) ha.placed hstep⟩
  intro ht hmem
  rcases List.mem_append.mp hmem with hmem | hmem
  · exact ha.calm hs hmem
  · exact hstep.calm ht hmem

theorem Armed.run {cores : ℕ} (hrun : Run AsioServer.step anyAction (AsioServer.start cores) h s) :
    Armed h s :=
  hrun.invariant (I := Armed) (.start cores) fun ha _ hstep => ha.step hstep

end PromiseDemo
