import PromiseDemo.Server.AsioServer

/-!
# The accept loop of `promise_server_asio`

Whether the server goes on accepting clients, whatever its accepts yield and whatever the calls of
the handler on an accepted socket return.
-/

namespace PromiseDemo

open Transition

def AsioAction.ofHandler : AsioAction → Bool
  | .handler _ _ => true
  | _ => false

/-- The handler goes on, and its calls succeed. -/
def AsioServer.handling (_ : AsioServer) (a : AsioAction) : Prop :=
  a.ofHandler = true ∧ a.callFails = false

/-- The running handler of an accept can come to its end, with the next accept outstanding. -/
def AsioServer.Ends (s : AsioServer) : Prop :=
  ∃ k t, Run AsioServer.step AsioServer.handling s k t ∧ t.handlers = [] ∧
    t.accepts = [.outstanding]

/-- The server after history `h` accepts the next client. -/
structure KeepsAccepting (h : List AsioEvent) (s : AsioServer) : Prop where
  running : s.ended = none
  /-- No exception has left `io.run()`. -/
  calm : .threw ∉ h
  /-- One `async_accept` is pending, or the handler of the last one is running. -/
  armed : s.accepts.length + s.handlers.length = 1
  ends : s.handlers ≠ [] → s.Ends
  /-- A pending accept has the socket object for itself. -/
  empty : s.accepts = [.outstanding] → s.socket = none
  /-- Each socket accepted is that of one session, but for the one being handed over. -/
  placed : acceptedSocks h = s.clients.map AsioClient.sock ++ s.socket.toList

variable {h k es : List AsioEvent} {s t : AsioServer} {a : AsioAction} {as : List AsioAction}

/-! ## The end of the process -/

theorem AsioStep.ended_iff (hstep : AsioStep s a t es) (hs : s.ended = none) :
    t.ended = none ↔ a.callFails = false := by
  cases hstep with
  | threw ha =>
    rw [ha]
    exact iff_of_false (fun hnone => by cases hnone) Bool.noConfusion
  | _ => exact iff_of_true hs rfl

theorem AsioServer.exec_ended (hs : s.ended ≠ none)
    (hexec : exec AsioServer.step anyAction s as = some (t, h)) : t = s := by
  cases as with
  | nil => exact (exec_nil_eq_some.mp hexec).1
  | cons a as =>
    obtain ⟨u, es, k, -, hstep, -⟩ := exec_cons_eq_some.mp hexec
    exact absurd (AsioStep.of_step hstep).1 hs

/-- The process lives exactly as long as no call fails. -/
theorem AsioServer.ended_iff (hs : s.ended = none)
    (hexec : exec AsioServer.step anyAction s as = some (t, h)) :
    t.ended = none ↔ ∀ a ∈ as, a.callFails = false := by
  induction as generalizing s h with
  | nil =>
    rw [(exec_nil_eq_some.mp hexec).1]
    exact iff_of_true hs fun a ha => by cases ha
  | cons a as ih =>
    obtain ⟨u, es, k, -, hstep, hrest, -⟩ := exec_cons_eq_some.mp hexec
    have hu := (AsioStep.of_step hstep).2.ended_iff hs
    rw [List.forall_mem_cons, ← hu]
    constructor
    · intro ht
      have hopen : u.ended = none := by
        by_contra hended
        rw [exec_ended hended hrest] at ht
        exact hended ht
      exact ⟨hopen, (ih hopen hrest).mp ht⟩
    · rintro ⟨hopen, hall⟩
      exact (ih hopen hrest).mpr hall

/-! ## The handler comes to its end -/

theorem AsioServer.Ends.of_step (hstep : s.step a = some (t, es)) (ha : s.handling a)
    (ht : t.Ends) : s.Ends := by
  obtain ⟨k, u, hrun, hend⟩ := ht
  exact ⟨es ++ k, u, (Run.single ha hstep).trans hrun, hend⟩

theorem Accepting.ends (ha : Accepting s.accepts s.handlers s.socket) (hs : s.ended = none)
    (hrunning : s.handlers ≠ []) : s.Ends := by
  obtain ⟨threads, socket, clientCount, accepts, handlers, clients, ended⟩ := s
  obtain rfl : ended = none := hs
  have fromEnd : ∀ thread clientCount clients,
      AsioServer.Ends ⟨threads, none, clientCount, [], [⟨thread, .doAccept⟩], clients, none⟩ := by
    intro thread clientCount clients
    exact ⟨_, _, .single (a := .handler 0 .doAccept) ⟨rfl, rfl⟩ rfl, rfl, rfl⟩
  have fromStart : ∀ thread sock clientCount number,
      AsioServer.Ends
        ⟨threads, some sock, clientCount, [], [⟨thread, .start number⟩], clients, none⟩ := by
    intro thread sock clientCount number
    exact .of_step (a := .handler 0 .start) rfl ⟨rfl, rfl⟩ (fromEnd _ _ _)
  have fromDescribe : ∀ thread sock,
      AsioServer.Ends
        ⟨threads, some sock, clientCount, [], [⟨thread, .describe⟩], clients, none⟩ := by
    intro thread sock
    exact .of_step (a := .handler 0 (.describe true true)) rfl ⟨rfl, rfl⟩ (fromStart _ _ _ _)
  cases ha with
  | outstanding => exact absurd rfl hrunning
  | accepted => exact absurd rfl hrunning
  | failed => exact absurd rfl hrunning
  | ending => exact fromEnd _ _ _
  | @handling thread sock point hp =>
    cases point with
    | setOption =>
      exact .of_step (a := .handler 0 (.setOption true)) rfl ⟨rfl, rfl⟩ (fromDescribe _ _)
    | describe => exact fromDescribe _ _
    | start number => exact fromStart _ _ _ _
    | doAccept => exact absurd rfl hp

theorem Armed.keepsAccepting (ha : Armed h s) (hs : s.ended = none) : KeepsAccepting h s where
  running := hs
  calm := ha.calm hs
  armed := by
    have hacc := ha.accepting hs
    generalize s.accepts = accepts, s.handlers = handlers, s.socket = socket at hacc
    cases hacc <;> rfl
  ends := (ha.accepting hs).ends hs
  empty hout := by
    have hpending : s.accepts[0]? = some .outstanding := by
      rw [hout]
      rfl
    exact ((ha.accepting hs).of_outstanding hpending).2.2.2
  placed := ha.placed

/-- The server keeps accepting exactly as long as no `set_option`, `local_endpoint` or
`remote_endpoint` of the handler fails on an accepted socket: nothing catches their exceptions. -/
theorem keeps_accepting_iff {cores : ℕ}
    (hexec : exec AsioServer.step anyAction (AsioServer.start cores) as = some (s, h)) :
    KeepsAccepting h s ↔ ∀ a ∈ as, a.callFails = false := by
  rw [← AsioServer.ended_iff rfl hexec]
  constructor
  · intro hk
    exact hk.running
  · intro hs
    exact (Armed.run (Run.of_exec hexec)).keepsAccepting hs

/-- A client is accepted and its session started. -/
private def firstClient : List AsioAction :=
  [.acceptCompletes 0 (some 7), .runAccept 0 1, .handler 0 (.setOption true),
    .handler 0 (.describe true true), .handler 0 .start, .handler 0 .doAccept]

/-- An accept that fails, and a client after it. -/
theorem keeps_accepting_error :
    let q := afterAll AsioServer.step anyAction (AsioServer.start 4)
      ([.acceptCompletes 0 none, .runAccept 0 2, .handler 0 .doAccept] ++ firstClient)
    q.1.clients.map AsioClient.sock = [7] ∧ q.1.accepts = [.outstanding] ∧
      KeepsAccepting q.2 q.1 := by
  intro q
  have hexec := exec_eq_afterAll AsioServer.step anyAction (AsioServer.start 4)
    ([.acceptCompletes 0 none, .runAccept 0 2, .handler 0 .doAccept] ++ firstClient) (by decide)
  exact ⟨by decide, by decide, (keeps_accepting_iff hexec).mpr (by decide)⟩

/-- The second client has disconnected when the handler asks for its endpoint.  The process ends,
and with it the session of the first. -/
theorem keeps_accepting_disconnected :
    let as := firstClient ++ [.acceptCompletes 0 (some 8), .runAccept 0 1,
      .handler 0 (.setOption true), .handler 0 (.describe true false)]
    let q := afterAll AsioServer.step anyAction (AsioServer.start 4) as
    Run AsioServer.step anyAction (AsioServer.start 4) q.2 q.1 ∧
      q.1.clients.map AsioClient.sock = [7] ∧ q.1.accepts = [] ∧ q.1.handlers = [] ∧
      q.1.ended = some .terminated ∧ ¬ KeepsAccepting q.2 q.1 := by
  intro as q
  have hended : q.1.ended = some .terminated := by decide
  refine ⟨Run.of_actions _ _ _ _ (by decide), by decide, by decide, by decide, hended, ?_⟩
  intro hk
  cases hended.symm.trans hk.running

end PromiseDemo
