import PromiseDemo.Rpc.Dispatcher

/-!
# What a worker does with a message

The task that a session posts for each message: it clears the thread's handler state, dispatches
the message and decides what to send.  An exception that leaves the task leaves the worker's
`io_service::run` as well, and ends the process.
-/

namespace PromiseDemo.Rpc

open MsgPack

/-- `is_nil`. -/
def isNil : Object → Bool
  | .nil => true
  | _ => false

/-- `capture_result`.  Only the object is copied: what it points to stays in the zone of the
handle, with the thread. -/
def Response.captureResult (r : Response) (o : Object) : Response := { r with result := some o }

/-- `capture_error`, which copies the object alone as well; `none` is where it dereferences the
null pointer that it has just stored in `error_`. -/
def Response.captureError (r : Response) (o : Object) : Option Response :=
  match r.error with
  | none => none
  | some _ => some { r with error := some o }

namespace ThisHandler

/-- `error_.get()` and `resp_.get()`. -/
def get (handler : ThisHandler) : Slot → Object
  | .error => handler.error.getD .nil
  | .resp => handler.resp.getD .nil

/-- Has the function set the object anew?  The zone of the one before is freed then. -/
def sets (handler : ThisHandler) : Slot → Bool
  | .error => handler.error.isSome
  | .resp => handler.resp.isSome

/-- The slot whose object is captured. -/
def captured (handler : ThisHandler) : Option Slot :=
  if isNil (handler.get .error) = false then some .error
  else if isNil (handler.get .resp) = false then some .resp
  else none

/-- The slot into whose zone a captured object points. -/
def lends (handler : ThisHandler) : Option Slot :=
  handler.captured.filter fun slot => (handler.get slot).inZone

@[simp] theorem captured_cleared : ({} : ThisHandler).captured = none := rfl

theorem captured_eq_error {handler : ThisHandler} :
    handler.captured = some .error ↔ isNil (handler.get .error) = false := by
  unfold captured
  split_ifs with herror hresp <;> simp [herror]

end ThisHandler

/-- How a task ends: with the process, or with a response to write, if any, and the requests to
close the session and all sessions. -/
inductive TaskOutcome
  | terminated
  | finished (reply : Option Response) (exit stop : Bool)

/-- A server as its workers see it. -/
structure Config where
  overlay : Object → ℕ
  funcs : Funcs
  suppressExceptions : Bool := false

/-- The precedence of what a task may send: an error that the handler has set, a special response,
the response of the dispatcher. -/
def Response.capture (r : Response) (handler : ThisHandler) : Option Response :=
  match handler.captured with
  | some .error => r.captureError (handler.get .error)
  | some .resp => some (r.captureResult (handler.get .resp))
  | none => some r

/-- The end of the task.  With the response disabled it returns before it looks at the requests
to close. -/
def FuncRun.finish (run : FuncRun) (resp : Response) : TaskOutcome :=
  if run.handler.respEnabled = false then .finished none false false
  else
    match resp.capture run.handler with
    | none => .terminated
    | some r => .finished (if r.isEmpty then none else some r) run.exit run.stop

/-- What the function that the message names, if any, leaves in `this_handler`. -/
def Config.handler (c : Config) (msg : Object) : ThisHandler :=
  ((dispatch c.overlay c.funcs c.suppressExceptions msg).run.getD { result := .ok .nil }).handler

/-- The lambda that `do_read` posts. -/
def Config.serve (c : Config) (msg : Object) : TaskOutcome :=
  let d := dispatch c.overlay c.funcs c.suppressExceptions msg
  match d.response with
  | none => .terminated
  | some resp => (d.run.getD { result := .ok .nil }).finish resp

/-- The response that is written for a message, if any. -/
def Config.replyTo (c : Config) (msg : Object) : Option Response :=
  match c.serve msg with
  | .finished reply _ _ => reply
  | .terminated => none

/-- `response_type`, as an object. -/
def Response.toObject (r : Response) : Object :=
  .array [.positiveInteger 1, .positiveInteger r.id, r.error.getD .nil, r.result.getD .nil]

/-- Does packing the response recur on an object in an object? -/
def Response.nests (r : Response) : Bool := (r.error.getD .nil).nests || (r.result.getD .nil).nests

/-- `get_data`. -/
def Response.getData (r : Response) : Bytes :=
  packArray 4 ++ (packImpUint32 1 ++ (packImpUint32 r.id ++
    (pack (r.error.getD .nil) ++ pack (r.result.getD .nil))))

theorem Response.getData_eq {r : Response} (h : r.id < 2 ^ 32) : r.getData = pack r.toObject := by
  have huint : ∀ d : ℕ, d < 2 ^ 32 → packImpUint32 d = pack (.positiveInteger d) := by
    intro d hd
    rw [packImpUint32_eq hd, Object.ofInt, if_neg (by omega), Int.toNat_natCast]
  rw [getData, toObject, pack, packItems, packItems, packItems, packItems, packItems,
    huint 1 (by decide), huint r.id h, List.append_nil]
  rfl

/-! ## Calls and notifications -/

theorem convertCall_eq {msg : Object} {call : Call} (h : convertCall msg = some call) :
    ∃ type id name, msg = .array [type, id, name, call.args] ∧
      convertUint32 id = some call.id ∧ convertString name = some call.name := by
  unfold convertCall at h
  split at h
  · next type id name args =>
    simp only [Option.bind_eq_bind, Option.bind_eq_some_iff] at h
    obtain ⟨t, -, i, hid, n, hname, hcall⟩ := h
    cases hcall
    exact ⟨type, id, name, rfl, hid, hname⟩
  · cases h

theorem convertUint32_lt {o : Object} {n : ℕ} (h : convertUint32 o = some n) : n < 2 ^ 32 := by
  unfold convertUint32 convertUnsigned at h
  split at h
  · split_ifs at h
    cases h
    omega
  · cases h

theorem dispatch_response {c : Config} {msg : Object} {r : Response}
    (h : (dispatch c.overlay c.funcs c.suppressExceptions msg).response = some r)
    (hr : r.isEmpty = false) :
    ∃ call, convertCall msg = some call ∧ r.id = call.id ∧
      (r.error.isSome = true ∧ r.result = none ∨ r.error = none ∧ r.result.isSome = true) := by
  unfold dispatch at h
  split_ifs at h
  · unfold dispatchNotification at h
    split at h
    · cases h
    · split at h
      · cases h
        cases hr
      · next func _ =>
        dsimp only at h
        split at h
        · cases h
          cases hr
        · cases h
          cases hr
        · cases h
          cases hr
        · split_ifs at h
          cases h
          cases hr
  · unfold dispatchCall at h
    split at h
    · cases h
    · next call hcall =>
      refine ⟨call, hcall, ?_⟩
      dsimp only at h
      split at h
      · cases h
        exact ⟨rfl, .inl ⟨rfl, rfl⟩⟩
      · dsimp only at h
        split at h
        · cases h
          exact ⟨rfl, .inr ⟨rfl, rfl⟩⟩
        · cases h
          exact ⟨rfl, .inl ⟨rfl, rfl⟩⟩
        · split_ifs at h
          cases h
          exact ⟨rfl, .inl ⟨rfl, rfl⟩⟩
        · cases h
          exact ⟨rfl, .inl ⟨rfl, rfl⟩⟩
        · cases h
          exact ⟨rfl, .inl ⟨rfl, rfl⟩⟩
        · split_ifs at h
          cases h
          exact ⟨rfl, .inl ⟨rfl, rfl⟩⟩
  · cases h
    cases hr

/-- An error is set that the task will send. -/
def FuncRun.setsError (run : FuncRun) : Prop :=
  run.handler.respEnabled = true ∧ isNil (run.handler.get .error) = false

theorem finish_terminated_iff {run : FuncRun} {resp : Response} :
    run.finish resp = .terminated ↔ run.setsError ∧ resp.error = none := by
  unfold FuncRun.finish FuncRun.setsError
  cases henabled : run.handler.respEnabled with
  | false => simp
  | true =>
    rw [if_neg (by simp), Response.capture, ← ThisHandler.captured_eq_error]
    cases hcaptured : run.handler.captured with
    | none => simp
    | some slot =>
      cases slot with
      | error =>
        dsimp only
        rw [Response.captureError]
        cases resp.error <;> simp
      | resp => simp

theorem finish_reply {run : FuncRun} {resp r : Response} {exit stop : Bool}
    (h : run.finish resp = .finished (some r) exit stop) :
    resp.isEmpty = false ∧ r.id = resp.id ∧
      (r = resp ∨ r.error.isSome = true ∨ r.result.isSome = true) := by
  unfold FuncRun.finish at h
  split_ifs at h
  · cases h
  unfold Response.capture at h
  cases hcaptured : run.handler.captured with
  | none =>
    simp only [hcaptured, TaskOutcome.finished.injEq, Option.ite_none_left_eq_some] at h
    obtain ⟨⟨hempty, hr⟩, -⟩ := h
    cases hr
    exact ⟨by simpa using hempty, rfl, .inl rfl⟩
  | some slot =>
    cases slot with
    | error =>
      simp only [hcaptured, Response.captureError] at h
      cases herror : resp.error with
      | none =>
        rw [herror] at h
        cases h
      | some o =>
        simp only [herror, TaskOutcome.finished.injEq, Option.ite_none_left_eq_some] at h
        obtain ⟨⟨hempty, hr⟩, -⟩ := h
        cases hr
        exact ⟨by simpa using hempty, rfl, .inr (.inl rfl)⟩
    | resp =>
      simp only [hcaptured, TaskOutcome.finished.injEq, Option.ite_none_left_eq_some] at h
      obtain ⟨⟨hempty, hr⟩, -⟩ := h
      cases hr
      exact ⟨by simpa [Response.captureResult] using hempty, rfl, .inr (.inr rfl)⟩

/-- A response that is written answers a call, under the call's number. -/
theorem serve_reply {c : Config} {msg : Object} {r : Response} (h : c.replyTo msg = some r) :
    ∃ call, convertCall msg = some call ∧ r.id = call.id ∧
      (r.error.isSome = true ∨ r.result.isSome = true) := by
  unfold Config.replyTo at h
  split at h
  · next reply exit stop hserve =>
    subst h
    unfold Config.serve at hserve
    dsimp only at hserve
    split at hserve
    · cases hserve
    · next resp hresp =>
      obtain ⟨hempty, hid, hsays⟩ := finish_reply hserve
      obtain ⟨call, hcall, hcallid, hone⟩ := dispatch_response hresp hempty
      refine ⟨call, hcall, hid.trans hcallid, ?_⟩
      rcases hsays with rfl | hsays
      · exact hone.imp And.left And.right
      · exact hsays
  · cases h

theorem reply_id_lt {c : Config} {msg : Object} {r : Response} (h : c.replyTo msg = some r) :
    r.id < 2 ^ 32 := by
  obtain ⟨call, hcall, hid, -⟩ := serve_reply h
  obtain ⟨type, id, name, -, hconvert, -⟩ := convertCall_eq hcall
  rw [hid]
  exact convertUint32_lt hconvert

/-! ## What ends the server -/

/-- The function that a notification names, and its run. -/
def Config.notified (c : Config) (msg : Object) : Option FuncRun :=
  (convertNotification msg).bind fun n => (find c.funcs n.1).map fun func => func n.2

/-- The function that a call names, and its run. -/
def Config.called (c : Config) (msg : Object) : Option FuncRun :=
  (convertCall msg).bind fun call => (find c.funcs call.name).map fun func => func call.args

theorem dispatchNotification_terminated (c : Config) (msg : Object) :
    (match (dispatchNotification c.funcs c.suppressExceptions msg).response with
      | none => TaskOutcome.terminated
      | some resp => ((dispatchNotification c.funcs c.suppressExceptions msg).run.getD
          { result := .ok .nil }).finish resp) = .terminated ↔
      convertNotification msg = none ∨ ∃ run, c.notified msg = some run ∧
        ((c.suppressExceptions = false ∧ ∃ t, run.result = .error t ∧ t ≠ .handlerError ∧
            t ≠ .handlerSpecResponse) ∨ run.setsError) := by
  unfold dispatchNotification Config.notified
  cases hconvert : convertNotification msg with
  | none => simp
  | some n =>
    obtain ⟨name, args⟩ := n
    cases hfind : find c.funcs name with
    | none => simp [hfind, finish_terminated_iff, FuncRun.setsError, ThisHandler.get, isNil]
    | some func =>
      simp only [hfind, Option.bind_some, Option.map_some, Option.some.injEq, exists_eq_left',
        reduceCtorEq, false_or]
      cases hresult : (func args).result with
      | ok o => simp [finish_terminated_iff, Response.empty]
      | error t => cases t <;> cases c.suppressExceptions <;>
          simp [finish_terminated_iff, Response.empty]

theorem dispatchCall_terminated (c : Config) (msg : Object) :
    (match (dispatchCall c.overlay c.funcs c.suppressExceptions msg).response with
      | none => TaskOutcome.terminated
      | some resp => ((dispatchCall c.overlay c.funcs c.suppressExceptions msg).run.getD
          { result := .ok .nil }).finish resp) = .terminated ↔
      convertCall msg = none ∨ ∃ run, c.called msg = some run ∧
        ((c.suppressExceptions = false ∧
            (run.result = .error .other ∨ ∃ what, run.result = .error (.stdException what))) ∨
          (run.setsError ∧ ∃ o, run.result = .ok o)) := by
  unfold dispatchCall Config.called
  cases hconvert : convertCall msg with
  | none => simp
  | some call =>
    cases hfind : find c.funcs call.name with
    | none => simp [hfind, finish_terminated_iff, Response.makeError]
    | some func =>
      simp only [hfind, Option.bind_some, Option.map_some, Option.some.injEq, exists_eq_left',
        reduceCtorEq, false_or]
      cases hresult : (func call.args).result with
      | ok o => simp [finish_terminated_iff, Response.makeResult]
      | error t => cases t <;> cases c.suppressExceptions <;>
          simp [finish_terminated_iff, Response.makeError]

/-- A message ends the process exactly when it does not convert, when its function throws and
exceptions are not suppressed, or when its function sets an error although no error response has
been made: always in a notification, and in a call whose function returns all the same.  An
exception of the library itself, such as a wrong number of arguments, ends it only in a
notification. -/
theorem serve_terminated_iff (c : Config) (msg : Object) :
    c.serve msg = .terminated ↔
      (viaArraySize c.overlay msg = 3 ∧ (convertNotification msg = none ∨
        ∃ run, c.notified msg = some run ∧
          ((c.suppressExceptions = false ∧ ∃ t, run.result = .error t ∧ t ≠ .handlerError ∧
              t ≠ .handlerSpecResponse) ∨ run.setsError))) ∨
      (viaArraySize c.overlay msg = 4 ∧ (convertCall msg = none ∨
        ∃ run, c.called msg = some run ∧
          ((c.suppressExceptions = false ∧
              (run.result = .error .other ∨ ∃ what, run.result = .error (.stdException what))) ∨
            (run.setsError ∧ ∃ o, run.result = .ok o)))) := by
  unfold Config.serve dispatch
  split_ifs with h3 h4
  · simp only [h3, true_and]
    rw [dispatchNotification_terminated]
    simp
  · rw [dispatchCall_terminated]
    simp [h4]
  · simp [h3, h4, FuncRun.finish, Response.capture]

end PromiseDemo.Rpc
