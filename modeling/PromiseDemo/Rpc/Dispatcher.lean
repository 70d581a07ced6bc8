import PromiseDemo.MsgPack.Object

/-!
# Dispatching a message

`dispatcher` of `rpclib` looks up the function that a message names, runs it and makes the
response.  A bound function reaches the session that runs it through thread-local objects as
well: it may set an error or a special response, disable the response, or ask for the session or
the server to end.
-/

namespace PromiseDemo.Rpc

open MsgPack

/-- The bytes of a text, which is ASCII in all messages of the library. -/
def text (s : String) : Bytes := s.toList.map fun c => UInt8.ofNat c.toNat

/-! ## Conversions of the adaptors -/

/-- `convert_integer` for a signed type; `none` is `type_error`. -/
def convertSigned (min max : ℤ) : Object → Option ℤ
  | .positiveInteger u64 => if max < u64 then none else some u64
  | .negativeInteger i64 => if i64 < min then none else some i64
  | _ => none

/-- `convert_integer` for an unsigned type. -/
def convertUnsigned (max : ℕ) : Object → Option ℕ
  | .positiveInteger u64 => if max < u64 then none else some u64
  | _ => none

def convertInt8 : Object → Option ℤ := convertSigned (-2 ^ 7) (2 ^ 7 - 1)

def convertInt32 : Object → Option ℤ := convertSigned (-2 ^ 31) (2 ^ 31 - 1)

def convertUint32 : Object → Option ℕ := convertUnsigned (2 ^ 32 - 1)

/-- A `std::string` is made of text and of binary data alike. -/
def convertString : Object → Option Bytes
  | .bin ptr => some ptr
  | .str ptr => some ptr
  | _ => none

/-- `via.array.size` is read before the type is known.  On an object that is no array it reads
what the union holds there, which `overlay` stands for. -/
def viaArraySize (overlay : Object → ℕ) : Object → ℕ
  | .array ptr => ptr.length
  | o => overlay o

/-! ## What a bound function does -/

/-- An exception, as the handlers of `dispatch_call` tell them apart. -/
inductive Thrown
  | clientError (what : Bytes)
  | stdException (what : Bytes)
  | handlerError
  | handlerSpecResponse
  | other
  deriving DecidableEq, Repr

/-- The objects of `this_handler_t`. -/
inductive Slot
  | error
  | resp
  deriving DecidableEq, Repr

/-- `this_handler_t` after a function; `none` is an object that the function has not set, which is
nil since `clear`. -/
structure ThisHandler where
  error : Option Object := none
  resp : Option Object := none
  respEnabled : Bool := true

/-- One run of a bound function: what it returns or throws, what it leaves in `this_handler`,
whether it has called `this_session().post_exit()` and `this_server().stop()`. -/
structure FuncRun where
  result : Except Thrown Object
  handler : ThisHandler := {}
  exit : Bool := false
  stop : Bool := false

/-- `adaptor_type`. -/
abbrev Func := Object → FuncRun

/-- `client_error::what`; the code is printed as four hexadecimal digits. -/
def clientErrorWhat (code : ℕ) (msg : Bytes) : Bytes :=
  let digits := (List.range 4).reverse.map fun i => (Nat.digitChar (code / 16 ^ i % 16))
  text "client error C" ++ text (String.ofList digits) ++ text ": " ++ msg

/-- `enforce_arg_count`, which throws `wrong_arity`. -/
def enforceArgCount (func : Bytes) (found expected : ℕ) : Except Thrown Unit :=
  if found ≠ expected then
    .error (.clientError (clientErrorWhat 2 (text "Function '" ++ func ++
      text "' was called with an invalid number of arguments. Expected: " ++
      text (toString expected) ++ text ", got: " ++ text (toString found))))
  else .ok ()

/-- The adaptor that `bind` makes: it checks the number of arguments, converts them and runs the
functor.  The number of parameters is handed to `enforce_arg_count` as the one found.  A
`type_error` is a `std::bad_cast`. -/
def adaptor {α : Type} (overlay : Object → ℕ) (name : Bytes) (argsCount : ℕ)
    (convert : Object → Option α) (func : α → FuncRun) : Func := fun args =>
  match enforceArgCount name argsCount (viaArraySize overlay args) with
  | .error e => { result := .error e }
  | .ok () =>
      match convert args with
      | none => { result := .error (.stdException (text "std::bad_cast")) }
      | some real => func real

/-! ## The table of functions -/

/-- `funcs_`. -/
abbrev Funcs := List (Bytes × Func)

/-- `names`. -/
def names (funcs : Funcs) : List Bytes := funcs.map Prod.fst

/-- `bind`; `none` is the `logic_error` of `enforce_unique_name`. -/
def bind (funcs : Funcs) (name : Bytes) (func : Func) : Option Funcs :=
  if name ∈ names funcs then none else some ((name, func) :: funcs)

/-- `unbind`. -/
def unbind (funcs : Funcs) (name : Bytes) : Funcs := funcs.filter fun e => e.1 ≠ name

/-- `funcs_.find`. -/
def find (funcs : Funcs) (name : Bytes) : Option Func :=
  (funcs.find? fun e => e.1 = name).map Prod.snd

/-- A call of `bind` or of `unbind`. -/
inductive TableOp
  | bind (name : Bytes) (func : Func)
  | unbind (name : Bytes)

/-- The table after a call; one that throws leaves it as it is. -/
def TableOp.apply (funcs : Funcs) : TableOp → Funcs
  | .bind name func => (Rpc.bind funcs name func).getD funcs
  | .unbind name => Rpc.unbind funcs name

/-- What the table is for: a partial map in which a name keeps its function until it is
unbound. -/
def TableOp.denote (m : Bytes → Option Func) : TableOp → Bytes → Option Func
  | .bind name func => if (m name).isSome then m else Function.update m name (some func)
  | .unbind name => Function.update m name none

/-- The table holds the map, each name once. -/
structure TableHolds (funcs : Funcs) (m : Bytes → Option Func) : Prop where
  nodup : (names funcs).Nodup
  find : ∀ name, find funcs name = m name
  mem : ∀ name, name ∈ names funcs ↔ (m name).isSome = true

theorem find_cons (funcs : Funcs) (name : Bytes) (func : Func) (other : Bytes) :
    find ((name, func) :: funcs) other = if name = other then some func else find funcs other := by
  unfold find
  by_cases h : name = other
  · rw [List.find?_cons_of_pos (by simpa using h), if_pos h]
    rfl
  · rw [List.find?_cons_of_neg (by simpa using h), if_neg h]

theorem find_unbind (funcs : Funcs) (name other : Bytes) :
    find (unbind funcs name) other = if name = other then none else find funcs other := by
  induction funcs with
  | nil =>
    split_ifs <;> rfl
  | cons e funcs ih =>
    obtain ⟨bound, func⟩ := e
    by_cases hbound : bound = name
    · have hdrop : unbind ((bound, func) :: funcs) name = unbind funcs name := by
        simp [unbind, hbound]
      rw [hdrop, ih, find_cons, hbound]
      split_ifs <;> rfl
    · have hkeep : unbind ((bound, func) :: funcs) name = (bound, func) :: unbind funcs name := by
        simp [unbind, hbound]
      rw [hkeep, find_cons, find_cons, ih]
      by_cases hother : bound = other
      · rw [if_pos hother, if_pos hother, if_neg (by rw [← hother]; exact fun h => hbound h.symm)]
      · rw [if_neg hother, if_neg hother]

theorem TableHolds.apply {funcs : Funcs} {m : Bytes → Option Func} (h : TableHolds funcs m)
    (op : TableOp) :
    TableHolds (op.apply funcs) (op.denote m) := by
  cases op with
  | bind name func =>
    rw [TableOp.apply, TableOp.denote, Rpc.bind]
    by_cases hname : name ∈ names funcs
    · rw [if_pos hname, if_pos ((h.mem name).mp hname)]
      exact h
    · rw [if_neg hname, if_neg fun hsome => hname ((h.mem name).mpr hsome)]
      refine ⟨List.nodup_cons.mpr ⟨hname, h.nodup⟩, ?_, ?_⟩
      · intro other
        rw [Option.getD_some, find_cons, Function.update_apply, h.find]
        exact if_congr eq_comm rfl rfl
      · intro other
        rw [Option.getD_some, names, List.map_cons, List.mem_cons, Function.update_apply]
        split_ifs with heq
        · simp [heq]
        · rw [← h.mem other]
          simp [heq, names]
  | unbind name =>
    refine ⟨h.nodup.sublist (List.filter_sublist.map _), ?_, ?_⟩
    · intro other
      rw [TableOp.apply, TableOp.denote, find_unbind, Function.update_apply, h.find]
      exact if_congr eq_comm rfl rfl
    · intro other
      have hmem : other ∈ names (unbind funcs name) ↔ other ∈ names funcs ∧ other ≠ name := by
        simp only [names, unbind, List.mem_map, List.mem_filter, decide_eq_true_eq]
        constructor
        · rintro ⟨e, ⟨he, hne⟩, rfl⟩
          exact ⟨⟨e, he, rfl⟩, hne⟩
        · rintro ⟨⟨e, he, rfl⟩, hne⟩
          exact ⟨e, ⟨he, hne⟩, rfl⟩
      rw [TableOp.apply, TableOp.denote, Function.update_apply, hmem]
      split_ifs with heq
      · simp [heq]
      · rw [h.mem]
        simp [heq]

theorem TableHolds.applyAll {funcs : Funcs} {m : Bytes → Option Func} (h : TableHolds funcs m)
    (ops : List TableOp) :
    TableHolds (ops.foldl TableOp.apply funcs) (ops.foldl TableOp.denote m) := by
  induction ops generalizing funcs m with
  | nil => exact h
  | cons op ops ih => exact ih (h.apply op)

theorem TableHolds.nil : TableHolds [] fun _ => none :=
  ⟨List.nodup_nil, fun _ => rfl, fun _ => by simp [names]⟩

/-- Whatever is bound and unbound, in whichever order, `find` is the partial map and `names` its
domain, each name once. -/
theorem table_refines (ops : List TableOp) :
    (names (ops.foldl TableOp.apply [])).Nodup ∧
      (∀ name, find (ops.foldl TableOp.apply []) name =
        ops.foldl TableOp.denote (fun _ => none) name) ∧
      ∀ name, name ∈ names (ops.foldl TableOp.apply []) ↔
        (ops.foldl TableOp.denote (fun _ => none) name).isSome = true := by
  have h := TableHolds.nil.applyAll ops
  exact ⟨h.nodup, h.find, h.mem⟩

/-! ## Messages -/

/-- `call_t`, without the message type, which is not looked at. -/
structure Call where
  id : ℕ
  name : Bytes
  args : Object

/-- `msg.convert(the_call)` on an array of four. -/
def convertCall : Object → Option Call
  | .array [type, id, name, args] => do
      let _ ← convertInt8 type
      let id ← convertUint32 id
      let name ← convertString name
      some ⟨id, name, args⟩
  | _ => none

/-- `msg.convert(the_call)` for a `notification_t` on an array of three. -/
def convertNotification : Object → Option (Bytes × Object)
  | .array [type, name, args] => do
      let _ ← convertInt8 type
      let name ← convertString name
      some (name, args)
  | _ => none

/-- `response`. -/
structure Response where
  id : ℕ := 0
  error : Option Object := none
  result : Option Object := none
  isEmpty : Bool := false

def Response.empty : Response := { isEmpty := true }

def Response.makeResult (id : ℕ) (result : Object) : Response := { id, result := some result }

def Response.makeError (id : ℕ) (msg : Bytes) : Response := { id, error := some (.str msg) }

/-- What `dispatch` leaves behind: the response, `none` where an exception leaves it, and the
function's run, if a function was run. -/
structure Dispatched where
  response : Option Response
  run : Option FuncRun := none

/-- The text of the last line of `dispatch_call`. -/
def notFoundText (name : Bytes) (argc : ℕ) : Bytes :=
  text "rpclib: server could not find function '" ++ name ++ text "' with argument count " ++
    text (toString argc) ++ text "."

def exceptionText (name : Bytes) (argc : ℕ) (what : Bytes) : Bytes :=
  text "rpclib: function '" ++ name ++ text "' (called with " ++ text (toString argc) ++
    text " arg(s)) threw an exception. The exception contained this information: " ++ what ++
    text "."

def unknownExceptionText (name : Bytes) (argc : ℕ) : Bytes :=
  text "rpclib: function '" ++ name ++ text "' (called with " ++ text (toString argc) ++
    text (" arg(s)) threw an exception. The exception is not derived from std::exception. " ++
      "No further information available.")

section Dispatch

variable (overlay : Object → ℕ) (funcs : Funcs) (suppressExceptions : Bool)

/-- `dispatch_call`.  The exceptions by which a handler returns early go on to the error for a
function that is not there, and the session replaces it by what the handler has set. -/
def dispatchCall (msg : Object) : Dispatched :=
  match convertCall msg with
  | none => { response := none }
  | some call =>
      let argc := viaArraySize overlay call.args
      let notFound := Response.makeError call.id (notFoundText call.name argc)
      match find funcs call.name with
      | none => { response := some notFound }
      | some func =>
          let run := func call.args
          let response :=
            match run.result with
            | .ok result => some (Response.makeResult call.id result)
            | .error (.clientError what) =>
                some (Response.makeError call.id (text "rpclib: " ++ what))
            | .error (.stdException what) =>
                if suppressExceptions then
                  some (Response.makeError call.id (exceptionText call.name argc what))
                else none
            | .error .handlerError => some notFound
            | .error .handlerSpecResponse => some notFound
            | .error .other =>
                if suppressExceptions then
                  some (Response.makeError call.id (unknownExceptionText call.name argc))
                else none
          { response, run := some run }

/-- `dispatch_notification`. -/
def dispatchNotification (msg : Object) : Dispatched :=
  match convertNotification msg with
  | none => { response := none }
  | some (name, args) =>
      match find funcs name with
      | none => { response := some .empty }
      | some func =>
          let run := func args
          let response :=
            match run.result with
            | .ok _ => some Response.empty
            | .error .handlerError => some Response.empty
            | .error .handlerSpecResponse => some Response.empty
            | .error _ => if suppressExceptions then some Response.empty else none
          { response, run := some run }

/-- `dispatch`. -/
def dispatch (msg : Object) : Dispatched :=
  if viaArraySize overlay msg = 3 then dispatchNotification funcs suppressExceptions msg
  else if viaArraySize overlay msg = 4 then dispatchCall overlay funcs suppressExceptions msg
  else { response := some .empty }

end Dispatch

end PromiseDemo.Rpc
