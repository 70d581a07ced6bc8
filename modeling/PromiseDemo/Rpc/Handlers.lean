import PromiseDemo.Rpc.Serve

/-!
# The demo's functions

`server.cpp` binds four functions.  What a client sees of them is `answer`, which knows nothing
of adaptors, exceptions and handler states.
-/

namespace PromiseDemo.Rpc

open MsgPack Float.Model

/-- What the source leaves to the machine: the size that is read off an object that is no array,
an `int` that overflows, and which of its bit patterns a NaN has that comes out of a division or is
widened from a `float`. -/
structure Platform where
  overlay : Object → ℕ
  overflow : ℤ → ℤ
  nanQuotient : ℕ → ℕ → ℕ
  nanWiden : ℕ → ℕ

/-- The bits of a `double`, those of a NaN being given. -/
def doubleBits (nan : ℕ) : UnpackedFloat → ℕ
  | .notANumber => nan
  | x => (x.pack .binary64).toNat

namespace Platform

variable (p : Platform)

/-- The value of a sum or product of two `int`. -/
def int (x : ℤ) : ℤ := if -2 ^ 31 ≤ x ∧ x < 2 ^ 31 then x else p.overflow x

/-- A `float` as a `double`, which loses nothing. -/
def widen (bits : ℕ) : ℕ :=
  match UnpackedFloat.unpack .binary32 (BitVec.ofNat 32 bits) with
  | .finite sign mantissa exponent _ =>
      doubleBits 0 (UnpackedFloat.round .binary64 sign mantissa exponent)
  | x => doubleBits (p.nanWiden bits) x

/-- The quotient of two `double`, rounded to the nearest and to even. -/
def quotient (a b : ℕ) : ℕ :=
  doubleBits (p.nanQuotient a b) (UnpackedFloat.div .binary64
    (UnpackedFloat.unpack .binary64 (BitVec.ofNat 64 a))
    (UnpackedFloat.unpack .binary64 (BitVec.ofNat 64 b)))

/-- `convert<double>`. -/
def convertDouble : Object → Option ℕ
  | .float32 bits => some (p.widen bits)
  | .float64 bits => some bits
  | .positiveInteger u64 => some (doubleBits 0 (UnpackedFloat.ofNat .binary64 u64))
  | .negativeInteger i64 => some (doubleBits 0 (UnpackedFloat.ofInt .binary64 i64))
  | _ => none

end Platform

/-- `b == 0.0`, of the bits of a `double`. -/
def isZeroDouble (bits : ℕ) : Bool := bits = 0 || bits = 2 ^ 63

/-- `convert` to a `std::tuple` of one; the size has been checked before. -/
def convertOne {α : Type} (convert : Object → Option α) : Object → Option α
  | .array [x] => convert x
  | _ => none

/-- `convert` to a `std::tuple` of two. -/
def convertTwo {α β : Type} (first : Object → Option α) (second : Object → Option β) :
    Object → Option (α × β)
  | .array [x, y] => do
      let a ← first x
      let b ← second y
      some (a, b)
  | _ => none

/-! ## The functions -/

section Functions

variable (p : Platform)

def add (args : ℤ × ℤ) : FuncRun := { result := .ok (.ofInt (p.int (args.1 + args.2))) }

/-- `slow_square`; the time it sleeps is left out. -/
def slowSquare (args : ℤ × ℤ) : FuncRun := { result := .ok (.ofInt (p.int (args.1 * args.1))) }

/-- `divide`; `respond_error` leaves it by an exception. -/
def divide (args : ℕ × ℕ) : FuncRun :=
  if isZeroDouble args.2 then
    { result := .error .handlerError
      handler := { error := some (.str (text "division by zero")) } }
  else { result := .ok (.float64 (p.quotient args.1 args.2)) }

/-- `echo`; what it prints is left out. -/
def echo (arg : Bytes) : FuncRun := { result := .ok (.str arg) }

/-- The calls of `bind` in `main`. -/
def mainBinds : List TableOp :=
  [.bind (text "add") (adaptor p.overlay (text "add") 2 (convertTwo convertInt32 convertInt32)
      (add p)),
    .bind (text "slow_square") (adaptor p.overlay (text "slow_square") 2
      (convertTwo convertInt32 convertInt32) (slowSquare p)),
    .bind (text "divide") (adaptor p.overlay (text "divide") 2
      (convertTwo p.convertDouble p.convertDouble) (divide p)),
    .bind (text "echo") (adaptor p.overlay (text "echo") 1 (convertOne convertString) echo)]

/-- The server of `main`, which does not suppress exceptions. -/
def mainConfig : Config := ⟨p.overlay, (mainBinds p).foldl TableOp.apply [], false⟩

/-! ## What they are for -/

/-- What becomes of a call: a value, an error text, or the end of the server. -/
inductive Answer
  | value (o : Object)
  | error (what : Bytes)
  | crash

/-- What a function of so many parameters answers: a wrong number of arguments is an error, whose
text has the two numbers the wrong way round, and a wrong type is the end. -/
def answerWith {α : Type} (name : Bytes) (count : ℕ) (convert : Object → Option α)
    (value : α → Answer) (args : Object) : Answer :=
  if viaArraySize p.overlay args = count then
    match convert args with
    | some a => value a
    | none => .crash
  else .error (text "rpclib: client error C0002: Function '" ++ name ++
    text "' was called with an invalid number of arguments. Expected: " ++
      text (toString (viaArraySize p.overlay args)) ++ text ", got: " ++ text (toString count))

/-- What a client may expect of the server. -/
def answer (name : Bytes) (args : Object) : Answer :=
  if name = text "add" then
    answerWith p name 2 (convertTwo convertInt32 convertInt32)
      (fun a => .value (.ofInt (p.int (a.1 + a.2)))) args
  else if name = text "slow_square" then
    answerWith p name 2 (convertTwo convertInt32 convertInt32)
      (fun a => .value (.ofInt (p.int (a.1 * a.1)))) args
  else if name = text "divide" then
    answerWith p name 2 (convertTwo p.convertDouble p.convertDouble)
      (fun a => if isZeroDouble a.2 then .error (text "division by zero")
        else .value (.float64 (p.quotient a.1 a.2))) args
  else if name = text "echo" then
    answerWith p name 1 (convertOne convertString) (fun a => .value (.str a)) args
  else .error (notFoundText name (viaArraySize p.overlay args))

end Functions

/-- How the task of a call with this answer ends. -/
def Answer.outcome (id : ℕ) : Answer → TaskOutcome
  | .value o => .finished (some (.makeResult id o)) false false
  | .error what => .finished (some (.makeError id what)) false false
  | .crash => .terminated

def Answer.isValue : Answer → Bool
  | .value _ => true
  | _ => false

/-- A run of a function that returns a value, or leaves by `respond_error`. -/
inductive Answers : FuncRun → Answer → Prop
  | value (o : Object) : Answers { result := .ok o } (.value o)
  | error (what : Bytes) :
      Answers { result := .error .handlerError, handler := { error := some (.str what) } }
        (.error what)

theorem Answers.eq {run : FuncRun} {ans : Answer} (h : Answers run ans) :
    (∃ o, run = { result := .ok o } ∧ ans = .value o) ∨
      ∃ what, run = { result := .error .handlerError, handler := { error := some (.str what) } } ∧
        ans = .error what := by
  cases h with
  | value o => exact .inl ⟨o, rfl, rfl⟩
  | error what => exact .inr ⟨what, rfl, rfl⟩

theorem arityText (name : Bytes) (expected found : ℕ) :
    text "rpclib: " ++ clientErrorWhat 2 (text "Function '" ++ name ++
      text "' was called with an invalid number of arguments. Expected: " ++
      text (toString expected) ++ text ", got: " ++ text (toString found)) =
    text "rpclib: client error C0002: Function '" ++ name ++
      text "' was called with an invalid number of arguments. Expected: " ++
      text (toString expected) ++ text ", got: " ++ text (toString found) := by
  have hfront : text "rpclib: client error C0002: Function '" =
      text "rpclib: " ++ text "client error C" ++ text "0002" ++ text ": " ++
        text "Function '" := by decide
  have hcode : (List.range 4).reverse.map (fun i => Nat.digitChar (2 / 16 ^ i % 16)) =
      ['0', '0', '0', '2'] := by decide
  rw [hfront, clientErrorWhat, hcode]
  simp only [List.append_assoc]

variable {p : Platform} {msg : Object}

theorem serve_adaptor {c : Config} {call : Call} {α : Type} {count : ℕ}
    {convert : Object → Option α} {func : α → FuncRun} {value : α → Answer}
    (hsuppress : c.suppressExceptions = false)
    (hsize : viaArraySize c.overlay msg = 4) (hcall : convertCall msg = some call)
    (hfind : find c.funcs call.name = some (adaptor p.overlay call.name count convert func))
    (hfunc : ∀ a, Answers (func a) (value a)) :
    c.serve msg = (answerWith p call.name count convert value call.args).outcome call.id := by
  unfold Config.serve dispatch
  rw [if_neg (by omega), if_pos hsize, dispatchCall, hcall]
  simp only [hfind, hsuppress]
  unfold adaptor enforceArgCount answerWith
  by_cases hcount : viaArraySize p.overlay call.args = count
  · rw [if_neg (by simpa using hcount.symm), if_pos hcount]
    dsimp only
    cases hconvert : convert call.args with
    | none => rfl
    | some a =>
      dsimp only
      rcases (hfunc a).eq with ⟨o, hrun, hvalue⟩ | ⟨what, hrun, herror⟩
      · simp only [hrun, hvalue]
        rfl
      · simp only [hrun, herror]
        rfl
  · rw [if_pos (Ne.symm hcount), if_neg hcount]
    dsimp only
    rw [arityText]
    rfl

theorem find_main (p : Platform) (name : Bytes) :
    find (mainConfig p).funcs name =
      if name = text "add" then some (adaptor p.overlay (text "add") 2
        (convertTwo convertInt32 convertInt32) (add p))
      else if name = text "slow_square" then some (adaptor p.overlay (text "slow_square") 2
        (convertTwo convertInt32 convertInt32) (slowSquare p))
      else if name = text "divide" then some (adaptor p.overlay (text "divide") 2
        (convertTwo p.convertDouble p.convertDouble) (divide p))
      else if name = text "echo" then some (adaptor p.overlay (text "echo") 1
        (convertOne convertString) echo)
      else none := by
  have hadd : text "slow_square" ≠ text "add" ∧ text "divide" ≠ text "add" ∧
      text "echo" ≠ text "add" := by decide
  have hsquare : text "divide" ≠ text "slow_square" ∧ text "echo" ≠ text "slow_square" := by
    decide
  have hdivide : text "echo" ≠ text "divide" := by decide
  rw [mainConfig, (TableHolds.nil.applyAll (mainBinds p)).find]
  simp only [mainBinds, List.foldl_cons, List.foldl_nil, TableOp.denote, Function.update_apply,
    hadd, hsquare, hdivide, if_false, Option.isSome_none, Bool.false_eq_true]
  by_cases hecho : name = text "echo"
  · simp [hecho, hadd, hsquare, hdivide]
  · by_cases hdiv : name = text "divide"
    · simp [hdiv, hadd, hsquare, hdivide.symm]
    · by_cases hsq : name = text "slow_square"
      · simp [hsq, hadd, hsquare.1.symm, hsquare.2.symm]
      · simp [hecho, hdiv, hsq]

theorem add_answers (a : ℤ × ℤ) : Answers (add p a) (.value (.ofInt (p.int (a.1 + a.2)))) :=
  .value _

theorem slowSquare_answers (a : ℤ × ℤ) :
    Answers (slowSquare p a) (.value (.ofInt (p.int (a.1 * a.1)))) := .value _

theorem divide_answers (a : ℕ × ℕ) : Answers (divide p a)
    (if isZeroDouble a.2 then .error (text "division by zero")
      else .value (.float64 (p.quotient a.1 a.2))) := by
  unfold divide
  split_ifs
  · exact .error _
  · exact .value _

theorem echo_answers (a : Bytes) : Answers (echo a) (.value (.str a)) := .value _

/-- A call of the demo's server ends as `answer` says, whatever the arguments. -/
theorem serve_call {call : Call} (hsize : viaArraySize p.overlay msg = 4)
    (hcall : convertCall msg = some call) :
    (mainConfig p).serve msg = (answer p call.name call.args).outcome call.id := by
  have hfind := find_main p call.name
  unfold answer
  split_ifs at hfind ⊢ with hadd hsquare hdivide hecho
  · rw [← hadd] at hfind
    exact serve_adaptor rfl hsize hcall hfind add_answers
  · rw [← hsquare] at hfind
    exact serve_adaptor rfl hsize hcall hfind slowSquare_answers
  · rw [← hdivide] at hfind
    exact serve_adaptor rfl hsize hcall hfind divide_answers
  · rw [← hecho] at hfind
    exact serve_adaptor rfl hsize hcall hfind echo_answers
  · have hoverlay : (mainConfig p).overlay = p.overlay := rfl
    unfold Config.serve dispatch
    rw [hoverlay, if_neg (by omega), if_pos hsize, dispatchCall, hcall]
    simp only [hfind]
    rfl

/-- What an adaptor makes of a notification: everything but a value ends the process. -/
theorem notify_adaptor {c : Config} {name : Bytes} {args : Object} {α : Type} {count : ℕ}
    {convert : Object → Option α} {func : α → FuncRun} {value : α → Answer}
    (hsuppress : c.suppressExceptions = false) (hsize : viaArraySize c.overlay msg = 3)
    (hmsg : convertNotification msg = some (name, args))
    (hfind : find c.funcs name = some (adaptor p.overlay name count convert func))
    (hfunc : ∀ a, Answers (func a) (value a)) :
    c.serve msg = if (answerWith p name count convert value args).isValue = true then
      .finished none false false else .terminated := by
  unfold Config.serve dispatch
  rw [if_pos hsize, dispatchNotification, hmsg]
  simp only [hfind, hsuppress]
  unfold adaptor enforceArgCount answerWith
  by_cases hcount : viaArraySize p.overlay args = count
  · rw [if_neg (by simpa using hcount.symm), if_pos hcount]
    dsimp only
    cases hconvert : convert args with
    | none => rfl
    | some a =>
      dsimp only
      rcases (hfunc a).eq with ⟨o, hrun, hvalue⟩ | ⟨what, hrun, herror⟩
      · simp only [hrun, hvalue]
        rfl
      · simp only [hrun, herror]
        rfl
  · rw [if_pos (Ne.symm hcount), if_neg hcount]
    rfl

/-- The names that `main` binds. -/
def mainNames : List Bytes := [text "add", text "slow_square", text "divide", text "echo"]

theorem serve_notification {name : Bytes} {args : Object} (hsize : viaArraySize p.overlay msg = 3)
    (hmsg : convertNotification msg = some (name, args)) :
    (mainConfig p).serve msg =
      if name ∈ mainNames ∧ (answer p name args).isValue = false then .terminated
      else .finished none false false := by
  have hfind := find_main p name
  have hflip : ∀ a : Answer, name ∈ mainNames →
      (if a.isValue = true then TaskOutcome.finished none false false else .terminated) =
        if name ∈ mainNames ∧ a.isValue = false then .terminated
        else .finished none false false := by
    intro a hname
    cases a.isValue <;> simp [hname]
  split_ifs at hfind with hadd hsquare hdivide hecho
  · rw [← hflip _ (by simp [mainNames, hadd]), answer, if_pos hadd]
    rw [← hadd] at hfind
    exact notify_adaptor rfl hsize hmsg hfind add_answers
  · rw [← hflip _ (by simp [mainNames, hsquare]), answer, if_neg hadd, if_pos hsquare]
    rw [← hsquare] at hfind
    exact notify_adaptor rfl hsize hmsg hfind slowSquare_answers
  · rw [← hflip _ (by simp [mainNames, hdivide]), answer, if_neg hadd, if_neg hsquare,
      if_pos hdivide]
    rw [← hdivide] at hfind
    exact notify_adaptor rfl hsize hmsg hfind divide_answers
  · rw [← hflip _ (by simp [mainNames, hecho]), answer, if_neg hadd, if_neg hsquare,
      if_neg hdivide, if_pos hecho]
    rw [← hecho] at hfind
    exact notify_adaptor rfl hsize hmsg hfind echo_answers
  · have hname : name ∉ mainNames := by simp [mainNames, hadd, hsquare, hdivide, hecho]
    have hoverlay : (mainConfig p).overlay = p.overlay := rfl
    rw [if_neg fun h => hname h.1]
    unfold Config.serve dispatch
    rw [hoverlay, if_pos hsize, dispatchNotification, hmsg]
    simp only [hfind]
    rfl

/-- The messages that end the demo's server: those that do not convert, calls of a bound function
with arguments of a wrong type, and notifications of a bound function for which a call would get an
error or no answer. -/
theorem main_terminated_iff (p : Platform) (msg : Object) :
    (mainConfig p).serve msg = .terminated ↔
      (viaArraySize p.overlay msg = 3 ∧ (convertNotification msg = none ∨
        ∃ name args, convertNotification msg = some (name, args) ∧ name ∈ mainNames ∧
          (answer p name args).isValue = false)) ∨
      (viaArraySize p.overlay msg = 4 ∧ (convertCall msg = none ∨
        ∃ call, convertCall msg = some call ∧ answer p call.name call.args = .crash)) := by
  have hoverlay : (mainConfig p).overlay = p.overlay := rfl
  by_cases h3 : viaArraySize p.overlay msg = 3
  · cases hmsg : convertNotification msg with
    | none =>
      have hserve : (mainConfig p).serve msg = .terminated := by
        unfold Config.serve dispatch
        rw [hoverlay, if_pos h3, dispatchNotification, hmsg]
      simp [hserve, h3]
    | some n =>
      obtain ⟨name, args⟩ := n
      rw [serve_notification h3 hmsg]
      simp only [h3, Option.some.injEq, Prod.mk.injEq, reduceCtorEq, false_or, true_and]
      constructor
      · intro h
        split_ifs at h with hcond
        exact .inl ⟨name, args, ⟨rfl, rfl⟩, hcond⟩
      · rintro (⟨name', args', ⟨rfl, rfl⟩, hcond⟩ | ⟨h4, -⟩)
        · rw [if_pos hcond]
        · omega
  · by_cases h4 : viaArraySize p.overlay msg = 4
    · cases hmsg : convertCall msg with
      | none =>
        have hserve : (mainConfig p).serve msg = .terminated := by
          unfold Config.serve dispatch
          rw [hoverlay, if_neg h3, if_pos h4, dispatchCall, hmsg]
        simp [hserve, h4]
      | some call =>
        rw [serve_call h4 hmsg]
        simp only [h4, Option.some.injEq, reduceCtorEq, false_or, true_and, exists_eq_left']
        cases answer p call.name call.args <;> simp [Answer.outcome]
    · have hserve : (mainConfig p).serve msg = .finished none false false := by
        unfold Config.serve dispatch
        rw [hoverlay, if_neg h3, if_neg h4]
        rfl
      simp [hserve, h3, h4]

end PromiseDemo.Rpc
