import PromiseDemo.Rpc.UserProgress

/-!
# The demo's server and its client

What a client gets from the functions of `server.cpp` in every conversation, and what `main` of
`client.cpp` prints.
-/

namespace PromiseDemo.Rpc

open Transition MsgPack PromiseStore Duplex FutureProgram

/-- What an answer is to the caller of a function; a crash is told to nobody. -/
def Answer.toResult (funcName : Bytes) : Answer → Option CallResult
  | .value o => some (.value o)
  | .error what => some (.rpcError funcName (.str what))
  | .crash => none

/-- The server of `main` handles a call as `answer` says. -/
theorem main_serve_call (p : Platform) {idx : ℤ} (hpos : 0 ≤ idx) (hlt : idx < 2 ^ 31)
    (funcName : Bytes) (args : List Object) :
    (mainConfig p).serve (callObject idx funcName args) =
      (answer p funcName (.array args)).outcome (castUnsigned 4 idx) := by
  have hsize : viaArraySize p.overlay (callObject idx funcName args) = 4 := rfl
  exact serve_call hsize (convertCall_callObject hpos hlt funcName args)

theorem main_replyTo (p : Platform) {idx : ℤ} (hpos : 0 ≤ idx) (hlt : idx < 2 ^ 31)
    (funcName : Bytes) (args : List Object) :
    ((mainConfig p).replyTo (callObject idx funcName args)).map (Response.outcomeFor · funcName) =
      (answer p funcName (.array args)).toResult funcName := by
  unfold Config.replyTo
  rw [main_serve_call p hpos hlt]
  cases answer p funcName (.array args) with
  | value o => rfl
  | error what => rfl
  | crash => rfl

theorem main_serve_notification (p : Platform) (funcName : Bytes) (args : List Object) :
    (mainConfig p).serve (notificationObject funcName args) =
      if funcName ∈ mainNames ∧ (answer p funcName (.array args)).isValue = false then .terminated
      else .finished none false false := by
  have hsize : viaArraySize p.overlay (notificationObject funcName args) = 3 := rfl
  exact serve_notification hsize rfl

namespace Conversing

variable {p : Platform} {h : List ConversationEvent} {q : Conversation}

theorem main_reply (hc : Conversing (mainConfig p) h q) (hm : Moderate (mainConfig p) (lefts h))
    {i : ℕ} {idx : ℤ} {funcName : Bytes} {args : List Object}
    (hmem : .issued i idx funcName args ∈ lefts h) :
    ((mainConfig p).replyTo (callObject idx funcName args)).map (Response.outcomeFor · funcName) =
      (answer p funcName (.array args)).toResult funcName :=
  main_replyTo p (hc.numbering.issued_pos hm.few (issued_mem hmem).1)
    (hc.numbering.issued_range (issued_mem hmem).1).2 funcName args

theorem main_serve (hc : Conversing (mainConfig p) h q) (hm : Moderate (mainConfig p) (lefts h))
    {o : Object} (ho : o ∈ requestObjects (lefts h)) :
    ((mainConfig p).serve o = .terminated ∧
      ((∃ i idx funcName args, .issued i idx funcName args ∈ lefts h ∧
          answer p funcName (.array args) = .crash) ∨
        ∃ funcName args, .notified funcName args ∈ lefts h ∧ funcName ∈ mainNames ∧
          (answer p funcName (.array args)).isValue = false)) ∨
      ∃ reply, (mainConfig p).serve o = .finished reply false false := by
  rcases requestObjects_cases ho with ⟨i, idx, funcName, args, hmem, rfl⟩ |
    ⟨funcName, args, hmem, rfl⟩
  · have hserve := main_serve_call p (hc.numbering.issued_pos hm.few (issued_mem hmem).1)
      (hc.numbering.issued_range (issued_mem hmem).1).2 funcName args
    cases hans : answer p funcName (.array args) with
    | value o =>
      rw [hans] at hserve
      exact .inr ⟨_, hserve⟩
    | error what =>
      rw [hans] at hserve
      exact .inr ⟨_, hserve⟩
    | crash =>
      rw [hans] at hserve
      exact .inl ⟨hserve, .inl ⟨i, idx, funcName, args, hmem, hans⟩⟩
  · have hserve := main_serve_notification p funcName args
    split_ifs at hserve with hbad
    · exact .inl ⟨hserve, .inr ⟨funcName, args, hmem, hbad⟩⟩
    · exact .inr ⟨none, hserve⟩

end Conversing

/-! ## The client -/

/-- A line that `main` prints, with what it says of results.  The times are left out. -/
inductive Line
  | sum (n : ℤ)
  | sent
  | asyncSum (n : ℤ)
  | first (i : ℕ) (n : ℤ)
  | collected (i : ℕ) (n : ℤ)
  | divided (bits : ℕ)
  | serverError (funcName what : Bytes)
  | done
  | clientError
  deriving DecidableEq, Repr

namespace Main

variable (p : Platform)

/-- The last handler of `main`. -/
def failed : UserProgram Line := .print .clientError .done

/-- `.get().as<int>()`.  All that it can throw reaches the last handler. -/
def asInt (r : CallResult) (rest : ℤ → UserProgram Line) : UserProgram Line :=
  match r with
  | .value o =>
      match convertInt32 o with
      | some n => rest n
      | none => failed
  | .rpcError _ _ => failed
  | .brokenPromise => failed

def delays : List ℤ := [900, 300, 600]

/-- The calls of the loop over `delays`. -/
def squares : List UserCall :=
  delays.zipIdx.map fun d => (text "slow_square", [.ofInt (d.2 + 2), .ofInt d.1])

/-- The call of `echo`, and the end. -/
def echoed : UserProgram Line :=
  .call (text "echo", [.str (text "Hello from client")]) fun p => .get p fun r =>
    match r with
    | .value _ => .print .done .done
    | .rpcError _ _ => failed
    | .brokenPromise => failed

/-- The call of `divide`, with a handler of its own for an error that the server reports. -/
def divided : UserProgram Line :=
  .call (text "divide", [.float64 0x3ff0000000000000, .float64 0]) fun f => .get f fun r =>
    match r with
    | .value o =>
        match p.convertDouble o with
        | some bits => .print (.divided bits) echoed
        | none => failed
    | .rpcError funcName error =>
        match convertString error with
        | some what => .print (.serverError funcName what) echoed
        | none => failed
    | .brokenPromise => failed

/-- The results of the futures: the one that was ready first, then the others. -/
def collected (futures : List ℕ) (first : ℕ) : UserProgram Line :=
  .get (futures.getD first 0) fun r => asInt r fun n => .print (.first first n) <|
    Program.getOthers first
      (fun i r rest => asInt r fun n => .print (.collected i n) rest) (divided p) 0 futures

/-- `main` of `client.cpp`, from the first call on. -/
def main : UserProgram Line :=
  .call (text "add", [.ofInt 2, .ofInt 3]) fun f => .get f fun r => asInt r fun n =>
  .print (.sum n) <|
  .call (text "add", [.ofInt 10, .ofInt 20]) fun f => .print .sent <| .get f fun r =>
  asInt r fun n => .print (.asyncSum n) <|
  Program.callAll [] squares fun futures => .waitAny futures fun first => collected p futures first

end Main

/-- What `main` is to print if the result with this number is the first. -/
def expected (first : ℕ) : List Line :=
  [.sum 5, .sent, .asyncSum 30, .first first ((first + 2) ^ 2)] ++
    Program.otherLines (fun i => .collected i ((i + 2) ^ 2)) first 0 3 ++
    [.serverError (text "divide") (text "division by zero"), .done]

theorem main_outcome (p : Platform) (c : UserCall) :
    (mainConfig p).outcome c = (answer p c.1 (.array c.2)).toResult c.1 :=
  main_replyTo p (by decide) (by decide) c.1 c.2

theorem convertInt32_ofInt {n : ℤ} (hlow : -2 ^ 31 ≤ n) (hhigh : n < 2 ^ 31) :
    convertInt32 (.ofInt n) = some n := by
  unfold convertInt32 Object.ofInt
  split_ifs with hneg
  · rw [convertSigned, if_neg (by omega)]
  · have hcast : (n.toNat : ℤ) = n := Int.toNat_of_nonneg (by omega)
    rw [convertSigned, hcast, if_neg (by omega)]

namespace Main

/-- All calls that `main` makes. -/
def calls : List UserCall :=
  [(text "add", [.ofInt 2, .ofInt 3]), (text "add", [.ofInt 10, .ofInt 20])] ++ squares ++
    [(text "divide", [.float64 0x3ff0000000000000, .float64 0]),
      (text "echo", [.str (text "Hello from client")])]

section Sees

variable {p : Platform} {owned : ℕ → Option UserCall} {Q : List Line → Prop}

theorem asInt_sees {answer : UserCall → Option CallResult} {n : ℤ}
    {rest : ℤ → UserProgram Line} (hlow : -2 ^ 31 ≤ n) (hhigh : n < 2 ^ 31)
    (hrest : (rest n).Sees answer owned Q) :
    (asInt (.value (.ofInt n)) rest).Sees answer owned Q := by
  rw [asInt, convertInt32_ofInt hlow hhigh]
  exact hrest

theorem squares_outcome {i : ℕ} {c : UserCall} (hc : squares[i]? = some c) :
    (mainConfig p).outcome c = some (.value (.ofInt ((i + 2) ^ 2))) := by
  have hi : i < 3 := (List.getElem?_eq_some_iff.mp hc).1
  have hcases : i = 0 ∨ i = 1 ∨ i = 2 := by omega
  rcases hcases with rfl | rfl | rfl
  · cases hc
    rw [main_outcome]
    rfl
  · cases hc
    rw [main_outcome]
    rfl
  · cases hc
    rw [main_outcome]
    rfl

theorem echoed_sees (hQ : Q [.done]) : echoed.Sees (mainConfig p).outcome owned Q := by
  have hecho : (mainConfig p).outcome (text "echo", [.str (text "Hello from client")]) =
      some (.value (.str (text "Hello from client"))) := by
    rw [main_outcome]
    rfl
  apply Program.callGet_sees
  intro r owned' hr
  cases hecho.symm.trans hr
  exact hQ

theorem divided_sees (hQ : Q [.serverError (text "divide") (text "division by zero"), .done]) :
    (divided p).Sees (mainConfig p).outcome owned Q := by
  have hdivide : (mainConfig p).outcome
      (text "divide", [.float64 0x3ff0000000000000, .float64 0]) =
        some (.rpcError (text "divide") (.str (text "division by zero"))) := by
    rw [main_outcome]
    rfl
  apply Program.callGet_sees
  intro r owned' hr
  cases hdivide.symm.trans hr
  have hechoed : echoed.Sees (mainConfig p).outcome owned' fun lines =>
      Q (.serverError (text "divide") (text "division by zero") :: lines) := echoed_sees hQ
  exact hechoed

theorem collected_sees {futures : List ℕ} (hheld : Program.Holds owned futures squares)
    {first : ℕ} (hfirst : first < 3)
    (hQ : Q (.first first ((first + 2) ^ 2) ::
      (Program.otherLines (fun i => .collected i ((i + 2) ^ 2)) first 0 3 ++
        [.serverError (text "divide") (text "division by zero"), .done]))) :
    (collected p futures first).Sees (mainConfig p).outcome owned Q := by
  have hlen : futures.length = 3 := hheld.length
  have hsmall : ∀ i : ℕ, i < 3 → -2 ^ 31 ≤ ((i : ℤ) + 2) ^ 2 ∧ ((i : ℤ) + 2) ^ 2 < 2 ^ 31 := by
    decide
  have hfuture : futures[first]? = some (futures.getD first 0) := by
    rw [List.getD_eq_getElem?_getD, List.getElem?_eq_getElem (by omega)]
    rfl
  obtain ⟨c, hc, howned⟩ := hheld.getElem? hfuture
  refine ⟨c, howned, ?_⟩
  intro r hr
  cases (squares_outcome hc).symm.trans hr
  apply asInt_sees (hsmall first hfirst).1 (hsmall first hfirst).2
  have hrest : ∀ owned', (divided p).Sees (mainConfig p).outcome owned' fun lines =>
      Q (.first first ((first + 2) ^ 2) ::
        (Program.otherLines (fun i => .collected i ((i + 2) ^ 2)) first 0 futures.length ++
          lines)) := by
    intro owned'
    rw [hlen]
    exact divided_sees hQ
  rw [Program.Sees]
  refine Program.getOthers_sees hheld.nodup ?_ hrest
  intro j q hq hne
  rw [Nat.zero_add] at hne ⊢
  obtain ⟨d, hd, howned'⟩ := hheld.getElem? hq
  have hother : q ≠ futures.getD first 0 := by
    rintro rfl
    exact hne ((List.getElem?_inj (List.getElem?_eq_some_iff.mp hq).1 hheld.nodup).mp
      (hq.trans hfuture.symm))
  refine ⟨d, (Function.update_of_ne hother _ _).trans howned', ?_⟩
  intro r hr t owned'' Q' ht
  cases (squares_outcome hd).symm.trans hr
  have hj : j < 3 := hlen ▸ (List.getElem?_eq_some_iff.mp hq).1
  exact asInt_sees (hsmall j hj).1 (hsmall j hj).2 ht

theorem main_sees (p : Platform) :
    (main p).Sees (mainConfig p).outcome (fun _ => none) fun lines =>
      ∃ first < 3, lines = expected first := by
  have hsum : (mainConfig p).outcome (text "add", [.ofInt 2, .ofInt 3]) =
      some (.value (.ofInt 5)) := by
    rw [main_outcome]
    rfl
  have hasync : (mainConfig p).outcome (text "add", [.ofInt 10, .ofInt 20]) =
      some (.value (.ofInt 30)) := by
    rw [main_outcome]
    rfl
  apply Program.callGet_sees
  intro r owned hr
  cases hsum.symm.trans hr
  apply asInt_sees (by decide) (by decide)
  intro f _
  refine ⟨_, Function.update_self .., ?_⟩
  intro r hr
  cases hasync.symm.trans hr
  apply asInt_sees (by decide) (by decide)
  rw [Program.Sees]
  apply Program.callAll_sees .nil
  intro owned' futures hheld
  have hlen : futures.length = 3 := hheld.length
  refine ⟨?_, ?_, ?_⟩
  · rintro rfl
    cases hlen
  · intro q hq
    obtain ⟨c, -, hc⟩ := hheld.mem hq
    rw [hc]
    exact Option.some_ne_none c
  · intro first hfirst
    rw [hlen] at hfirst
    exact collected_sees hheld hfirst ⟨first, hfirst, rfl⟩

end Sees

section Asks

variable {p : Platform} {permitted : UserCall → Prop} {cost : UserCall → ℕ} {n : ℕ}

theorem asInt_asks {r : CallResult} {rest : ℤ → UserProgram Line}
    (hrest : ∀ m, (rest m).Asks permitted cost n) : (asInt r rest).Asks permitted cost n := by
  cases r with
  | value o =>
    unfold asInt
    dsimp only
    split
    · exact hrest _
    · exact trivial
  | rpcError funcName error => exact trivial
  | brokenPromise => exact trivial

theorem echoed_asks (hcalls : ∀ c ∈ calls, permitted c)
    (hle : cost (text "echo", [.str (text "Hello from client")]) ≤ n) :
    echoed.Asks permitted cost n := by
  refine ⟨hcalls _ (by simp [calls]), hle, ?_⟩
  intro f r
  cases r <;> exact trivial

theorem divided_asks (hcalls : ∀ c ∈ calls, permitted c)
    (hle : cost (text "divide", [.float64 0x3ff0000000000000, .float64 0]) +
      cost (text "echo", [.str (text "Hello from client")]) ≤ n) :
    (divided p).Asks permitted cost n := by
  refine ⟨hcalls _ (by simp [calls]), by omega, ?_⟩
  intro f r
  cases r with
  | value o =>
    dsimp only
    split
    · exact echoed_asks hcalls (by omega)
    · exact trivial
  | rpcError funcName error =>
    dsimp only
    split
    · exact echoed_asks hcalls (by omega)
    · exact trivial
  | brokenPromise => exact trivial

theorem main_asks (hcalls : ∀ c ∈ calls, permitted c) (hle : (calls.map cost).sum ≤ n) :
    (main p).Asks permitted cost n := by
  have hsquares : ∀ c ∈ squares, permitted c := by
    intro c hc
    exact hcalls c (by simp [calls, hc])
  simp only [calls, List.map_append, List.sum_append, List.map_cons, List.map_nil, List.sum_cons,
    List.sum_nil] at hle
  refine ⟨hcalls _ (by simp [calls]), by omega, ?_⟩
  intro f r
  apply asInt_asks
  intro m
  refine ⟨hcalls _ (by simp [calls]), by omega, ?_⟩
  intro f' r'
  apply asInt_asks
  intro m'
  refine Program.callAll_asks hsquares (by omega) ?_ []
  intro futures first r''
  apply asInt_asks
  intro m''
  refine Program.getOthers_asks ?_ (divided_asks hcalls (by omega)) 0 futures
  intro i r t ht
  exact asInt_asks fun _ => ht

end Asks

end Main

/-! ## The calls fit -/

/-- The format can carry the answer, and there is one. -/
def Answer.Fits : Answer → Prop
  | .value o => o.WellFormed
  | .error what => what.length < 2 ^ 32
  | .crash => False

theorem served_of_answer {p : Platform} {c : UserCall} (hname : c.1.length < 2 ^ 32)
    (hcount : c.2.length < 2 ^ 32) (hargs : ∀ o ∈ c.2, o.WellFormed)
    (hans : (answer p c.1 (.array c.2)).Fits) : Served (mainConfig p) c := by
  refine ⟨⟨hname, hcount, hargs, ?_⟩, ?_⟩
  · intro idx r hpos hlt hr
    unfold Config.replyTo at hr
    rw [main_serve_call p hpos hlt] at hr
    have hid : castUnsigned 4 idx < 2 ^ 64 := castUnsigned_small hpos hlt
    cases ha : answer p c.1 (.array c.2) with
    | value o =>
      rw [ha] at hr hans
      cases hr
      exact reply_wellFormed hid .nil hans
    | error what =>
      rw [ha] at hr hans
      cases hr
      exact reply_wellFormed hid (.str hans) .nil
    | crash =>
      rw [ha] at hans
      cases hans
  · intro idx hpos hlt
    rw [main_serve_call p hpos hlt]
    cases ha : answer p c.1 (.array c.2) with
    | value o => exact ⟨_, rfl⟩
    | error what => exact ⟨_, rfl⟩
    | crash =>
      rw [ha] at hans
      cases hans

theorem served_ints {p : Platform} {name : Bytes} {m n k : ℤ} (hname : name.length < 2 ^ 32)
    (hm : -2 ^ 63 ≤ m ∧ m < 2 ^ 64) (hn : -2 ^ 63 ≤ n ∧ n < 2 ^ 64)
    (hk : -2 ^ 63 ≤ k ∧ k < 2 ^ 64)
    (hans : answer p name (.array [.ofInt m, .ofInt n]) = .value (.ofInt k)) :
    Served (mainConfig p) (name, [.ofInt m, .ofInt n]) := by
  have hcount : [Object.ofInt m, Object.ofInt n].length < 2 ^ 32 := show 2 < 2 ^ 32 by decide
  apply served_of_answer hname hcount
  · simp only [List.forall_mem_cons]
    exact ⟨ofInt_wellFormed hm.1 hm.2, ofInt_wellFormed hn.1 hn.2, List.forall_mem_nil _⟩
  · rw [hans]
    exact ofInt_wellFormed hk.1 hk.2

theorem Main.calls_served (p : Platform) :
    ∀ c ∈ Main.calls, Served (mainConfig p) c := by
  have hcalls : Main.calls = [(text "add", [.ofInt 2, .ofInt 3]),
      (text "add", [.ofInt 10, .ofInt 20]), (text "slow_square", [.ofInt 2, .ofInt 900]),
      (text "slow_square", [.ofInt 3, .ofInt 300]), (text "slow_square", [.ofInt 4, .ofInt 600]),
      (text "divide", [.float64 0x3ff0000000000000, .float64 0]),
      (text "echo", [.str (text "Hello from client")])] := rfl
  rw [hcalls]
  simp only [List.forall_mem_cons]
  refine ⟨served_ints (k := 5) (by decide) (by decide) (by decide) (by decide) rfl,
    served_ints (k := 30) (by decide) (by decide) (by decide) (by decide) rfl,
    served_ints (k := 4) (by decide) (by decide) (by decide) (by decide) rfl,
    served_ints (k := 9) (by decide) (by decide) (by decide) (by decide) rfl,
    served_ints (k := 16) (by decide) (by decide) (by decide) (by decide) rfl, ?_, ?_,
    List.forall_mem_nil _⟩
  · have hans : answer p (text "divide") (.array [.float64 0x3ff0000000000000, .float64 0]) =
        .error (text "division by zero") := rfl
    apply served_of_answer (by decide) (by decide)
    · simp only [List.forall_mem_cons]
      exact ⟨.float64 (by decide), .float64 (by decide), List.forall_mem_nil _⟩
    · rw [hans]
      exact (by decide : (text "division by zero").length < 2 ^ 32)
  · have hans : answer p (text "echo") (.array [.str (text "Hello from client")]) =
        .value (.str (text "Hello from client")) := rfl
    apply served_of_answer (by decide) (by decide)
    · simp only [List.forall_mem_cons]
      exact ⟨.str (by decide), List.forall_mem_nil _⟩
    · rw [hans]
      exact .str (by decide)

theorem Main.calls_touching (p : Platform) :
    (Main.calls.map (mainConfig p).touching).sum ≤ 1 := by
  have htouching : Main.calls.map (mainConfig p).touching = [0, 0, 0, 0, 0, 1, 0] := rfl
  rw [htouching]
  decide

/-! ## Runs of the demo -/

theorem Main.asking {p : Platform} {forthCap backCap : Option ℕ} {h : List ConversationEvent}
    {s : UserSystem Line}
    (hrun : Run (UserSystem.step (mainConfig p)) anyAction
      (.start forthCap backCap (Main.main p)) h s) :
    Asking (Served (mainConfig p)) (fun _ => 1) 7 h s :=
  .of_run (Main.main_asks (Main.calls_served p) (Nat.le_refl 7)) hrun

theorem Main.moderate {p : Platform} {forthCap backCap : Option ℕ} {h : List ConversationEvent}
    {s : UserSystem Line}
    (hrun : Run (UserSystem.step (mainConfig p)) anyAction
      (.start forthCap backCap (Main.main p)) h s) : Moderate (mainConfig p) (lefts h) :=
  (Main.asking hrun).moderate (fun _ hc => hc.fits) (by decide)
    (.of_run (UserSystem.conversation_run hrun))

/-- A machine on which nothing overflows and division is that of integers. -/
def plainPlatform : Platform :=
  ⟨fun _ => 0, id, fun _ _ => 0xfff8000000000000, fun _ => 0x7ff8000000000000⟩

namespace Main

/-- A request on its way from the strand to a task. -/
def asked (idx : ℤ) (c : UserCall) : List UserAction :=
  let request := packCall idx c.1 c.2
  [.other (.inl .strand), .other (.inl (.transfer request.length)), .other (.inl .written),
    .other (.inr (.receive request)), .other (.inr .next), .other (.inr .next)]

/-- The reply to the `i`-th task on its way to the promise. -/
def replied (i : ℕ) (r : Response) : List UserAction :=
  [.other (.inr (.run 0 i)), .other (.inr .strand), .other (.inr (.transfer r.getData.length)),
    .other (.inr .written), .other (.inl (.receive r.getData)), .other (.inl .next),
    .other (.inl .next), .other (.inl .strand)]

/-- The second of the slow squares is the first to be ready. -/
def mainRun : List UserAction :=
  [.other (.inl (.connect true)), .user, .user] ++
    asked 1 (text "add", [.ofInt 2, .ofInt 3]) ++ replied 0 (.makeResult 1 (.ofInt 5)) ++
    .replicate 5 .user ++
    asked 2 (text "add", [.ofInt 10, .ofInt 20]) ++ replied 0 (.makeResult 2 (.ofInt 30)) ++
    .replicate 8 .user ++
    asked 3 (text "slow_square", [.ofInt 2, .ofInt 900]) ++
    asked 4 (text "slow_square", [.ofInt 3, .ofInt 300]) ++
    asked 5 (text "slow_square", [.ofInt 4, .ofInt 600]) ++
    replied 1 (.makeResult 4 (.ofInt 9)) ++ .replicate 5 .user ++
    replied 1 (.makeResult 5 (.ofInt 16)) ++ replied 0 (.makeResult 3 (.ofInt 4)) ++
    .replicate 6 .user ++
    asked 6 (text "divide", [.float64 0x3ff0000000000000, .float64 0]) ++
    replied 0 (.makeError 6 (text "division by zero")) ++ .replicate 4 .user ++
    asked 7 (text "echo", [.str (text "Hello from client")]) ++
    replied 0 (.makeResult 7 (.str (text "Hello from client"))) ++ .replicate 2 .user

abbrev ran : UserSystem Line × List ConversationEvent :=
  afterAll (UserSystem.step (mainConfig plainPlatform)) anyAction
    (.start none none (main plainPlatform)) mainRun

theorem main_run :
    Run (UserSystem.step (mainConfig plainPlatform)) anyAction
      (.start none none (main plainPlatform)) ran.2 ran.1 :=
  .of_actions _ _ _ mainRun (by decide +kernel)

end Main

/-- In every conversation with the server of `main`, what a future yields is what the function
answers; and the server's process ends only by a call with arguments of a wrong type, or by a
notification that a call would not get a value for. -/
theorem demo_answers {p : Platform} {forthCap backCap : Option ℕ} {h : List ConversationEvent}
    {q : Conversation}
    (hrun : Run (Conversation.step (mainConfig p)) anyAction (.start forthCap backCap) h q)
    (hm : Moderate (mainConfig p) (lefts h)) :
    (∀ i idx funcName args, .issued i idx funcName args ∈ lefts h →
      ∀ r, .resolved i r ∈ lefts h → (r = .brokenPromise ∧ q.left.destroyed = true) ∨
        (answer p funcName (.array args)).toResult funcName = some r) ∧
      (q.right.terminated = true →
        (∃ i idx funcName args, .issued i idx funcName args ∈ lefts h ∧
          answer p funcName (.array args) = .crash) ∨
        ∃ funcName args, .notified funcName args ∈ lefts h ∧ funcName ∈ mainNames ∧
          (answer p funcName (.array args)).isValue = false) := by
  have hc := Conversing.of_run hrun
  refine ⟨?_, ?_⟩
  · intro i idx funcName args hmem r hres
    rcases hc.own_reply hm (Conversing.faithful_of_run hrun hm) hmem hres with hbroken |
      ⟨reply, hreply, rfl⟩
    · exact .inl hbroken
    · right
      rw [← hc.main_reply hm hmem, hreply]
      rfl
  · intro hdead
    obtain ⟨o, ho, hserve⟩ := hc.server_terminated hm hdead
    rcases hc.main_serve hm ho with ⟨-, hbad⟩ | ⟨reply, hfinished⟩
    · exact hbad
    · cases hserve.symm.trans hfinished

theorem demo_answers_ran :
    (∀ i idx funcName args, .issued i idx funcName args ∈ lefts Main.ran.2 →
      ∀ r, .resolved i r ∈ lefts Main.ran.2 →
        (r = .brokenPromise ∧ Main.ran.1.conversation.left.destroyed = true) ∨
          (answer plainPlatform funcName (.array args)).toResult funcName = some r) ∧
      (Main.ran.1.conversation.right.terminated = true →
        (∃ i idx funcName args, .issued i idx funcName args ∈ lefts Main.ran.2 ∧
          answer plainPlatform funcName (.array args) = .crash) ∨
        ∃ funcName args, .notified funcName args ∈ lefts Main.ran.2 ∧ funcName ∈ mainNames ∧
          (answer plainPlatform funcName (.array args)).isValue = false) :=
  demo_answers (UserSystem.conversation_run Main.main_run) (Main.moderate Main.main_run)

/-- From every state that the demo reaches with the connection up its client can get to its end. -/
theorem demo_finishes {p : Platform} {forthCap backCap : Option ℕ} {h : List ConversationEvent}
    {s : UserSystem Line}
    (hrun : Run (UserSystem.step (mainConfig p)) anyAction
      (.start forthCap backCap (Main.main p)) h s) (hs : Steady h s.conversation) :
    ∃ s' k, Run (UserSystem.step (mainConfig p)) anyAction s k s' ∧ s'.thread = .running .done ∧
      ∃ first < 3, s'.printed = expected first :=
  UserRun.finish ⟨Main.main_sees p, Main.main_asks (Main.calls_served p) (Nat.le_refl 7), by decide,
    Main.main_asks (Main.calls_served p) (Main.calls_touching p), hrun, hs⟩

/-- The first call has been posted, through channels that hold a single byte. -/
abbrev Main.begun : UserSystem Line × List ConversationEvent :=
  afterAll (UserSystem.step (mainConfig plainPlatform)) anyAction
    (.start (some 1) (some 1) (Main.main plainPlatform))
    [.other (.inl (.connect true)), .user, .user]

theorem Main.begun_steady : Steady Main.begun.2 Main.begun.1.conversation where
  up := {
    connected := rfl
    reading := nofun
    kept := rfl
    well := rfl
    serving := nofun
    running := ⟨rfl, rfl⟩
    opened := rfl
    exit := rfl
    forthOk := nofun
    backOk := nofun
    forthRoom := rfl
    backRoom := rfl }
  writes := ⟨nofun, rfl, rfl⟩

theorem demo_finishes_begun :
    ∃ s' k, Run (UserSystem.step (mainConfig plainPlatform)) anyAction Main.begun.1 k s' ∧
      s'.thread = .running .done ∧ ∃ first < 3, s'.printed = expected first :=
  demo_finishes (Run.of_actions _ _ _ _ (by decide +kernel)) Main.begun_steady

end PromiseDemo.Rpc
