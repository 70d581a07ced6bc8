import PromiseDemo.Framework.Resumable
import PromiseDemo.MsgPack.Object

/-!
# The MessagePack parser

`context::execute` of `v2/parse.hpp` with the visitor that builds an object.  The parser keeps
its place between calls: `m_cs` and `m_trail` say what it waits for, and a stack holds the
containers that are open.  Here an open container also holds the slots that the visitor has
filled, which the code finds through the pointers of the visitor's own stack.
-/

namespace PromiseDemo.MsgPack

open Resumable

/-- `m_cs`, other than `MSGPACK_CS_HEADER`.  Formats that differ in the width of their number or
length only share a case, with that width in bytes. -/
inductive Cs
  | bin (width : ℕ)
  | ext (width : ℕ)
  | float
  | double
  | uint (width : ℕ)
  | int (width : ℕ)
  | fixext (size : ℕ)
  | str (width : ℕ)
  | array (width : ℕ)
  | map (width : ℕ)
  | strValue
  | binValue
  | extValue
  deriving DecidableEq, Repr

/-- What a parser between a format byte and its object waits for: `m_trail` bytes, never
none. -/
structure Trail where
  cs : Cs
  trail : ℕ
  trail_pos : 0 < trail
  deriving Repr

/-- `stack_elem`: an open container with `m_rest` slots or pairs to go. -/
inductive StackElem
  | arrayItem (rest : ℕ) (filled : List Object)
  | mapKey (rest : ℕ) (filled : List (Object × Object))
  | mapValue (rest : ℕ) (filled : List (Object × Object)) (key : Object)
  deriving Repr

/-- `context`; `none` is `MSGPACK_CS_HEADER`, and the innermost container comes first. -/
structure Context where
  cs : Option Trail
  stack : List StackElem
  deriving Repr

/-- `init`. -/
def Context.init : Context := ⟨none, []⟩

/-- The table of `execute`, from `0xc4` on. -/
def trailTable : List Trail :=
  [⟨.bin 1, 1, by decide⟩, ⟨.bin 2, 2, by decide⟩, ⟨.bin 4, 4, by decide⟩,
    ⟨.ext 1, 1, by decide⟩, ⟨.ext 2, 2, by decide⟩, ⟨.ext 4, 4, by decide⟩,
    ⟨.float, 4, by decide⟩, ⟨.double, 8, by decide⟩,
    ⟨.uint 1, 1, by decide⟩, ⟨.uint 2, 2, by decide⟩, ⟨.uint 4, 4, by decide⟩,
    ⟨.uint 8, 8, by decide⟩,
    ⟨.int 1, 1, by decide⟩, ⟨.int 2, 2, by decide⟩, ⟨.int 4, 4, by decide⟩,
    ⟨.int 8, 8, by decide⟩,
    ⟨.fixext 1, 2, by decide⟩, ⟨.fixext 2, 3, by decide⟩, ⟨.fixext 4, 5, by decide⟩,
    ⟨.fixext 8, 9, by decide⟩, ⟨.fixext 16, 17, by decide⟩,
    ⟨.str 1, 1, by decide⟩, ⟨.str 2, 2, by decide⟩, ⟨.str 4, 4, by decide⟩,
    ⟨.array 2, 2, by decide⟩, ⟨.array 4, 4, by decide⟩,
    ⟨.map 2, 2, by decide⟩, ⟨.map 4, 4, by decide⟩]

/-- `visit_negative_integer`. -/
def visitNegativeInteger (v : ℤ) : Object :=
  if 0 ≤ v then .positiveInteger v.toNat else .negativeInteger v

/-- `visit_ext`: the type is the first of the bytes. -/
def visitExt (v : Bytes) : Object := .ext (v.headD 0) v.tail

/-- `unpack_stack::consume`: an object is complete.  It fills a slot, and a container that has
its last slot filled is complete in turn.  The object is the result when none is open. -/
def consume (o : Object) : List StackElem → Object ⊕ List StackElem
  | [] => .inl o
  | .arrayItem rest filled :: stack =>
      if rest - 1 = 0 then consume (.array (filled ++ [o])) stack
      else .inr (.arrayItem (rest - 1) (filled ++ [o]) :: stack)
  | .mapKey rest filled :: stack => .inr (.mapValue rest filled o :: stack)
  | .mapValue rest filled key :: stack =>
      if rest - 1 = 0 then consume (.map (filled ++ [(key, o)])) stack
      else .inr (.mapKey (rest - 1) (filled ++ [(key, o)]) :: stack)

/-- `after_visit_proc`: the bytes of an object are behind. -/
def afterVisitProc (stack : List StackElem) (o : Object) (rest : Bytes) :
    Step Context Object UInt8 :=
  match consume o stack with
  | .inl result => .done result rest
  | .inr stack => .next ⟨none, stack⟩ rest

/-- `sizeof(object)` -/
def objectSize : ℕ := 24

/-- `sizeof(object_kv)` -/
def objectKvSize : ℕ := 48

/-- `start_aggregate` for an array.  The visitor takes all slots off the zone at once, and the zone
throws `bad_alloc` where it finds no `room`. -/
def startArray (room : ℕ → Bool) (stack : List StackElem) (size : ℕ) (rest : Bytes) :
    Step Context Object UInt8 :=
  if size = 0 then afterVisitProc stack (.array []) rest
  else if room (size * objectSize) then .next ⟨none, .arrayItem size [] :: stack⟩ rest
  else .fail

/-- `start_aggregate` for a map. -/
def startMap (room : ℕ → Bool) (stack : List StackElem) (size : ℕ) (rest : Bytes) :
    Step Context Object UInt8 :=
  if size = 0 then afterVisitProc stack (.map []) rest
  else if room (size * objectKvSize) then .next ⟨none, .mapKey size [] :: stack⟩ rest
  else .fail

/-- A string or a block of bytes whose length is known: an empty one is visited at once. -/
def startValue (stack : List StackElem) (cs : Cs) (visit : Bytes → Object) (length : ℕ)
    (rest : Bytes) : Step Context Object UInt8 :=
  if h : length = 0 then afterVisitProc stack (visit []) rest
  else .next ⟨some ⟨cs, length, Nat.pos_of_ne_zero h⟩, stack⟩ rest

/-- The branch of `execute` for a format byte.  Its last case is `0xc1`. -/
def executeHeader (room : ℕ → Bool) (stack : List StackElem) (byte : UInt8) (rest : Bytes) :
    Step Context Object UInt8 :=
  let selector := byte.toNat
  if selector ≤ 0x7f then afterVisitProc stack (.positiveInteger selector) rest
  else if 0xe0 ≤ selector then
    afterVisitProc stack (visitNegativeInteger (castSigned 1 selector)) rest
  else if 0xc4 ≤ selector ∧ selector ≤ 0xdf then
    .next ⟨trailTable[selector - 0xc4]?, stack⟩ rest
  else if 0xa0 ≤ selector ∧ selector ≤ 0xbf then
    startValue stack .strValue .str (selector &&& 0x1f) rest
  else if 0x90 ≤ selector ∧ selector ≤ 0x9f then startArray room stack (selector &&& 0x0f) rest
  else if 0x80 ≤ selector ∧ selector ≤ 0x8f then startMap room stack (selector &&& 0x0f) rest
  else if selector = 0xc2 then afterVisitProc stack (.boolean false) rest
  else if selector = 0xc3 then afterVisitProc stack (.boolean true) rest
  else if selector = 0xc0 then afterVisitProc stack .nil rest
  else .fail

/-- The branch of `execute` for the `m_trail` bytes `n` that the parser has waited for.  The
length of an `EXT` leaves its type byte out. -/
def executeTrail (room : ℕ → Bool) (stack : List StackElem) (cs : Cs) (n : Bytes)
    (rest : Bytes) : Step Context Object UInt8 :=
  match cs with
  | .float => afterVisitProc stack (.float32 (quiet (load n))) rest
  | .double => afterVisitProc stack (.float64 (load n)) rest
  | .uint _ => afterVisitProc stack (.positiveInteger (load n)) rest
  | .int width => afterVisitProc stack (visitNegativeInteger (castSigned width (load n))) rest
  | .fixext _ => afterVisitProc stack (visitExt n) rest
  | .str _ => startValue stack .strValue .str (load n) rest
  | .bin _ => startValue stack .binValue .bin (load n) rest
  | .ext _ => startValue stack .extValue visitExt (load n + 1) rest
  | .strValue => afterVisitProc stack (.str n) rest
  | .binValue => afterVisitProc stack (.bin n) rest
  | .extValue => afterVisitProc stack (visitExt n) rest
  | .array _ => startArray room stack (load n) rest
  | .map _ => startMap room stack (load n) rest

/-- One iteration of the loop of `execute`.  A format byte with a trail ends its iteration
here; the code goes on to the second branch, and does there what the next iteration does. -/
def iterate (room : ℕ → Bool) (ctx : Context) (unparsed : Bytes) : Step Context Object UInt8 :=
  match ctx.cs with
  | none =>
      match unparsed with
      | [] => .wait
      | byte :: rest => executeHeader room ctx.stack byte rest
  | some t =>
      if unparsed.length < t.trail then .wait
      else executeTrail room ctx.stack t.cs (unparsed.take t.trail) (unparsed.drop t.trail)

/-- The size of the block that the next iteration takes off the zone for the slots of an array or
a map, and zero if it opens none. -/
def Context.blockAsked (ctx : Context) (unparsed : Bytes) : ℕ :=
  match ctx.cs with
  | none =>
      match unparsed with
      | [] => 0
      | byte :: _ =>
          let selector := byte.toNat
          if 0x90 ≤ selector ∧ selector ≤ 0x9f then (selector &&& 0x0f) * objectSize
          else if 0x80 ≤ selector ∧ selector ≤ 0x8f then (selector &&& 0x0f) * objectKvSize
          else 0
  | some t =>
      if unparsed.length < t.trail then 0
      else
        match t.cs with
        | .array _ => load (unparsed.take t.trail) * objectSize
        | .map _ => load (unparsed.take t.trail) * objectKvSize
        | _ => 0

/-- Five bytes ask for as much as a hundred gigabytes. -/
example : Context.blockAsked ⟨some ⟨.array 4, 4, by decide⟩, []⟩ [0xff, 0xff, 0xff, 0xff] =
    103079215080 := by decide

/-! ## The loop as a resumable parser -/

theorem afterVisitProc_taken (stack : List StackElem) (o : Object) :
    Taken (afterVisitProc stack o) := by
  cases h : consume o stack with
  | inl result => exact .inr (.inl ⟨result, fun r => by rw [afterVisitProc, h]⟩)
  | inr st => exact .inl ⟨⟨none, st⟩, fun r => by rw [afterVisitProc, h]⟩

theorem startArray_taken (room : ℕ → Bool) (stack : List StackElem) (size : ℕ) :
    Taken (startArray room stack size) := by
  by_cases h : size = 0
  · have hf : startArray room stack size = afterVisitProc stack (.array []) :=
      funext fun r => by rw [startArray, if_pos h]
    exact hf ▸ afterVisitProc_taken _ _
  · by_cases hroom : room (size * objectSize) = true
    · exact .inl ⟨_, fun r => by rw [startArray, if_neg h, if_pos hroom]⟩
    · exact .inr (.inr fun r => by rw [startArray, if_neg h, if_neg hroom])

theorem startMap_taken (room : ℕ → Bool) (stack : List StackElem) (size : ℕ) :
    Taken (startMap room stack size) := by
  by_cases h : size = 0
  · have hf : startMap room stack size = afterVisitProc stack (.map []) :=
      funext fun r => by rw [startMap, if_pos h]
    exact hf ▸ afterVisitProc_taken _ _
  · by_cases hroom : room (size * objectKvSize) = true
    · exact .inl ⟨_, fun r => by rw [startMap, if_neg h, if_pos hroom]⟩
    · exact .inr (.inr fun r => by rw [startMap, if_neg h, if_neg hroom])

theorem startValue_taken (stack : List StackElem) (cs : Cs) (visit : Bytes → Object)
    (length : ℕ) : Taken (startValue stack cs visit length) := by
  by_cases h : length = 0
  · have hf : startValue stack cs visit length = afterVisitProc stack (visit []) :=
      funext fun r => by rw [startValue, dif_pos h]
    exact hf ▸ afterVisitProc_taken _ _
  · exact .inl ⟨_, fun r => by rw [startValue, dif_neg h]⟩

theorem executeHeader_taken (room : ℕ → Bool) (stack : List StackElem) (byte : UInt8) :
    Taken (executeHeader room stack byte) := by
  unfold executeHeader
  dsimp only
  split_ifs
  · exact afterVisitProc_taken _ _
  · exact afterVisitProc_taken _ _
  · exact .inl ⟨_, fun _ => rfl⟩
  · exact startValue_taken _ _ _ _
  · exact startArray_taken _ _ _
  · exact startMap_taken _ _ _
  · exact afterVisitProc_taken _ _
  · exact afterVisitProc_taken _ _
  · exact afterVisitProc_taken _ _
  · exact .inr (.inr fun _ => rfl)

theorem executeTrail_taken (room : ℕ → Bool) (stack : List StackElem) (cs : Cs) (n : Bytes) :
    Taken (executeTrail room stack cs n) := by
  cases cs with
  | bin | ext | str | strValue | binValue | extValue =>
    first
      | exact startValue_taken _ _ _ _
      | exact afterVisitProc_taken _ _
  | array => exact startArray_taken _ _ _
  | map => exact startMap_taken _ _ _
  | float | double | uint | int | fixext => exact afterVisitProc_taken _ _

theorem iterate_header (room : ℕ → Bool) (stack : List StackElem) (byte : UInt8) (rest : Bytes) :
    iterate room ⟨none, stack⟩ (byte :: rest) = executeHeader room stack byte rest := rfl

theorem iterate_trail (room : ℕ → Bool) (stack : List StackElem) (t : Trail) {n : Bytes}
    (rest : Bytes) (h : n.length = t.trail) :
    iterate room ⟨some t, stack⟩ (n ++ rest) = executeTrail room stack t.cs n rest := by
  have hlen : ¬(n ++ rest).length < t.trail := by
    rw [List.length_append]
    omega
  have hdef : iterate room ⟨some t, stack⟩ (n ++ rest) =
      if (n ++ rest).length < t.trail then .wait
      else executeTrail room stack t.cs ((n ++ rest).take t.trail) ((n ++ rest).drop t.trail) := rfl
  rw [hdef, if_neg hlen, ← h, List.take_left, List.drop_left]

theorem iterate_taken {room : ℕ → Bool} {ctx : Context} {b : Bytes}
    (h : iterate room ctx b ≠ .wait) :
    ∃ n rest, b = n ++ rest ∧ n ≠ [] ∧ Taken fun r => iterate room ctx (n ++ r) := by
  obtain ⟨cs, stack⟩ := ctx
  cases cs with
  | none =>
    cases b with
    | nil => exact absurd rfl h
    | cons byte rest =>
      exact ⟨[byte], rest, rfl, by simp, executeHeader_taken room stack byte⟩
  | some t =>
    have hlen : ¬b.length < t.trail := by
      intro hlt
      exact h (if_pos hlt)
    have htake : (b.take t.trail).length = t.trail := List.length_take_of_le (by omega)
    refine ⟨b.take t.trail, b.drop t.trail, (List.take_append_drop _ _).symm, ?_, ?_⟩
    · apply List.ne_nil_of_length_pos
      rw [htake]
      exact t.trail_pos
    · have hstep : (fun r => iterate room ⟨some t, stack⟩ (b.take t.trail ++ r)) =
          executeTrail room stack t.cs (b.take t.trail) :=
        funext fun r => iterate_trail room stack t r htake
      rw [hstep]
      exact executeTrail_taken room stack t.cs _

/-! ## Where it fails -/

theorem afterVisitProc_ne_fail (stack : List StackElem) (o : Object) (rest : Bytes) :
    afterVisitProc stack o rest ≠ .fail := by
  intro h
  rw [afterVisitProc] at h
  split at h <;> cases h

theorem startValue_ne_fail (stack : List StackElem) (cs : Cs) (visit : Bytes → Object)
    (length : ℕ) (rest : Bytes) : startValue stack cs visit length rest ≠ .fail := by
  intro h
  rw [startValue] at h
  split_ifs at h
  exact afterVisitProc_ne_fail _ _ _ h

theorem startArray_fail_iff {room : ℕ → Bool} {stack : List StackElem} {size : ℕ} {rest : Bytes} :
    startArray room stack size rest = .fail ↔
      0 < size * objectSize ∧ room (size * objectSize) = false := by
  rw [startArray]
  split_ifs with hzero hroom
  · simp [afterVisitProc_ne_fail, hzero]
  · simp [hroom]
  · simpa [objectSize, Nat.pos_iff_ne_zero, hzero] using hroom

theorem startMap_fail_iff {room : ℕ → Bool} {stack : List StackElem} {size : ℕ} {rest : Bytes} :
    startMap room stack size rest = .fail ↔
      0 < size * objectKvSize ∧ room (size * objectKvSize) = false := by
  rw [startMap]
  split_ifs with hzero hroom
  · simp [afterVisitProc_ne_fail, hzero]
  · simp [hroom]
  · simpa [objectKvSize, Nat.pos_iff_ne_zero, hzero] using hroom

theorem executeHeader_fail_iff {room : ℕ → Bool} {stack : List StackElem} {byte : UInt8}
    {rest : Bytes} : executeHeader room stack byte rest = .fail ↔ byte = 0xc1 ∨
      0 < Context.blockAsked ⟨none, stack⟩ (byte :: rest) ∧
        room (Context.blockAsked ⟨none, stack⟩ (byte :: rest)) = false := by
  have hc1 : byte = 0xc1 ↔ byte.toNat = 0xc1 := UInt8.toNat_inj.symm
  unfold executeHeader Context.blockAsked
  dsimp only
  rw [hc1]
  split_ifs with h7f he0 hc4 ha0 h90 h80 hc2 hc3 hc0
  all_goals
    try simp only [afterVisitProc_ne_fail, startValue_ne_fail, startArray_fail_iff,
      startMap_fail_iff]
  all_goals
    first
      | omega
      | grind

theorem executeTrail_fail_iff {room : ℕ → Bool} {stack : List StackElem} {t : Trail}
    {unparsed : Bytes} (h : ¬unparsed.length < t.trail) :
    executeTrail room stack t.cs (unparsed.take t.trail) (unparsed.drop t.trail) = .fail ↔
      0 < Context.blockAsked ⟨some t, stack⟩ unparsed ∧
        room (Context.blockAsked ⟨some t, stack⟩ unparsed) = false := by
  unfold executeTrail Context.blockAsked
  dsimp only
  rw [if_neg h]
  cases t.cs with
  | array => exact startArray_fail_iff
  | map => exact startMap_fail_iff
  | _ => simp [afterVisitProc_ne_fail, startValue_ne_fail]

/-- The parser throws at a byte `0xc1` where it expects a format byte, and where it is refused the
block that it asks for. -/
theorem iterate_fail_iff {room : ℕ → Bool} {ctx : Context} {b : Bytes} :
    iterate room ctx b = .fail ↔ (ctx.cs = none ∧ ∃ rest, b = 0xc1 :: rest) ∨
      0 < ctx.blockAsked b ∧ room (ctx.blockAsked b) = false := by
  obtain ⟨cs, stack⟩ := ctx
  cases cs with
  | none =>
    cases b with
    | nil => simp [iterate, Context.blockAsked]
    | cons byte rest =>
      rw [iterate_header, executeHeader_fail_iff]
      simp
  | some t =>
    by_cases hlt : b.length < t.trail
    · have hwait : iterate room ⟨some t, stack⟩ b = .wait := if_pos hlt
      simp [hwait, Context.blockAsked, hlt]
    · have hstep : iterate room ⟨some t, stack⟩ b =
          executeTrail room stack t.cs (b.take t.trail) (b.drop t.trail) := if_neg hlt
      rw [hstep, executeTrail_fail_iff hlt]
      simp

/-- `context::execute` on the unparsed bytes of the buffer. -/
def machineIn (room : ℕ → Bool) : Machine Context Object UInt8 where
  start := .init
  step := iterate room
  step_taken := iterate_taken

/-- A zone that always finds room. -/
abbrev ample : ℕ → Bool := fun _ => true

/-- The parser as long as memory lasts. -/
abbrev machine : Machine Context Object UInt8 := machineIn ample

/-- Where it is not refused anything, the parser does what it does with all the memory that it
wants. -/
theorem iterate_ample {room : ℕ → Bool} {ctx : Context} {b : Bytes}
    (h : iterate room ctx b ≠ .fail) : iterate ample ctx b = iterate room ctx b := by
  have harray : ∀ stack size rest, startArray room stack size rest ≠ .fail →
      startArray ample stack size rest = startArray room stack size rest := by
    intro stack size rest hne
    rw [startArray] at hne ⊢
    rw [startArray]
    split_ifs at hne ⊢ <;> first | rfl | exact absurd rfl ‹_›
  have hmap : ∀ stack size rest, startMap room stack size rest ≠ .fail →
      startMap ample stack size rest = startMap room stack size rest := by
    intro stack size rest hne
    rw [startMap] at hne ⊢
    rw [startMap]
    split_ifs at hne ⊢ <;> first | rfl | exact absurd rfl ‹_›
  obtain ⟨cs, stack⟩ := ctx
  cases cs with
  | none =>
    cases b with
    | nil => rfl
    | cons byte rest =>
      rw [iterate_header] at h ⊢
      rw [iterate_header]
      unfold executeHeader at h ⊢
      dsimp only at h ⊢
      split_ifs at h ⊢
      all_goals
        first
          | rfl
          | exact harray _ _ _ h
          | exact hmap _ _ _ h
  | some t =>
    unfold iterate at h ⊢
    dsimp only at h ⊢
    split_ifs at h ⊢
    · rfl
    · unfold executeTrail at h ⊢
      cases hcs : t.cs <;> rw [hcs] at h
      case array => exact harray _ _ _ h
      case map => exact hmap _ _ _ h

/-- `execute`, as long as memory lasts. -/
def execute (ctx : Context) (unparsed : Bytes) : Outcome Context Object UInt8 :=
  machine.run ctx unparsed

theorem run_ample {room : ℕ → Bool} {ctx : Context} {b : Bytes}
    (h : (machineIn room).run ctx b ≠ .fail) : machine.run ctx b = (machineIn room).run ctx b :=
  Machine.run_agree (fun _ _ => iterate_ample) h

end PromiseDemo.MsgPack
