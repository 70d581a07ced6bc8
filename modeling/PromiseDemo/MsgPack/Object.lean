import PromiseDemo.Net.Framing
import Mathlib.Tactic.Positivity
import Mathlib.Tactic.Ring
import Mathlib.Tactic.Zify

/-!
# MessagePack objects and how they are packed

`rpclib` carries its messages as MessagePack.  An `object` is a tagged value; `packer` writes
each in the shortest form that holds it.  A floating-point number is the bits of its IEEE
representation; the parser keeps a `float` as a `double`, and the packer narrows it again.
-/

namespace PromiseDemo.MsgPack

/-- `object`, a case for each `type::object_type`.  The type of an `EXT` object is its raw
byte. -/
inductive Object
  | nil
  | boolean (v : Bool)
  | positiveInteger (u64 : ℕ)
  | negativeInteger (i64 : ℤ)
  | float32 (bits : ℕ)
  | float64 (bits : ℕ)
  | str (ptr : Bytes)
  | bin (ptr : Bytes)
  | ext (type : UInt8) (data : Bytes)
  | array (ptr : List Object)
  | map (ptr : List (Object × Object))
  deriving Repr

/-- The bits of a `float` that has been through `via.f64`, a `double`: a signalling NaN comes out
quiet. -/
def quiet (bits : ℕ) : ℕ :=
  if bits / 2 ^ 23 % 2 ^ 8 = 255 ∧ bits % 2 ^ 23 ≠ 0 then bits ||| 2 ^ 22 else bits

theorem quiet_quiet (bits : ℕ) : quiet (quiet bits) = quiet bits := by
  unfold quiet
  split_ifs
  · rw [Nat.or_assoc, Nat.or_self]
  · rfl
  · rfl

theorem quiet_lt {bits : ℕ} (h : bits < 2 ^ 32) : quiet bits < 2 ^ 32 := by
  unfold quiet
  split_ifs
  · exact Nat.or_lt_two_pow h (by decide)
  · exact h

namespace Object

/-- The values that the fields of an `object` can hold: sizes are `uint32_t`, a negative integer is
negative, and a `float` is kept as a `double`. -/
inductive WellFormed : Object → Prop
  | nil : WellFormed .nil
  | boolean (v : Bool) : WellFormed (.boolean v)
  | positiveInteger {u64 : ℕ} : u64 < 2 ^ 64 → WellFormed (.positiveInteger u64)
  | negativeInteger {i64 : ℤ} : -2 ^ 63 ≤ i64 → i64 < 0 → WellFormed (.negativeInteger i64)
  | float32 {bits : ℕ} : bits < 2 ^ 32 → quiet bits = bits → WellFormed (.float32 bits)
  | float64 {bits : ℕ} : bits < 2 ^ 64 → WellFormed (.float64 bits)
  | str {ptr : Bytes} : ptr.length < 2 ^ 32 → WellFormed (.str ptr)
  | bin {ptr : Bytes} : ptr.length < 2 ^ 32 → WellFormed (.bin ptr)
  | ext (type : UInt8) {data : Bytes} : data.length < 2 ^ 32 → WellFormed (.ext type data)
  | array {ptr : List Object} : ptr.length < 2 ^ 32 → (∀ o ∈ ptr, WellFormed o) →
      WellFormed (.array ptr)
  | map {ptr : List (Object × Object)} : ptr.length < 2 ^ 32 → (∀ p ∈ ptr, WellFormed p.1) →
      (∀ p ∈ ptr, WellFormed p.2) → WellFormed (.map ptr)

/-- Does an object point to something outside itself?  The bytes of a text or a block and the
elements of an array or a map lie in a zone. -/
def inZone : Object → Bool
  | .str ptr => !ptr.isEmpty
  | .bin ptr => !ptr.isEmpty
  | .ext _ _ => true
  | .array ptr => !ptr.isEmpty
  | .map ptr => !ptr.isEmpty
  | _ => false

/-- Does an object hold others?  `pack` and `clone` call themselves for each of them. -/
def nests : Object → Bool
  | .array ptr => !ptr.isEmpty
  | .map ptr => !ptr.isEmpty
  | _ => false

/-- The object of an integer, as `object_char` and the integer adaptors make it. -/
def ofInt (d : ℤ) : Object :=
  if d < 0 then .negativeInteger d else .positiveInteger d.toNat

end Object

/-! ## Numbers as bytes -/

/-- `_msgpack_store16`, `_msgpack_store32`, `_msgpack_store64`: the low bytes, big-endian. -/
def store : ℕ → ℕ → Bytes
  | 0, _ => []
  | width + 1, d => UInt8.ofNat (d / 256 ^ width) :: store width d

/-- `load<T>` on the bytes of an unsigned `T`. -/
def load (n : Bytes) : ℕ := n.foldl (fun v b => 256 * v + b.toNat) 0

/-- The bits of a signed number, as a cast to the unsigned type of that width yields them. -/
def castUnsigned (width : ℕ) (d : ℤ) : ℕ := (d % 256 ^ width).toNat

/-- The signed number of a width with the given bits. -/
def castSigned (width : ℕ) (v : ℕ) : ℤ := (v : ℤ).bmod (256 ^ width)

/-- `take8_8` to `take8_64`: the lowest byte. -/
def take8 (d : ℤ) : UInt8 := UInt8.ofNat (castUnsigned 1 d)

/-! ## The packer -/

def packImpUint8 (d : ℕ) : Bytes :=
  if d < 2 ^ 7 then [take8 d] else [0xcc, take8 d]

def packImpUint16 (d : ℕ) : Bytes :=
  if d < 2 ^ 7 then [take8 d]
  else if d < 2 ^ 8 then [0xcc, take8 d]
  else 0xcd :: store 2 d

def packImpUint32 (d : ℕ) : Bytes :=
  if d < 2 ^ 8 then
    if d < 2 ^ 7 then [take8 d] else [0xcc, take8 d]
  else if d < 2 ^ 16 then 0xcd :: store 2 d
  else 0xce :: store 4 d

def packImpUint64 (d : ℕ) : Bytes :=
  if d < 2 ^ 8 then
    if d < 2 ^ 7 then [take8 d] else [0xcc, take8 d]
  else if d < 2 ^ 16 then 0xcd :: store 2 d
  else if d < 2 ^ 32 then 0xce :: store 4 d
  else 0xcf :: store 8 d

def packImpInt8 (d : ℤ) : Bytes :=
  if d < -2 ^ 5 then [0xd0, take8 d] else [take8 d]

def packImpInt16 (d : ℤ) : Bytes :=
  if d < -2 ^ 5 then
    if d < -2 ^ 7 then 0xd1 :: store 2 (castUnsigned 2 d) else [0xd0, take8 d]
  else if d < 2 ^ 7 then [take8 d]
  else if d < 2 ^ 8 then [0xcc, take8 d]
  else 0xcd :: store 2 (castUnsigned 2 d)

def packImpInt32 (d : ℤ) : Bytes :=
  if d < -2 ^ 5 then
    if d < -2 ^ 15 then 0xd2 :: store 4 (castUnsigned 4 d)
    else if d < -2 ^ 7 then 0xd1 :: store 2 (castUnsigned 2 d)
    else [0xd0, take8 d]
  else if d < 2 ^ 7 then [take8 d]
  else if d < 2 ^ 8 then [0xcc, take8 d]
  else if d < 2 ^ 16 then 0xcd :: store 2 (castUnsigned 2 d)
  else 0xce :: store 4 (castUnsigned 4 d)

def packImpInt64 (d : ℤ) : Bytes :=
  if d < -2 ^ 5 then
    if d < -2 ^ 15 then
      if d < -2 ^ 31 then 0xd3 :: store 8 (castUnsigned 8 d)
      else 0xd2 :: store 4 (castUnsigned 4 d)
    else if d < -2 ^ 7 then 0xd1 :: store 2 (castUnsigned 2 d)
    else [0xd0, take8 d]
  else if d < 2 ^ 7 then [take8 d]
  else if d < 2 ^ 16 then
    if d < 2 ^ 8 then [0xcc, take8 d] else 0xcd :: store 2 (castUnsigned 2 d)
  else if d < 2 ^ 32 then 0xce :: store 4 (castUnsigned 4 d)
  else 0xcf :: store 8 (castUnsigned 8 d)

def packFloat (bits : ℕ) : Bytes := 0xca :: store 4 bits

def packDouble (bits : ℕ) : Bytes := 0xcb :: store 8 bits

def packNil : Bytes := [0xc0]

def packTrue : Bytes := [0xc3]

def packFalse : Bytes := [0xc2]

/-- `pack_array` and `pack_map`: a container's size, with the tags of its three forms. -/
def packContainer (fix : ℕ) (tag16 tag32 : UInt8) (n : ℕ) : Bytes :=
  if n < 16 then [UInt8.ofNat (fix ||| n)]
  else if n < 65536 then tag16 :: store 2 n
  else tag32 :: store 4 n

def packArray (n : ℕ) : Bytes := packContainer 0x90 0xdc 0xdd n

def packMap (n : ℕ) : Bytes := packContainer 0x80 0xde 0xdf n

def packStr (l : ℕ) : Bytes :=
  if l < 32 then [UInt8.ofNat (0xa0 ||| l)]
  else if l < 256 then [0xd9, UInt8.ofNat l]
  else if l < 65536 then 0xda :: store 2 l
  else 0xdb :: store 4 l

def packBin (l : ℕ) : Bytes :=
  if l < 256 then [0xc4, UInt8.ofNat l]
  else if l < 65536 then 0xc5 :: store 2 l
  else 0xc6 :: store 4 l

def packExt (l : ℕ) (type : UInt8) : Bytes :=
  if l = 1 then [0xd4, type]
  else if l = 2 then [0xd5, type]
  else if l = 4 then [0xd6, type]
  else if l = 8 then [0xd7, type]
  else if l = 16 then [0xd8, type]
  else if l < 256 then [0xc7, UInt8.ofNat l, type]
  else if l < 65536 then 0xc8 :: (store 2 l ++ [type])
  else 0xc9 :: (store 4 l ++ [type])

mutual

/-- `operator<<` of an `object`. -/
def pack : Object → Bytes
  | .nil => packNil
  | .boolean v => if v then packTrue else packFalse
  | .positiveInteger u64 => packImpUint64 u64
  | .negativeInteger i64 => packImpInt64 i64
  | .float32 bits => packFloat bits
  | .float64 bits => packDouble bits
  | .str ptr => packStr ptr.length ++ ptr
  | .bin ptr => packBin ptr.length ++ ptr
  | .ext type data => packExt data.length type ++ data
  | .array ptr => packArray ptr.length ++ packItems ptr
  | .map ptr => packMap ptr.length ++ packPairs ptr

/-- The loop over `via.array`. -/
def packItems : List Object → Bytes
  | [] => []
  | o :: os => pack o ++ packItems os

/-- The loop over `via.map`. -/
def packPairs : List (Object × Object) → Bytes
  | [] => []
  | (key, val) :: ps => pack key ++ (pack val ++ packPairs ps)

end

/-! ## Reading a number back -/

@[simp] theorem store_length (width d : ℕ) : (store width d).length = width := by
  induction width with
  | zero => rfl
  | succ width ih => rw [store, List.length_cons, ih]

theorem foldl_load (n : Bytes) (v : ℕ) :
    n.foldl (fun v b => 256 * v + b.toNat) v = v * 256 ^ n.length + load n := by
  induction n generalizing v with
  | nil => simp [load]
  | cons b n ih =>
    have hload : load (b :: n) = n.foldl (fun v b => 256 * v + b.toNat) (256 * 0 + b.toNat) := rfl
    rw [List.foldl_cons, hload, ih, ih (256 * 0 + b.toNat), List.length_cons]
    ring

theorem load_cons (b : UInt8) (n : Bytes) : load (b :: n) = b.toNat * 256 ^ n.length + load n := by
  rw [load, List.foldl_cons, foldl_load]
  ring

theorem load_lt (n : Bytes) : load n < 256 ^ n.length := by
  induction n with
  | nil => simp [load]
  | cons b n ih =>
    have hb := b.toNat_lt
    rw [load_cons, List.length_cons, pow_succ]
    have hmul : b.toNat * 256 ^ n.length ≤ 255 * 256 ^ n.length :=
      Nat.mul_le_mul_right _ (by omega)
    omega

theorem load_store (width d : ℕ) : load (store width d) = d % 256 ^ width := by
  induction width with
  | zero => simp [store, load, Nat.mod_one]
  | succ width ih =>
    have hsplit : d % 256 ^ (width + 1) =
        d % 256 ^ width + 256 ^ width * (d / 256 ^ width % 256) := by
      rw [pow_succ, Nat.mod_mul]
    rw [store, load_cons, store_length, ih, UInt8.toNat_ofNat', hsplit, Nat.add_comm,
      Nat.mul_comm (256 ^ width)]

theorem load_store_of_lt {width d : ℕ} (h : d < 256 ^ width) : load (store width d) = d := by
  rw [load_store, Nat.mod_eq_of_lt h]

theorem castSigned_load_store {width : ℕ} {d : ℤ} (hlow : -(256 ^ width / 2 : ℕ) ≤ d)
    (hhigh : d < ((256 ^ width + 1) / 2 : ℕ)) :
    castSigned width (load (store width (castUnsigned width d))) = d := by
  have hpos : (0 : ℤ) < 256 ^ width := by positivity
  have hlt : castUnsigned width d < 256 ^ width := by
    rw [castUnsigned]
    have h := Int.emod_lt_of_pos d hpos
    zify
    rw [Int.toNat_of_nonneg (Int.emod_nonneg d hpos.ne')]
    exact_mod_cast h
  rw [load_store_of_lt hlt, castSigned, castUnsigned,
    Int.toNat_of_nonneg (Int.emod_nonneg d hpos.ne')]
  have hmod := Int.emod_bmod d (256 ^ width)
  push_cast at hmod ⊢
  rw [hmod]
  exact Int.bmod_eq_of_le hlow hhigh

theorem take8_eq (d : ℤ) : [take8 d] = store 1 (castUnsigned 1 d) := by
  rw [store, store, take8, pow_zero, Nat.div_one]

theorem store_mod (width d : ℕ) : store width (d % 256 ^ width) = store width d := by
  have h : ∀ k, k ≤ width → store k (d % 256 ^ width) = store k d := by
    intro k hk
    induction k with
    | zero => rfl
    | succ k ih =>
      have hdvd : 256 ^ k * 256 ∣ 256 ^ width := by
        rw [← pow_succ]
        exact pow_dvd_pow 256 hk
      have hdiv : d % 256 ^ width / 256 ^ k % 256 = d / 256 ^ k % 256 := by
        rw [← Nat.mod_mul_right_div_self, ← Nat.mod_mul_right_div_self, Nat.mod_mod_of_dvd d hdvd]
      rw [store, store, ih (by omega)]
      congr 1
      apply UInt8.toNat_inj.mp
      rw [UInt8.toNat_ofNat', UInt8.toNat_ofNat']
      exact hdiv
  exact h width le_rfl

theorem store_castUnsigned {width : ℕ} {d : ℤ} (h : 0 ≤ d) :
    store width (castUnsigned width d) = store width d.toNat := by
  obtain ⟨n, rfl⟩ := Int.eq_ofNat_of_zero_le h
  have hcast : castUnsigned width (n : ℤ) = n % 256 ^ width := by
    rw [castUnsigned]
    exact_mod_cast Int.toNat_natCast (n % 256 ^ width)
  rw [hcast, store_mod, Int.toNat_natCast]

/-! ## Every width packs a number alike -/

theorem packImpUint64_toNat {d : ℤ} (h : 0 ≤ d) : packImpUint64 d.toNat = packImpInt64 d := by
  have h5 : ¬d < -2 ^ 5 := by omega
  simp only [packImpUint64, packImpInt64, if_neg h5, store_castUnsigned h, Int.toNat_of_nonneg h]
  split_ifs <;> first | rfl | omega

/-- The object of a number packs as the number does with the widest of the packers. -/
theorem pack_ofInt (d : ℤ) : pack (.ofInt d) = packImpInt64 d := by
  rw [Object.ofInt]
  split_ifs with h
  · rfl
  · exact packImpUint64_toNat (by omega)

theorem pack_ofInt_natCast (d : ℕ) : pack (.ofInt d) = packImpUint64 d := by
  rw [Object.ofInt, if_neg (by omega), pack, Int.toNat_natCast]

theorem packImpUint8_eq {d : ℕ} (h : d < 2 ^ 8) : packImpUint8 d = pack (.ofInt d) := by
  rw [pack_ofInt_natCast, packImpUint8, packImpUint64]
  split_ifs <;> rfl

theorem packImpUint32_eq {d : ℕ} (h : d < 2 ^ 32) : packImpUint32 d = pack (.ofInt d) := by
  rw [pack_ofInt_natCast, packImpUint32, packImpUint64]
  split_ifs <;> rfl

theorem packImpInt32_eq {d : ℤ} (hlow : -2 ^ 31 ≤ d) (hhigh : d < 2 ^ 31) :
    packImpInt32 d = pack (.ofInt d) := by
  rw [pack_ofInt, packImpInt32, packImpInt64]
  split_ifs <;> first | rfl | omega

/-- The packers of the eight integer types write the same bytes for a number that their types
share, although each tests for the short forms in its own order. -/
theorem packImp_eq_pack :
    (∀ d : ℕ, d < 2 ^ 8 → packImpUint8 d = pack (.ofInt d)) ∧
      (∀ d : ℕ, d < 2 ^ 16 → packImpUint16 d = pack (.ofInt d)) ∧
      (∀ d : ℕ, d < 2 ^ 32 → packImpUint32 d = pack (.ofInt d)) ∧
      (∀ d : ℕ, packImpUint64 d = pack (.ofInt d)) ∧
      (∀ d : ℤ, -2 ^ 7 ≤ d → d < 2 ^ 7 → packImpInt8 d = pack (.ofInt d)) ∧
      (∀ d : ℤ, -2 ^ 15 ≤ d → d < 2 ^ 15 → packImpInt16 d = pack (.ofInt d)) ∧
      (∀ d : ℤ, -2 ^ 31 ≤ d → d < 2 ^ 31 → packImpInt32 d = pack (.ofInt d)) ∧
      ∀ d : ℤ, packImpInt64 d = pack (.ofInt d) := by
  refine ⟨fun d => packImpUint8_eq, ?_, fun d => packImpUint32_eq,
    fun d => (pack_ofInt_natCast d).symm, ?_, ?_, fun d => packImpInt32_eq,
    fun d => (pack_ofInt d).symm⟩
  · intro d h
    rw [pack_ofInt_natCast, packImpUint16, packImpUint64]
    split_ifs <;> first | rfl | omega
  · intro d hlow hhigh
    rw [pack_ofInt, packImpInt8, packImpInt64]
    split_ifs <;> first | rfl | omega
  · intro d hlow hhigh
    rw [pack_ofInt, packImpInt16, packImpInt64]
    split_ifs <;> first | rfl | omega

end PromiseDemo.MsgPack
