import PromiseDemo.MsgPack.RoundTrip

/-!
# What the parser accepts

The parser takes any bytes, not only packed ones.  Whatever it makes of them is a well-formed
object, and packing that object again never takes more bytes than the parser has read for it.
Both come from one invariant of the parser's state: the containers that are open are well formed
so far, and what has been read covers at least what packing them so far would write.
-/

namespace PromiseDemo.MsgPack

open Resumable

/-! ## Sizes of packed objects -/

theorem packImpUint64_length_le {d width : ℕ} (h : d < 256 ^ width)
    (hw : width = 1 ∨ width = 2 ∨ width = 4 ∨ width = 8) :
    (packImpUint64 d).length ≤ width + 1 := by
  rw [packImpUint64]
  rcases hw with rfl | rfl | rfl | rfl <;> split_ifs <;>
    simp only [List.length_cons, List.length_nil, store_length] <;> omega

theorem packImpInt64_length_le {d : ℤ} {width : ℕ} (h : -(256 ^ width / 2 : ℕ) ≤ d) (hneg : d < 0)
    (hw : width = 1 ∨ width = 2 ∨ width = 4 ∨ width = 8) :
    (packImpInt64 d).length ≤ width + 1 := by
  have h7 : d < 2 ^ 7 := by omega
  rw [packImpInt64, if_pos h7]
  rcases hw with rfl | rfl | rfl | rfl <;> split_ifs <;>
    simp only [List.length_cons, List.length_nil, store_length] <;> omega

theorem packStr_length_le {l width : ℕ} (h : l < 256 ^ width)
    (hw : width = 1 ∨ width = 2 ∨ width = 4) : (packStr l).length ≤ width + 1 := by
  rw [packStr]
  rcases hw with rfl | rfl | rfl <;> split_ifs <;>
    simp only [List.length_cons, List.length_nil, store_length] <;> omega

theorem packBin_length_le {l width : ℕ} (h : l < 256 ^ width)
    (hw : width = 1 ∨ width = 2 ∨ width = 4) : (packBin l).length ≤ width + 1 := by
  rw [packBin]
  rcases hw with rfl | rfl | rfl <;> split_ifs <;>
    simp only [List.length_cons, List.length_nil, store_length] <;> omega

theorem packExt_length_le {l width : ℕ} (type : UInt8) (h : l < 256 ^ width)
    (hw : width = 1 ∨ width = 2 ∨ width = 4) : (packExt l type).length ≤ width + 2 := by
  rw [packExt]
  rcases hw with rfl | rfl | rfl <;> split_ifs <;>
    simp only [List.length_cons, List.length_nil, List.length_append, store_length] <;> omega

theorem packExt_length (l : ℕ) (type type' : UInt8) :
    (packExt l type).length = (packExt l type').length := by
  rw [packExt, packExt]
  split_ifs <;> simp

theorem packContainer_length_le {fix : ℕ} {tag16 tag32 : UInt8} {n width : ℕ}
    (h : n < 256 ^ width) (hw : width = 2 ∨ width = 4) :
    (packContainer fix tag16 tag32 n).length ≤ width + 1 := by
  rw [packContainer]
  rcases hw with rfl | rfl <;> split_ifs <;>
    simp only [List.length_cons, List.length_nil, store_length] <;> omega

theorem packItems_append (os ps : List Object) :
    packItems (os ++ ps) = packItems os ++ packItems ps := by
  induction os with
  | nil => rfl
  | cons o os ih => rw [List.cons_append, packItems, packItems, ih, List.append_assoc]

theorem packPairs_append (os ps : List (Object × Object)) :
    packPairs (os ++ ps) = packPairs os ++ packPairs ps := by
  induction os with
  | nil => rfl
  | cons o os ih =>
    obtain ⟨key, val⟩ := o
    rw [List.cons_append, packPairs, packPairs, ih, List.append_assoc, List.append_assoc]

/-! ## The invariant -/

/-- A trail that the parser can wait for: the bytes of a number or a length, or the contents of
a string or a block whose length it has read. -/
def Trail.Ok (t : Trail) : Prop :=
  match t.cs with
  | .uint width | .int width =>
      t.trail = width ∧ (width = 1 ∨ width = 2 ∨ width = 4 ∨ width = 8)
  | .bin width | .ext width | .str width =>
      t.trail = width ∧ (width = 1 ∨ width = 2 ∨ width = 4)
  | .array width | .map width => t.trail = width ∧ (width = 2 ∨ width = 4)
  | .float => t.trail = 4
  | .double => t.trail = 8
  | .fixext size =>
      t.trail = size + 1 ∧ (size = 1 ∨ size = 2 ∨ size = 4 ∨ size = 8 ∨ size = 16)
  | .strValue | .binValue => t.trail < 2 ^ 32
  | .extValue => t.trail ≤ 2 ^ 32

/-- The bytes of the object behind which the trail stands, if it is packed. -/
def Trail.read (t : Trail) : ℕ :=
  match t.cs with
  | .strValue => (packStr t.trail).length
  | .binValue => (packBin t.trail).length
  | .extValue => (packExt (t.trail - 1) 0).length - 1
  | _ => 1

/-- An open container has slots to go and is well formed so far. -/
def StackElem.Ok : StackElem → Prop
  | .arrayItem rest filled =>
      1 ≤ rest ∧ filled.length + rest < 2 ^ 32 ∧ ∀ o ∈ filled, o.WellFormed
  | .mapKey rest filled =>
      1 ≤ rest ∧ filled.length + rest < 2 ^ 32 ∧ (∀ p ∈ filled, p.1.WellFormed) ∧
        ∀ p ∈ filled, p.2.WellFormed
  | .mapValue rest filled key =>
      1 ≤ rest ∧ filled.length + rest < 2 ^ 32 ∧ (∀ p ∈ filled, p.1.WellFormed) ∧
        (∀ p ∈ filled, p.2.WellFormed) ∧ key.WellFormed

/-- The bytes that packing an open container has written so far. -/
def StackElem.read : StackElem → ℕ
  | .arrayItem rest filled =>
      (packArray (filled.length + rest)).length + (packItems filled).length
  | .mapKey rest filled => (packMap (filled.length + rest)).length + (packPairs filled).length
  | .mapValue rest filled key =>
      (packMap (filled.length + rest)).length + (packPairs filled).length + (pack key).length

/-- The bytes that packing the open containers has written so far. -/
def stackRead (stack : List StackElem) : ℕ := (stack.map StackElem.read).sum

/-- The invariant of the parser. -/
def Context.Ok (ctx : Context) : Prop := (∀ t ∈ ctx.cs, t.Ok) ∧ ∀ e ∈ ctx.stack, e.Ok

/-- The least number of bytes behind the parser. -/
def Context.read (ctx : Context) : ℕ := (ctx.cs.map Trail.read).getD 0 + stackRead ctx.stack

/-- An iteration keeps the invariant with at most `k` bytes read in all and left. -/
def Sat (k : ℕ) : Step Context Object UInt8 → Prop
  | .next ctx rest => ctx.Ok ∧ ctx.read + rest.length ≤ k
  | .done o rest => o.WellFormed ∧ (pack o).length + rest.length ≤ k
  | _ => True

theorem stackRead_cons (e : StackElem) (stack : List StackElem) :
    stackRead (e :: stack) = e.read + stackRead stack := rfl

theorem consume_ok {o : Object} {stack : List StackElem} (ho : o.WellFormed)
    (hstack : ∀ e ∈ stack, e.Ok) :
    match consume o stack with
    | .inl result => result.WellFormed ∧ (pack result).length = (pack o).length + stackRead stack
    | .inr stack' => (∀ e ∈ stack', e.Ok) ∧
        stackRead stack' = (pack o).length + stackRead stack := by
  induction stack generalizing o with
  | nil => exact ⟨ho, rfl⟩
  | cons e stack ih =>
    have htail : ∀ e ∈ stack, e.Ok := fun x hx => hstack x (List.mem_cons_of_mem _ hx)
    have he : e.Ok := hstack e (List.mem_cons_self ..)
    cases e with
    | arrayItem rest filled =>
      obtain ⟨hrest, hlen, hfilled⟩ := he
      have hslots : ∀ x ∈ filled ++ [o], x.WellFormed := by
        simp only [List.mem_append, List.mem_singleton]
        rintro x (hx | rfl)
        · exact hfilled x hx
        · exact ho
      have hread : (packItems (filled ++ [o])).length =
          (packItems filled).length + (pack o).length := by
        rw [packItems_append, List.length_append, packItems, packItems, List.append_nil]
      rw [consume]
      split_ifs with hlast
      · have hone : rest = 1 := by omega
        have h := ih (.array (by simp; omega) hslots) htail
        have hpack : (pack (.array (filled ++ [o]))).length =
            (packArray (filled.length + rest)).length +
              ((packItems filled).length + (pack o).length) := by
          rw [pack, List.length_append, hread, hone]
          simp
        rw [hpack] at h
        simp only [stackRead_cons, StackElem.read]
        cases hc : consume (.array (filled ++ [o])) stack <;> rw [hc] at h <;>
          exact ⟨h.1, by have := h.2; omega⟩
      · refine ⟨?_, ?_⟩
        · intro x hx
          rcases List.mem_cons.mp hx with rfl | hx
          · exact ⟨by omega, by simp; omega, hslots⟩
          · exact htail x hx
        · have hsize : (filled ++ [o]).length + (rest - 1) = filled.length + rest := by
            simp
            omega
          simp only [stackRead_cons, StackElem.read]
          rw [hsize, hread]
          omega
    | mapKey rest filled =>
      obtain ⟨hrest, hlen, hkeys, hvals⟩ := he
      refine ⟨?_, ?_⟩
      · intro x hx
        rcases List.mem_cons.mp hx with rfl | hx
        · exact ⟨hrest, hlen, hkeys, hvals, ho⟩
        · exact htail x hx
      · simp only [stackRead_cons, StackElem.read]
        omega
    | mapValue rest filled key =>
      obtain ⟨hrest, hlen, hkeys, hvals, hkey⟩ := he
      have hkeys' : ∀ p ∈ filled ++ [(key, o)], p.1.WellFormed := by
        simp only [List.mem_append, List.mem_singleton]
        rintro p (hp | rfl)
        · exact hkeys p hp
        · exact hkey
      have hvals' : ∀ p ∈ filled ++ [(key, o)], p.2.WellFormed := by
        simp only [List.mem_append, List.mem_singleton]
        rintro p (hp | rfl)
        · exact hvals p hp
        · exact ho
      have hread : (packPairs (filled ++ [(key, o)])).length =
          (packPairs filled).length + (pack key).length + (pack o).length := by
        rw [packPairs_append, List.length_append, packPairs, packPairs, List.append_nil,
          List.length_append, Nat.add_assoc]
      rw [consume]
      split_ifs with hlast
      · have hone : rest = 1 := by omega
        have h := ih (.map (by simp; omega) hkeys' hvals') htail
        have hpack : (pack (.map (filled ++ [(key, o)]))).length =
            (packMap (filled.length + rest)).length +
              ((packPairs filled).length + (pack key).length + (pack o).length) := by
          rw [pack, List.length_append, hread, hone]
          simp
        rw [hpack] at h
        simp only [stackRead_cons, StackElem.read]
        cases hc : consume (.map (filled ++ [(key, o)])) stack <;> rw [hc] at h <;>
          exact ⟨h.1, by have := h.2; omega⟩
      · refine ⟨?_, ?_⟩
        · intro x hx
          rcases List.mem_cons.mp hx with rfl | hx
          · exact ⟨by omega, by simp; omega, hkeys', hvals'⟩
          · exact htail x hx
        · have hsize : (filled ++ [(key, o)]).length + (rest - 1) = filled.length + rest := by
            simp
            omega
          simp only [stackRead_cons, StackElem.read]
          rw [hsize, hread]
          omega

theorem afterVisitProc_sat {stack : List StackElem} {o : Object} {rest : Bytes} {k : ℕ}
    (hstack : ∀ e ∈ stack, e.Ok) (ho : o.WellFormed)
    (hk : (pack o).length + stackRead stack + rest.length ≤ k) :
    Sat k (afterVisitProc stack o rest) := by
  have h := consume_ok ho hstack
  rw [afterVisitProc]
  cases hc : consume o stack with
  | inl result =>
    rw [hc] at h
    exact ⟨h.1, by rw [h.2]; exact hk⟩
  | inr st =>
    rw [hc] at h
    refine ⟨⟨by simp, h.1⟩, ?_⟩
    rw [Context.read, h.2]
    simpa using hk

theorem startArray_sat {stack : List StackElem} {size : ℕ} {rest : Bytes} {k : ℕ}
    (hstack : ∀ e ∈ stack, e.Ok) (hsize : size < 2 ^ 32)
    (hk : (packArray size).length + stackRead stack + rest.length ≤ k) :
    Sat k (startArray ample stack size rest) := by
  rw [startArray]
  split_ifs with hzero hroom
  · refine afterVisitProc_sat hstack (.array (by simp) (by simp)) ?_
    rw [hzero] at hk
    simpa [pack, packItems] using hk
  · refine ⟨⟨by simp, ?_⟩, ?_⟩
    · intro e he
      rcases List.mem_cons.mp he with rfl | he
      · exact ⟨Nat.pos_of_ne_zero hzero, by simpa using hsize, by simp⟩
      · exact hstack e he
    · simpa [Context.read, stackRead_cons, StackElem.read, packItems] using hk
  · exact absurd rfl hroom

theorem startMap_sat {stack : List StackElem} {size : ℕ} {rest : Bytes} {k : ℕ}
    (hstack : ∀ e ∈ stack, e.Ok) (hsize : size < 2 ^ 32)
    (hk : (packMap size).length + stackRead stack + rest.length ≤ k) :
    Sat k (startMap ample stack size rest) := by
  rw [startMap]
  split_ifs with hzero hroom
  · refine afterVisitProc_sat hstack (.map (by simp) (by simp) (by simp)) ?_
    rw [hzero] at hk
    simpa [pack, packPairs] using hk
  · refine ⟨⟨by simp, ?_⟩, ?_⟩
    · intro e he
      rcases List.mem_cons.mp he with rfl | he
      · exact ⟨Nat.pos_of_ne_zero hzero, by simpa using hsize, by simp, by simp⟩
      · exact hstack e he
    · simpa [Context.read, stackRead_cons, StackElem.read, packPairs] using hk
  · exact absurd rfl hroom

theorem startValue_sat {stack : List StackElem} {cs : Cs} {visit : Bytes → Object} {length : ℕ}
    {rest : Bytes} {k : ℕ} (hstack : ∀ e ∈ stack, e.Ok)
    (hempty : length = 0 → (visit []).WellFormed ∧
      (pack (visit [])).length + stackRead stack + rest.length ≤ k)
    (hcs : ∀ h : 0 < length, Trail.Ok ⟨cs, length, h⟩ ∧
      Trail.read ⟨cs, length, h⟩ + stackRead stack + rest.length ≤ k) :
    Sat k (startValue stack cs visit length rest) := by
  rw [startValue]
  split_ifs with hzero
  · exact afterVisitProc_sat hstack (hempty hzero).1 (hempty hzero).2
  · obtain ⟨hok, hread⟩ := hcs (Nat.pos_of_ne_zero hzero)
    refine ⟨⟨?_, hstack⟩, ?_⟩
    · intro t ht
      cases ht
      exact hok
    · simpa [Context.read] using hread

theorem startStr_sat {stack : List StackElem} {length : ℕ} {rest : Bytes} {k : ℕ}
    (hstack : ∀ e ∈ stack, e.Ok) (hlength : length < 2 ^ 32)
    (hk : (packStr length).length + stackRead stack + rest.length ≤ k) :
    Sat k (startValue stack .strValue .str length rest) := by
  refine startValue_sat hstack ?_ fun h => ⟨hlength, hk⟩
  intro hzero
  rw [hzero] at hk
  exact ⟨.str (by simp), by simpa [pack] using hk⟩

theorem startBin_sat {stack : List StackElem} {length : ℕ} {rest : Bytes} {k : ℕ}
    (hstack : ∀ e ∈ stack, e.Ok) (hlength : length < 2 ^ 32)
    (hk : (packBin length).length + stackRead stack + rest.length ≤ k) :
    Sat k (startValue stack .binValue .bin length rest) := by
  refine startValue_sat hstack ?_ fun h => ⟨hlength, hk⟩
  intro hzero
  rw [hzero] at hk
  exact ⟨.bin (by simp), by simpa [pack] using hk⟩

theorem startExt_sat {stack : List StackElem} {length : ℕ} {rest : Bytes} {k : ℕ}
    (hstack : ∀ e ∈ stack, e.Ok) (hlength : length < 2 ^ 32)
    (hk : (packExt length 0).length - 1 + stackRead stack + rest.length ≤ k) :
    Sat k (startValue stack .extValue visitExt (length + 1) rest) := by
  refine startValue_sat hstack (fun h => absurd h (by omega)) fun h => ⟨?_, hk⟩
  change length + 1 ≤ 2 ^ 32
  omega

/-! ## The visits -/

theorem castSigned_bounds {v width : ℕ} (hw : width = 1 ∨ width = 2 ∨ width = 4 ∨ width = 8) :
    -(256 ^ width / 2 : ℕ) ≤ castSigned width v ∧ castSigned width v < (256 ^ width / 2 : ℕ) := by
  have hpos : 0 < 256 ^ width := by positivity
  have hlow := Int.le_bmod (x := (v : ℤ)) hpos
  have hhigh := Int.bmod_lt (x := (v : ℤ)) hpos
  rw [castSigned]
  rcases hw with rfl | rfl | rfl | rfl <;> norm_num at hlow hhigh ⊢ <;> omega

theorem visitNegativeInteger_wellFormed {v width : ℕ}
    (hw : width = 1 ∨ width = 2 ∨ width = 4 ∨ width = 8) :
    (visitNegativeInteger (castSigned width v)).WellFormed ∧
      (pack (visitNegativeInteger (castSigned width v))).length ≤ width + 1 := by
  obtain ⟨hlow, hhigh⟩ := castSigned_bounds (v := v) hw
  rw [visitNegativeInteger]
  split_ifs with h
  · have hlt : (castSigned width v).toNat < 256 ^ width := by
      rcases hw with rfl | rfl | rfl | rfl <;> omega
    refine ⟨.positiveInteger ?_, packImpUint64_length_le hlt hw⟩
    rcases hw with rfl | rfl | rfl | rfl <;> omega
  · refine ⟨.negativeInteger ?_ (by omega), packImpInt64_length_le hlow (by omega) hw⟩
    rcases hw with rfl | rfl | rfl | rfl <;> omega

theorem pack_visitExt_length (n : Bytes) :
    (pack (visitExt n)).length = (packExt (n.length - 1) 0).length + (n.length - 1) := by
  rw [visitExt, pack, List.length_append, List.length_tail, packExt_length _ _ 0]

theorem visitExt_wellFormed {n : Bytes} (h : n.length ≤ 2 ^ 32) (hne : n ≠ []) :
    (visitExt n).WellFormed := by
  have hpos := List.length_pos_of_ne_nil hne
  apply Object.WellFormed.ext
  rw [List.length_tail]
  omega

/-! ## One iteration -/

theorem trailTable_ok : ∀ t ∈ trailTable, t.Ok ∧ t.read = 1 := by
  simp [trailTable, Trail.Ok, Trail.read]

theorem trailTable_getElem {selector : ℕ} (hlow : 0xc4 ≤ selector) (hhigh : selector ≤ 0xdf) :
    ∃ t, trailTable[selector - 0xc4]? = some t := by
  have hlength : trailTable.length = 28 := rfl
  exact Option.isSome_iff_exists.mp (by simp [hlength]; omega)

theorem trail_sat {stack : List StackElem} {t : Trail} {rest : Bytes}
    (hstack : ∀ e ∈ stack, e.Ok) (hok : t.Ok) (hread : t.read = 1) :
    Sat (stackRead stack + (rest.length + 1)) (.next ⟨some t, stack⟩ rest) := by
  refine ⟨⟨?_, hstack⟩, ?_⟩
  · intro u hu
    cases hu
    exact hok
  · change t.read + stackRead stack + rest.length ≤ _
    omega

theorem executeHeader_sat {stack : List StackElem} {byte : UInt8} {rest : Bytes}
    (hstack : ∀ e ∈ stack, e.Ok) :
    Sat (stackRead stack + (rest.length + 1)) (executeHeader ample stack byte rest) := by
  have hbyte := byte.toNat_lt
  unfold executeHeader
  dsimp only
  split_ifs with h7f he0 hc4 ha0 h90 h80
  · refine afterVisitProc_sat hstack (.positiveInteger (by omega)) ?_
    rw [pack, packImpUint64, if_pos (by omega), if_pos (by omega)]
    simp
    omega
  · have hlow : -2 ^ 5 ≤ castSigned 1 byte.toNat ∧ castSigned 1 byte.toNat < 0 := by
      rw [castSigned, Int.bmod_def]
      split_ifs <;> omega
    have hobject : visitNegativeInteger (castSigned 1 byte.toNat) =
        .negativeInteger (castSigned 1 byte.toNat) := if_neg (by omega)
    rw [hobject]
    refine afterVisitProc_sat hstack (.negativeInteger (by omega) (by omega)) ?_
    rw [pack, packImpInt64, if_neg (by omega), if_pos (by omega)]
    simp
    omega
  · obtain ⟨t, ht⟩ := trailTable_getElem hc4.1 hc4.2
    obtain ⟨hok, hread⟩ := trailTable_ok t (List.mem_of_getElem? ht)
    rw [ht]
    exact trail_sat hstack hok hread
  · have hl : byte.toNat &&& 0x1f < 32 := Nat.and_lt_two_pow _ (n := 5) (by omega)
    refine startStr_sat hstack (by omega) ?_
    rw [packStr, if_pos hl]
    simp
    omega
  · have hl : byte.toNat &&& 0x0f < 16 := Nat.and_lt_two_pow _ (n := 4) (by omega)
    refine startArray_sat hstack (by omega) ?_
    rw [packArray, packContainer, if_pos hl]
    simp
    omega
  · have hl : byte.toNat &&& 0x0f < 16 := Nat.and_lt_two_pow _ (n := 4) (by omega)
    refine startMap_sat hstack (by omega) ?_
    rw [packMap, packContainer, if_pos hl]
    simp
    omega
  · refine afterVisitProc_sat hstack (.boolean false) ?_
    simp [pack, packFalse]
    omega
  · refine afterVisitProc_sat hstack (.boolean true) ?_
    simp [pack, packTrue]
    omega
  · refine afterVisitProc_sat hstack .nil ?_
    simp [pack, packNil]
    omega
  · trivial

theorem executeTrail_sat {stack : List StackElem} {t : Trail} {n : Bytes} (rest : Bytes)
    (hstack : ∀ e ∈ stack, e.Ok) (ht : t.Ok) (hn : n.length = t.trail) :
    Sat (t.read + stackRead stack + (n.length + rest.length))
      (executeTrail ample stack t.cs n rest) := by
  obtain ⟨cs, trail, hpos⟩ := t
  have hload := load_lt n
  have hne : n ≠ [] := List.ne_nil_of_length_pos (by rw [hn]; exact hpos)
  simp only at hn
  subst hn
  cases cs with
  | float =>
    have hlen : n.length = 4 := ht
    rw [hlen] at hload
    refine afterVisitProc_sat hstack (.float32 (quiet_lt (by omega)) (quiet_quiet _)) ?_
    simp only [pack, packFloat, List.length_cons, store_length, Trail.read, hlen]
    omega
  | double =>
    have hlen : n.length = 8 := ht
    rw [hlen] at hload
    refine afterVisitProc_sat hstack (.float64 (by omega)) ?_
    simp only [pack, packDouble, List.length_cons, store_length, Trail.read, hlen]
    omega
  | uint width =>
    obtain ⟨hlen, hw⟩ := ht
    simp only at hlen
    rw [hlen] at hload
    have hpack := packImpUint64_length_le hload hw
    refine afterVisitProc_sat hstack (.positiveInteger ?_) ?_
    · rcases hw with rfl | rfl | rfl | rfl <;> omega
    · simp only [pack, Trail.read, hlen]
      omega
  | int width =>
    obtain ⟨hlen, hw⟩ := ht
    simp only at hlen
    obtain ⟨hwf, hpack⟩ := visitNegativeInteger_wellFormed (v := load n) hw
    refine afterVisitProc_sat hstack hwf ?_
    simp only [Trail.read, hlen]
    omega
  | fixext size =>
    obtain ⟨hlen, hw⟩ := ht
    simp only at hlen
    refine afterVisitProc_sat hstack (visitExt_wellFormed (by omega) hne) ?_
    have hsize : n.length - 1 = size := by omega
    rw [pack_visitExt_length, hsize]
    have hfix : (packExt size 0).length = 2 := by
      rcases hw with rfl | rfl | rfl | rfl | rfl <;> rfl
    simp only [Trail.read, hfix]
    omega
  | str width =>
    obtain ⟨hlen, hw⟩ := ht
    simp only at hlen
    rw [hlen] at hload
    have hpack := packStr_length_le hload hw
    refine startStr_sat hstack ?_ ?_
    · rcases hw with rfl | rfl | rfl <;> omega
    · simp only [Trail.read, hlen]
      omega
  | bin width =>
    obtain ⟨hlen, hw⟩ := ht
    simp only at hlen
    rw [hlen] at hload
    have hpack := packBin_length_le hload hw
    refine startBin_sat hstack ?_ ?_
    · rcases hw with rfl | rfl | rfl <;> omega
    · simp only [Trail.read, hlen]
      omega
  | ext width =>
    obtain ⟨hlen, hw⟩ := ht
    simp only at hlen
    rw [hlen] at hload
    have hpack := packExt_length_le 0 hload hw
    refine startExt_sat hstack ?_ ?_
    · rcases hw with rfl | rfl | rfl <;> omega
    · simp only [Trail.read, hlen]
      omega
  | strValue =>
    have hlen : n.length < 2 ^ 32 := ht
    refine afterVisitProc_sat hstack (.str hlen) ?_
    simp only [pack, List.length_append, Trail.read]
    omega
  | binValue =>
    have hlen : n.length < 2 ^ 32 := ht
    refine afterVisitProc_sat hstack (.bin hlen) ?_
    simp only [pack, List.length_append, Trail.read]
    omega
  | extValue =>
    have hlen : n.length ≤ 2 ^ 32 := ht
    refine afterVisitProc_sat hstack (visitExt_wellFormed hlen hne) ?_
    have hhead : 2 ≤ (packExt (n.length - 1) 0).length := by
      rw [packExt]
      split_ifs <;> simp
    rw [pack_visitExt_length]
    simp only [Trail.read]
    omega
  | array width =>
    obtain ⟨hlen, hw⟩ := ht
    simp only at hlen
    rw [hlen] at hload
    have hpack : (packArray (load n)).length ≤ width + 1 := packContainer_length_le hload hw
    refine startArray_sat hstack ?_ ?_
    · rcases hw with rfl | rfl <;> omega
    · simp only [Trail.read, hlen]
      omega
  | map width =>
    obtain ⟨hlen, hw⟩ := ht
    simp only at hlen
    rw [hlen] at hload
    have hpack : (packMap (load n)).length ≤ width + 1 := packContainer_length_le hload hw
    refine startMap_sat hstack ?_ ?_
    · rcases hw with rfl | rfl <;> omega
    · simp only [Trail.read, hlen]
      omega

/-- The step lemma: an iteration keeps the invariant and pays for what it makes. -/
theorem iterate_sat {ctx : Context} {b : Bytes} (h : ctx.Ok) :
    Sat (ctx.read + b.length) (iterate ample ctx b) := by
  obtain ⟨cs, stack⟩ := ctx
  obtain ⟨hcs, hstack⟩ := h
  cases cs with
  | none =>
    cases b with
    | nil => trivial
    | cons byte rest =>
      rw [iterate_header]
      simpa [Context.read] using executeHeader_sat hstack
  | some t =>
    by_cases hlt : b.length < t.trail
    · have hwait : iterate ample ⟨some t, stack⟩ b = .wait := if_pos hlt
      rw [hwait]
      trivial
    · have htake : (b.take t.trail).length = t.trail := List.length_take_of_le (by omega)
      have hsplit := List.take_append_drop t.trail b
      have hsat := executeTrail_sat (b.drop t.trail) hstack (hcs t rfl) htake
      rw [← iterate_trail ample stack t _ htake, ← List.length_append, hsplit] at hsat
      exact hsat

/-- The run lemma: what the parser accepts is well formed, and packs into no more bytes than
have been read for it. -/
theorem execute_sat {ctx : Context} {b rest : Bytes} {o : Object} (h : ctx.Ok)
    (hrun : execute ctx b = .item o rest) :
    o.WellFormed ∧ (pack o).length + rest.length ≤ ctx.read + b.length := by
  have hrule := machine.run_rule (s := ctx) (b := b)
    (I := fun c u => c.Ok ∧ c.read + u.length ≤ ctx.read + b.length)
    (Q := fun out => ∀ x r, out = .item x r →
      x.WellFormed ∧ (pack x).length + r.length ≤ ctx.read + b.length)
  refine hrule ?_ ?_ ?_ ?_ ⟨h, le_rfl⟩ o rest hrun
  · intro c u _ _ x r hx
    cases hx
  · intro c u c' r hI hstep
    have hsat := iterate_sat (b := u) hI.1
    rw [show iterate ample c u = .next c' r from hstep] at hsat
    exact ⟨hsat.1, hsat.2.trans hI.2⟩
  · intro c u x r hI hstep y q hy
    cases hy
    have hsat := iterate_sat (b := u) hI.1
    rw [show iterate ample c u = .done x r from hstep] at hsat
    exact ⟨hsat.1, hsat.2.trans hI.2⟩
  · intro c u _ _ x r hx
    cases hx

theorem init_ok : Context.init.Ok := ⟨by simp [Context.init], by simp [Context.init]⟩

end PromiseDemo.MsgPack
