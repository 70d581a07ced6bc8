import PromiseDemo.MsgPack.Unpack

/-!
# What is packed is read back

The parser reads the bytes of a packed object as that object wherever it meets them: at the top
level, as a slot of an array, or as a key or a value of a map.  This form of the statement does
not mention the containers that are open, and is what the induction over objects needs.
-/

namespace PromiseDemo.MsgPack

open Resumable

/-- How the parser goes on once it has read `o`. -/
def settle (stack : List StackElem) (o : Object) (rest : Bytes) : Outcome Context Object UInt8 :=
  match consume o stack with
  | .inl result => .item result rest
  | .inr stack => execute ⟨none, stack⟩ rest

/-- The bytes `b` are read as `o`, whatever containers are open and whatever follows. -/
def ReadAs (b : Bytes) (o : Object) : Prop :=
  ∀ stack rest, execute ⟨none, stack⟩ (b ++ rest) = settle stack o rest

theorem execute_visit {ctx : Context} {b : Bytes} {stack : List StackElem} {o : Object}
    {rest : Bytes} (h : iterate ample ctx b = afterVisitProc stack o rest) :
    execute ctx b = settle stack o rest := by
  rw [afterVisitProc] at h
  rw [settle]
  cases hc : consume o stack with
  | inl result =>
    rw [hc] at h
    exact machine.run_of_done h
  | inr st =>
    rw [hc] at h
    exact machine.run_of_next h

/-! ## One format at a time -/

theorem readAs_byte {byte : UInt8} {o : Object}
    (h : ∀ stack rest, executeHeader ample stack byte rest = afterVisitProc stack o rest) :
    ReadAs [byte] o :=
  fun stack rest => execute_visit (h stack rest)

theorem execute_trail {byte : UInt8} {t : Trail} {n : Bytes} {stack : List StackElem}
    (rest : Bytes)
    (hbyte : ∀ r, executeHeader ample stack byte r = .next ⟨some t, stack⟩ r)
    (hn : n.length = t.trail) :
    execute ⟨none, stack⟩ (byte :: n ++ rest) = execute ⟨some t, stack⟩ (n ++ rest) ∧
      iterate ample ⟨some t, stack⟩ (n ++ rest) = executeTrail ample stack t.cs n rest :=
  ⟨machine.run_of_next (hbyte (n ++ rest)), iterate_trail ample stack t rest hn⟩

theorem readAs_trail {byte : UInt8} {t : Trail} {n : Bytes} {o : Object}
    (hbyte : ∀ stack r, executeHeader ample stack byte r = .next ⟨some t, stack⟩ r)
    (hn : n.length = t.trail)
    (h : ∀ stack rest, executeTrail ample stack t.cs n rest = afterVisitProc stack o rest) :
    ReadAs (byte :: n) o := by
  intro stack rest
  obtain ⟨hrun, hstep⟩ := execute_trail rest (hbyte stack) hn
  rw [hrun]
  exact execute_visit (hstep.trans (h stack rest))

theorem execute_value {ctx : Context} {b body rest : Bytes} {stack : List StackElem} (cs : Cs)
    (visit : Bytes → Object)
    (hvisit : ∀ n r, executeTrail ample stack cs n r = afterVisitProc stack (visit n) r)
    (h : iterate ample ctx b = startValue stack cs visit body.length (body ++ rest)) :
    execute ctx b = settle stack (visit body) rest := by
  by_cases hb : body.length = 0
  · rw [startValue, dif_pos hb] at h
    rw [List.length_eq_zero_iff.mp hb] at h ⊢
    exact execute_visit h
  · rw [startValue, dif_neg hb] at h
    have hstep := iterate_trail ample stack ⟨cs, body.length, Nat.pos_of_ne_zero hb⟩ rest rfl
    rw [execute, machine.run_of_next h]
    exact execute_visit (hstep.trans (hvisit body rest))

theorem readAs_value {byte : UInt8} {t : Trail} {n body : Bytes} {visit : Bytes → Object}
    (cs : Cs)
    (hbyte : ∀ stack r, executeHeader ample stack byte r = .next ⟨some t, stack⟩ r)
    (hn : n.length = t.trail)
    (hvisit : ∀ stack n r, executeTrail ample stack cs n r = afterVisitProc stack (visit n) r)
    (h : ∀ stack rest, executeTrail ample stack t.cs n rest =
      startValue stack cs visit body.length rest) :
    ReadAs (byte :: n ++ body) (visit body) := by
  intro stack rest
  rw [List.append_assoc]
  obtain ⟨hrun, hstep⟩ := execute_trail (body ++ rest) (hbyte stack) hn
  rw [hrun]
  exact execute_value cs visit (hvisit stack) (hstep.trans (h stack _))

/-! ## Integers -/

private theorem fixnum_toNat (d : ℕ) (h : d < 2 ^ 7) : (take8 d).toNat = d := by
  have hcast : castUnsigned 1 d = d := by
    rw [castUnsigned]
    omega
  rw [take8, hcast, UInt8.toNat_ofNat']
  omega

theorem readAs_fixnum {d : ℕ} (h : d < 2 ^ 7) : ReadAs [take8 d] (.positiveInteger d) := by
  apply readAs_byte
  intro stack rest
  have hle : d ≤ 0x7f := by omega
  simp only [executeHeader, fixnum_toNat d h, if_pos hle]

theorem readAs_uint {byte : UInt8} {width : ℕ} {d : ℕ} {w : 0 < width}
    (hbyte : ∀ stack r, executeHeader ample stack byte r = .next ⟨some ⟨.uint width, width, w⟩, stack⟩ r)
    (h : d < 256 ^ width) : ReadAs (byte :: store width d) (.positiveInteger d) := by
  apply readAs_trail hbyte (store_length _ _)
  intro stack rest
  rw [executeTrail, load_store_of_lt h]

theorem readAs_packImpUint64 {d : ℕ} (h : d < 2 ^ 64) :
    ReadAs (packImpUint64 d) (.positiveInteger d) := by
  have h8 : d < 2 ^ 8 → ReadAs [0xcc, take8 d] (.positiveInteger d) := by
    intro hd
    rw [take8_eq, store_castUnsigned (by omega)]
    exact readAs_uint (w := by decide) (fun _ _ => rfl) (by omega)
  rw [packImpUint64]
  split_ifs with h8' h7 h16 h32
  · exact readAs_fixnum h7
  · exact h8 h8'
  · exact readAs_uint (w := by decide) (fun _ _ => rfl) (by omega)
  · exact readAs_uint (w := by decide) (fun _ _ => rfl) (by omega)
  · exact readAs_uint (w := by decide) (fun _ _ => rfl) (by omega)

theorem readAs_int {byte : UInt8} {width : ℕ} {d : ℤ} {w : 0 < width}
    (hbyte : ∀ stack r, executeHeader ample stack byte r = .next ⟨some ⟨.int width, width, w⟩, stack⟩ r)
    (hlow : -(256 ^ width / 2 : ℕ) ≤ d) (hneg : d < 0) :
    ReadAs (byte :: store width (castUnsigned width d)) (.negativeInteger d) := by
  apply readAs_trail hbyte (store_length _ _)
  intro stack rest
  have hhigh : d < ((256 ^ width + 1) / 2 : ℕ) := by omega
  rw [executeTrail, castSigned_load_store hlow hhigh, visitNegativeInteger, if_neg (by omega)]

theorem readAs_negativeFixnum {d : ℤ} (hlow : -2 ^ 5 ≤ d) (hneg : d < 0) :
    ReadAs [take8 d] (.negativeInteger d) := by
  apply readAs_byte
  intro stack rest
  have hcast : ((castUnsigned 1 d : ℕ) : ℤ) = d + 256 := by
    rw [castUnsigned]
    omega
  have hsel : (take8 d).toNat = castUnsigned 1 d := by
    rw [take8, UInt8.toNat_ofNat']
    omega
  have hsigned : castSigned 1 (castUnsigned 1 d) = d := by
    have hwrap : (d + 256).bmod 256 = d.bmod 256 := Int.add_bmod_right d 256
    rw [castSigned, hcast, pow_one, hwrap]
    exact Int.bmod_eq_of_le (by omega) (by omega)
  have h7f : ¬castUnsigned 1 d ≤ 0x7f := by omega
  have he0 : 0xe0 ≤ castUnsigned 1 d := by omega
  simp only [executeHeader, hsel, if_neg h7f, if_pos he0, hsigned, visitNegativeInteger]
  rw [if_neg (by omega)]

theorem readAs_packImpInt64 {d : ℤ} (hlow : -2 ^ 63 ≤ d) (hneg : d < 0) :
    ReadAs (packImpInt64 d) (.negativeInteger d) := by
  have h7 : d < 2 ^ 7 := by omega
  rw [packImpInt64, if_pos h7, take8_eq]
  split_ifs with h5 h15 h31 h8
  · exact readAs_int (w := by decide) (fun _ _ => rfl) (by omega) hneg
  · exact readAs_int (w := by decide) (fun _ _ => rfl) (by omega) hneg
  · exact readAs_int (w := by decide) (fun _ _ => rfl) (by omega) hneg
  · exact readAs_int (w := by decide) (fun _ _ => rfl) (by omega) hneg
  · rw [← take8_eq]
    exact readAs_negativeFixnum (by omega) hneg

/-! ## Strings and blocks of bytes -/

private theorem fixstr_toNat : ∀ l < 32, (UInt8.ofNat (0xa0 ||| l)).toNat = 0xa0 + l := by decide

private theorem store_one (l : ℕ) : [UInt8.ofNat l] = store 1 l := by
  rw [store, store, pow_zero, Nat.div_one]

theorem readAs_str {ptr : Bytes} (h : ptr.length < 2 ^ 32) :
    ReadAs (packStr ptr.length ++ ptr) (.str ptr) := by
  have hform : ∀ {byte : UInt8} {width : ℕ} {w : 0 < width},
      (∀ stack r, executeHeader ample stack byte r = .next ⟨some ⟨.str width, width, w⟩, stack⟩ r) →
      ptr.length < 256 ^ width → ReadAs (byte :: store width ptr.length ++ ptr) (.str ptr) := by
    intro byte width w hbyte hl
    apply readAs_value .strValue hbyte (store_length _ _) (fun _ _ _ => rfl)
    intro stack rest
    rw [executeTrail, load_store_of_lt hl]
  rw [packStr]
  split_ifs with h32 h256 h65536
  · intro stack rest
    apply execute_value .strValue .str (fun _ _ => rfl)
    have hsel := fixstr_toNat ptr.length h32
    have hlen : (0xa0 + ptr.length) &&& 0x1f = ptr.length := by
      rw [Nat.and_two_pow_sub_one_eq_mod _ 5]
      omega
    rw [List.append_assoc, List.singleton_append, iterate_header, executeHeader, hsel, hlen]
    rw [if_neg (by omega), if_neg (by omega), if_neg (by omega), if_pos (by omega)]
  · rw [store_one]
    exact hform (w := by decide) (fun _ _ => rfl) (by omega)
  · exact hform (w := by decide) (fun _ _ => rfl) (by omega)
  · exact hform (w := by decide) (fun _ _ => rfl) (by omega)

theorem readAs_bin {ptr : Bytes} (h : ptr.length < 2 ^ 32) :
    ReadAs (packBin ptr.length ++ ptr) (.bin ptr) := by
  have hform : ∀ {byte : UInt8} {width : ℕ} {w : 0 < width},
      (∀ stack r, executeHeader ample stack byte r = .next ⟨some ⟨.bin width, width, w⟩, stack⟩ r) →
      ptr.length < 256 ^ width → ReadAs (byte :: store width ptr.length ++ ptr) (.bin ptr) := by
    intro byte width w hbyte hl
    apply readAs_value .binValue hbyte (store_length _ _) (fun _ _ _ => rfl)
    intro stack rest
    rw [executeTrail, load_store_of_lt hl]
  rw [packBin]
  split_ifs with h256 h65536
  · rw [store_one]
    exact hform (w := by decide) (fun _ _ => rfl) (by omega)
  · exact hform (w := by decide) (fun _ _ => rfl) (by omega)
  · exact hform (w := by decide) (fun _ _ => rfl) (by omega)

theorem readAs_ext (type : UInt8) {data : Bytes} (h : data.length < 2 ^ 32) :
    ReadAs (packExt data.length type ++ data) (.ext type data) := by
  have hfix : ∀ {byte : UInt8} {size : ℕ} {w : 0 < size + 1},
      (∀ stack r, executeHeader ample stack byte r =
        .next ⟨some ⟨.fixext size, size + 1, w⟩, stack⟩ r) →
      data.length = size → ReadAs ([byte, type] ++ data) (.ext type data) := by
    intro byte size w hbyte hl
    exact readAs_trail hbyte (n := type :: data) (by simp [hl]) fun _ _ => rfl
  have hform : ∀ {byte : UInt8} {width : ℕ} {w : 0 < width},
      (∀ stack r, executeHeader ample stack byte r = .next ⟨some ⟨.ext width, width, w⟩, stack⟩ r) →
      data.length < 256 ^ width →
      ReadAs (byte :: (store width data.length ++ [type]) ++ data) (.ext type data) := by
    intro byte width w hbyte hl
    have hvalue : ReadAs (byte :: store width data.length ++ (type :: data))
        (visitExt (type :: data)) := by
      apply readAs_value .extValue hbyte (store_length _ _) (fun _ _ _ => rfl)
      intro stack rest
      rw [executeTrail, load_store_of_lt hl, List.length_cons]
    rw [← List.cons_append, List.append_assoc]
    exact hvalue
  rw [packExt]
  split_ifs with h1 h2 h4 h8 h16 h256 h65536
  · exact hfix (w := by decide) (fun _ _ => rfl) h1
  · exact hfix (w := by decide) (fun _ _ => rfl) h2
  · exact hfix (w := by decide) (fun _ _ => rfl) h4
  · exact hfix (w := by decide) (fun _ _ => rfl) h8
  · exact hfix (w := by decide) (fun _ _ => rfl) h16
  · have hbyte : ∀ stack r, executeHeader ample stack 0xc7 r =
        .next ⟨some ⟨.ext 1, 1, by decide⟩, stack⟩ r := fun _ _ => rfl
    have hone := hform hbyte (by omega)
    rwa [← store_one] at hone
  · exact hform (w := by decide) (fun _ _ => rfl) (by omega)
  · exact hform (w := by decide) (fun _ _ => rfl) (by omega)

/-! ## Containers -/

private theorem fixcontainer_toNat (fix : ℕ) (hfix : fix = 0x80 ∨ fix = 0x90) :
    ∀ n < 16, (UInt8.ofNat (fix ||| n)).toNat = fix + n := by
  rcases hfix with rfl | rfl <;> decide

theorem execute_packArray {n : ℕ} (h : n < 2 ^ 32) (stack : List StackElem) (rest : Bytes) :
    ∃ ctx b, execute ⟨none, stack⟩ (packArray n ++ rest) = execute ctx b ∧
      iterate ample ctx b = startArray ample stack n rest := by
  have hform : ∀ {byte : UInt8} {width : ℕ} {w : 0 < width},
      (∀ r, executeHeader ample stack byte r = .next ⟨some ⟨.array width, width, w⟩, stack⟩ r) →
      n < 256 ^ width → ∃ ctx b, execute ⟨none, stack⟩ (byte :: store width n ++ rest) =
        execute ctx b ∧ iterate ample ctx b = startArray ample stack n rest := by
    intro byte width w hbyte hn
    obtain ⟨hrun, hstep⟩ := execute_trail rest hbyte (store_length width n)
    refine ⟨_, _, hrun, ?_⟩
    rw [hstep, executeTrail, load_store_of_lt hn]
  rw [packArray, packContainer]
  split_ifs with h16 h65536
  · refine ⟨_, _, rfl, ?_⟩
    have hsel := fixcontainer_toNat 0x90 (.inr rfl) n h16
    have hlen : (0x90 + n) &&& 0x0f = n := by
      rw [Nat.and_two_pow_sub_one_eq_mod _ 4]
      omega
    rw [List.singleton_append, iterate_header, executeHeader, hsel, hlen, if_neg (by omega),
      if_neg (by omega), if_neg (by omega), if_neg (by omega), if_pos (by omega)]
  · exact hform (w := by decide) (fun _ => rfl) (by omega)
  · exact hform (w := by decide) (fun _ => rfl) (by omega)

theorem execute_packMap {n : ℕ} (h : n < 2 ^ 32) (stack : List StackElem) (rest : Bytes) :
    ∃ ctx b, execute ⟨none, stack⟩ (packMap n ++ rest) = execute ctx b ∧
      iterate ample ctx b = startMap ample stack n rest := by
  have hform : ∀ {byte : UInt8} {width : ℕ} {w : 0 < width},
      (∀ r, executeHeader ample stack byte r = .next ⟨some ⟨.map width, width, w⟩, stack⟩ r) →
      n < 256 ^ width → ∃ ctx b, execute ⟨none, stack⟩ (byte :: store width n ++ rest) =
        execute ctx b ∧ iterate ample ctx b = startMap ample stack n rest := by
    intro byte width w hbyte hn
    obtain ⟨hrun, hstep⟩ := execute_trail rest hbyte (store_length width n)
    refine ⟨_, _, hrun, ?_⟩
    rw [hstep, executeTrail, load_store_of_lt hn]
  rw [packMap, packContainer]
  split_ifs with h16 h65536
  · refine ⟨_, _, rfl, ?_⟩
    have hsel := fixcontainer_toNat 0x80 (.inl rfl) n h16
    have hlen : (0x80 + n) &&& 0x0f = n := by
      rw [Nat.and_two_pow_sub_one_eq_mod _ 4]
      omega
    rw [List.singleton_append, iterate_header, executeHeader, hsel, hlen, if_neg (by omega),
      if_neg (by omega), if_neg (by omega), if_neg (by omega), if_neg (by omega),
      if_pos (by omega)]
  · exact hform (w := by decide) (fun _ => rfl) (by omega)
  · exact hform (w := by decide) (fun _ => rfl) (by omega)

theorem settle_arrayItem (rest : ℕ) (filled : List Object) (stack : List StackElem) (o : Object)
    (b : Bytes) : settle (.arrayItem rest filled :: stack) o b =
      if rest - 1 = 0 then settle stack (.array (filled ++ [o])) b
      else execute ⟨none, .arrayItem (rest - 1) (filled ++ [o]) :: stack⟩ b := by
  rw [settle, consume]
  split_ifs <;> rfl

theorem settle_mapKey (rest : ℕ) (filled : List (Object × Object)) (stack : List StackElem)
    (o : Object) (b : Bytes) : settle (.mapKey rest filled :: stack) o b =
      execute ⟨none, .mapValue rest filled o :: stack⟩ b := rfl

theorem settle_mapValue (rest : ℕ) (filled : List (Object × Object)) (key : Object)
    (stack : List StackElem) (o : Object) (b : Bytes) :
    settle (.mapValue rest filled key :: stack) o b =
      if rest - 1 = 0 then settle stack (.map (filled ++ [(key, o)])) b
      else execute ⟨none, .mapKey (rest - 1) (filled ++ [(key, o)]) :: stack⟩ b := by
  rw [settle, consume]
  split_ifs <;> rfl

theorem execute_packItems {os : List Object} (hos : ∀ o ∈ os, ReadAs (pack o) o) (hne : os ≠ [])
    (filled : List Object) (stack : List StackElem) (rest : Bytes) :
    execute ⟨none, .arrayItem os.length filled :: stack⟩ (packItems os ++ rest) =
      settle stack (.array (filled ++ os)) rest := by
  induction os generalizing filled with
  | nil => exact absurd rfl hne
  | cons o os ih =>
    have ho : ReadAs (pack o) o := hos o (List.mem_cons_self ..)
    have htail : ∀ x ∈ os, ReadAs (pack x) x := fun x hx => hos x (List.mem_cons_of_mem _ hx)
    rw [packItems, List.append_assoc, ho, settle_arrayItem, List.length_cons,
      Nat.add_sub_cancel]
    cases os with
    | nil => rw [List.length_nil, if_pos rfl, packItems, List.nil_append]
    | cons x os =>
      rw [if_neg (by simp), ih htail (by simp), List.append_assoc, List.singleton_append]

theorem execute_packPairs {ps : List (Object × Object)} (hkeys : ∀ p ∈ ps, ReadAs (pack p.1) p.1)
    (hvals : ∀ p ∈ ps, ReadAs (pack p.2) p.2) (hne : ps ≠ [])
    (filled : List (Object × Object)) (stack : List StackElem) (rest : Bytes) :
    execute ⟨none, .mapKey ps.length filled :: stack⟩ (packPairs ps ++ rest) =
      settle stack (.map (filled ++ ps)) rest := by
  induction ps generalizing filled with
  | nil => exact absurd rfl hne
  | cons p ps ih =>
    obtain ⟨key, val⟩ := p
    have hkey : ReadAs (pack key) key := hkeys (key, val) (List.mem_cons_self ..)
    have hval : ReadAs (pack val) val := hvals (key, val) (List.mem_cons_self ..)
    rw [packPairs, List.append_assoc, hkey, settle_mapKey, List.append_assoc, hval,
      settle_mapValue, List.length_cons, Nat.add_sub_cancel]
    cases ps with
    | nil => rw [List.length_nil, if_pos rfl, packPairs, List.nil_append]
    | cons q ps =>
      rw [if_neg (by simp), ih (fun x hx => hkeys x (List.mem_cons_of_mem _ hx))
        (fun x hx => hvals x (List.mem_cons_of_mem _ hx)) (by simp), List.append_assoc,
        List.singleton_append]

theorem readAs_array {ptr : List Object} (h : ptr.length < 2 ^ 32)
    (hos : ∀ o ∈ ptr, ReadAs (pack o) o) : ReadAs (pack (.array ptr)) (.array ptr) := by
  intro stack rest
  obtain ⟨ctx, b, hrun, hstep⟩ := execute_packArray h stack (packItems ptr ++ rest)
  rw [pack, List.append_assoc, hrun]
  cases ptr with
  | nil => exact execute_visit hstep
  | cons o os =>
    rw [startArray, if_neg (by simp), if_pos rfl] at hstep
    rw [execute, machine.run_of_next hstep]
    exact execute_packItems hos (by simp) [] stack rest

theorem readAs_map {ptr : List (Object × Object)} (h : ptr.length < 2 ^ 32)
    (hkeys : ∀ p ∈ ptr, ReadAs (pack p.1) p.1) (hvals : ∀ p ∈ ptr, ReadAs (pack p.2) p.2) :
    ReadAs (pack (.map ptr)) (.map ptr) := by
  intro stack rest
  obtain ⟨ctx, b, hrun, hstep⟩ := execute_packMap h stack (packPairs ptr ++ rest)
  rw [pack, List.append_assoc, hrun]
  cases ptr with
  | nil => exact execute_visit hstep
  | cons p ps =>
    rw [startMap, if_neg (by simp), if_pos rfl] at hstep
    rw [execute, machine.run_of_next hstep]
    exact execute_packPairs hkeys hvals (by simp) [] stack rest

/-! ## The round trip -/

/-- The parser reads what the packer has written, by induction on the object. -/
theorem readAs_pack {o : Object} (h : o.WellFormed) : ReadAs (pack o) o := by
  induction h with
  | nil => exact readAs_byte fun _ _ => rfl
  | boolean v => cases v <;> exact readAs_byte fun _ _ => rfl
  | positiveInteger hlt => exact readAs_packImpUint64 hlt
  | negativeInteger hlow hneg => exact readAs_packImpInt64 hlow hneg
  | float32 hlt hquiet =>
    apply readAs_trail (t := ⟨.float, 4, by decide⟩) (fun _ _ => rfl) (store_length _ _)
    intro stack rest
    rw [executeTrail, load_store_of_lt (by omega), hquiet]
  | float64 hlt =>
    apply readAs_trail (t := ⟨.double, 8, by decide⟩) (fun _ _ => rfl) (store_length _ _)
    intro stack rest
    rw [executeTrail, load_store_of_lt (by omega)]
  | str hlen => exact readAs_str hlen
  | bin hlen => exact readAs_bin hlen
  | ext type hlen => exact readAs_ext type hlen
  | array hlen _ ih => exact readAs_array hlen ih
  | map hlen _ _ ihkeys ihvals => exact readAs_map hlen ihkeys ihvals

/-- The packer writes a code that the parser reads. -/
theorem reads_pack : machine.Reads pack Object.WellFormed :=
  fun _ rest h => readAs_pack h [] rest

/-- No two objects are packed alike. -/
theorem pack_inj {o o' : Object} (ho : o.WellFormed) (ho' : o'.WellFormed) (h : pack o = pack o') :
    o = o' := by
  have hread := reads_pack o [] ho
  rw [h, reads_pack o' [] ho'] at hread
  cases hread
  rfl

end PromiseDemo.MsgPack
