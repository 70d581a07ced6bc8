import Mathlib.Data.List.Infix

/-!
# Streaming decoders for prefix codes

A self-delimiting code can be cut out of a byte stream wherever the stream happens to be split.
The reader appends what arrives to a buffer and takes complete code words off its front; this
module shows that the words it obtains depend on the stream only and not on the cuts.
-/

namespace PrefixCode

variable {α β : Type*}

/-- A code together with a decoder for the front of a buffer.  Only `Valid` values need to be
decoded correctly. -/
structure Code (α β : Type*) where
  encode : α → List β
  decode : List β → Option (α × List β)
  Valid : α → Prop
  decode_nil : decode [] = none
  decode_encode : ∀ a t, Valid a → decode (encode a ++ t) = some (a, t)
  decode_short : ∀ a b, Valid a → b <+: encode a → b ≠ encode a → decode b = none

namespace Code

variable (C : Code α β)

/-- The stream carrying a list of values. -/
def encodeAll (as : List α) : List β := as.flatMap C.encode

/-- Every value of the list is decoded correctly. -/
def AllValid (as : List α) : Prop := ∀ a ∈ as, C.Valid a

@[simp] theorem encodeAll_nil : C.encodeAll [] = [] := rfl

@[simp] theorem encodeAll_cons (a : α) (as : List α) :
    C.encodeAll (a :: as) = C.encode a ++ C.encodeAll as := rfl

@[simp] theorem encodeAll_append (as bs : List α) :
    C.encodeAll (as ++ bs) = C.encodeAll as ++ C.encodeAll bs := List.flatMap_append

variable {C} {as bs : List α} {b r : List β} {a : α}

theorem encodeAll_mono (h : as <+: bs) : C.encodeAll as <+: C.encodeAll bs := by
  obtain ⟨cs, rfl⟩ := h
  rw [encodeAll_append]
  exact List.prefix_append _ _

theorem AllValid.of_prefix (hv : C.AllValid bs) (h : as <+: bs) : C.AllValid as :=
  fun a ha => hv a (h.subset ha)

theorem encode_ne_nil (hv : C.Valid a) : C.encode a ≠ [] := by
  intro he
  have h := C.decode_encode a [] hv
  rw [he, List.append_nil, C.decode_nil] at h
  cases h

theorem decode_front (hv : C.AllValid as) (hb : b <+: C.encodeAll as) :
    C.decode b = none ∨ ∃ a bs r, as = a :: bs ∧ b = C.encode a ++ r ∧ r <+: C.encodeAll bs ∧
      C.decode b = some (a, r) := by
  cases as with
  | nil =>
    have hnil : b = [] := List.prefix_nil.mp hb
    exact .inl (hnil ▸ C.decode_nil)
  | cons a bs =>
    have ha : C.Valid a := hv a (List.mem_cons_self ..)
    rw [encodeAll_cons] at hb
    rcases List.prefix_or_prefix_of_prefix hb (List.prefix_append _ _) with hs | ⟨r, rfl⟩
    · by_cases he : b = C.encode a
      · refine .inr ⟨a, bs, [], rfl, by simpa using he, List.nil_prefix, ?_⟩
        simpa [he] using C.decode_encode a [] ha
      · exact .inl (C.decode_short a b ha hs he)
    · rw [List.prefix_append_right_inj] at hb
      exact .inr ⟨a, bs, r, rfl, rfl, hb, C.decode_encode a r ha⟩

theorem of_decode (hv : C.AllValid as) (hb : b <+: C.encodeAll as)
    (hd : C.decode b = some (a, r)) :
    ∃ bs, as = a :: bs ∧ b = C.encode a ++ r ∧ r <+: C.encodeAll bs := by
  rcases decode_front hv hb with hn | ⟨a', bs, r', rfl, hb', hr, hs⟩
  · rw [hd] at hn; cases hn
  · rw [hd] at hs
    obtain ⟨rfl, rfl⟩ := Prod.mk.inj (Option.some.inj hs)
    exact ⟨bs, rfl, hb', hr⟩

/-! ## The reader's invariant -/

/-- What a reader knows after `received` has arrived, `decoded` has been taken off and `buffer`
is left: if the peer sends a valid stream, these fit together and `decoded` begins it. -/
def Reassembled (C : Code α β) (received : List β) (decoded : List α) (buffer : List β) : Prop :=
  ∀ as, C.AllValid as → received <+: C.encodeAll as →
    received = C.encodeAll decoded ++ buffer ∧ decoded <+: as

namespace Reassembled

variable {received : List β} {decoded : List α} {buffer : List β}

theorem nil : C.Reassembled [] [] [] := fun _ _ _ => ⟨rfl, List.nil_prefix⟩

theorem receive (h : C.Reassembled received decoded buffer) (chunk : List β) :
    C.Reassembled (received ++ chunk) decoded (buffer ++ chunk) := by
  intro as hv hp
  obtain ⟨he, hd⟩ := h as hv ((List.prefix_append _ _).trans hp)
  exact ⟨by rw [← List.append_assoc, ← he], hd⟩

theorem decode (h : C.Reassembled received decoded buffer)
    (hd : C.decode buffer = some (a, r)) : C.Reassembled received (decoded ++ [a]) r := by
  intro as hv hp
  obtain ⟨he, ⟨bs, rfl⟩⟩ := h as hv hp
  have hbs : C.AllValid bs := fun x hx => hv x (List.mem_append_right _ hx)
  rw [he, encodeAll_append, List.prefix_append_right_inj] at hp
  obtain ⟨cs, rfl, hb, -⟩ := of_decode hbs hp hd
  refine ⟨?_, ?_⟩
  · rw [he, hb, encodeAll_append, encodeAll_cons, encodeAll_nil, List.append_nil,
      List.append_assoc]
  · exact ⟨cs, (List.append_cons decoded a cs).symm⟩

theorem complete (h : C.Reassembled received decoded buffer) (hv : C.AllValid as)
    (hr : received = C.encodeAll as) (hd : C.decode buffer = none) :
    decoded = as ∧ buffer = [] := by
  obtain ⟨he, ⟨bs, rfl⟩⟩ := h as hv (hr ▸ List.prefix_rfl)
  rw [hr, encodeAll_append, List.append_cancel_left_eq] at he
  cases bs with
  | nil => exact ⟨(List.append_nil _).symm, by simpa using he.symm⟩
  | cons b bs =>
    have hb : C.Valid b := hv b (by simp)
    rw [← he, encodeAll_cons, C.decode_encode b _ hb] at hd
    cases hd

end Reassembled

end Code

/-! ## The drain loop -/

/-- Take words off the buffer until none is complete.  The fuel bounds the number of evaluations
of the loop test; `none` means that it ran out. -/
def drain (decode : List β → Option (α × List β)) : ℕ → List β → Option (List α × List β)
  | 0, _ => none
  | fuel + 1, b =>
      match decode b with
      | none => some ([], b)
      | some (a, r) => (drain decode fuel r).map fun q => (a :: q.1, q.2)

/-- Append the chunks one at a time and drain after each. -/
def feed (decode : List β → Option (α × List β)) (fuel : ℕ) :
    List β → List (List β) → Option (List α × List β)
  | b, [] => some ([], b)
  | b, c :: cs =>
      (drain decode fuel (b ++ c)).bind fun r =>
        (feed decode fuel r.2 cs).map fun q => (r.1 ++ q.1, q.2)

variable {C : Code α β} {as : List α} {b : List β}

open Code

/-- Draining the front of a valid stream ends, and takes off words of the stream until the rest
does not decode. -/
theorem drain_spec (hv : C.AllValid as) (hb : b <+: C.encodeAll as) {fuel : ℕ}
    (hfuel : b.length < fuel) :
    ∃ ds r, drain C.decode fuel b = some (ds, r) ∧ b = C.encodeAll ds ++ r ∧ ds <+: as ∧
      C.decode r = none := by
  induction fuel generalizing as b with
  | zero => omega
  | succ fuel ih =>
    rcases decode_front hv hb with hn | ⟨a, bs, r, rfl, rfl, hr, hs⟩
    · exact ⟨[], b, by simp [drain, hn], rfl, List.nil_prefix, hn⟩
    · have hpos := List.length_pos_of_ne_nil (encode_ne_nil (hv a (List.mem_cons_self ..)))
      have hbs : C.AllValid bs := fun x hx => hv x (List.mem_cons_of_mem _ hx)
      rw [List.length_append] at hfuel
      obtain ⟨ds, q, hdrain, rfl, hds, hq⟩ := ih hbs hr (by omega)
      refine ⟨a :: ds, q, ?_, ?_, ?_, hq⟩
      · simp only [drain, hs, hdrain, Option.map_some]
      · rw [encodeAll_cons, List.append_assoc]
      · exact (List.prefix_cons_inj a).mpr hds

theorem feed_spec (hv : C.AllValid as) {chunks : List (List β)}
    (hb : b ++ chunks.flatten <+: C.encodeAll as) (hd : C.decode b = none) {fuel : ℕ}
    (hfuel : (b ++ chunks.flatten).length < fuel) :
    ∃ ds r, feed C.decode fuel b chunks = some (ds, r) ∧
      b ++ chunks.flatten = C.encodeAll ds ++ r ∧ ds <+: as ∧ C.decode r = none := by
  induction chunks generalizing as b with
  | nil => exact ⟨[], b, rfl, by simp, List.nil_prefix, hd⟩
  | cons c cs ih =>
    rw [List.flatten_cons, ← List.append_assoc] at hb hfuel ⊢
    have hfront : b ++ c <+: C.encodeAll as := (List.prefix_append _ _).trans hb
    have hlen : (b ++ c).length ≤ (b ++ c ++ cs.flatten).length := (List.prefix_append _ _).length_le
    obtain ⟨ds, r, hdrain, he, ⟨bs, rfl⟩, hr⟩ := drain_spec hv hfront (lt_of_le_of_lt hlen hfuel)
    have hbs : C.AllValid bs := fun x hx => hv x (List.mem_append_right _ hx)
    rw [he, encodeAll_append, List.append_assoc, List.prefix_append_right_inj] at hb
    rw [he, List.append_assoc, List.length_append] at hfuel
    obtain ⟨ds', r', hfeed, he', hds', hr'⟩ := ih hbs hb hr (by omega)
    refine ⟨ds ++ ds', r', ?_, ?_, ?_, hr'⟩
    · simp only [feed, hdrain, Option.bind_some, hfeed, Option.map_some]
    · rw [he, encodeAll_append, List.append_assoc, List.append_assoc, he']
    · exact (List.prefix_append_right_inj ds).mpr hds'

theorem drained_maximal (hv : C.AllValid as) {ds ds' : List α} {r : List β}
    (hp : C.encodeAll ds ++ r <+: C.encodeAll as) (hds : ds <+: as) (hd : C.decode r = none)
    (hds' : ds' <+: as) (hlen : (C.encodeAll ds').length ≤ (C.encodeAll ds ++ r).length) :
    ds' <+: ds := by
  rcases List.prefix_or_prefix_of_prefix hds' hds with h | ⟨cs, rfl⟩
  · exact h
  · cases cs with
    | nil => simp
    | cons a cs =>
      have ha : C.Valid a := hv a (hds'.subset (by simp))
      have hin : C.encodeAll (ds ++ a :: cs) <+: C.encodeAll ds ++ r :=
        List.prefix_of_prefix_length_le (encodeAll_mono hds') hp hlen
      rw [encodeAll_append, List.prefix_append_right_inj, encodeAll_cons] at hin
      obtain ⟨t, rfl⟩ := hin
      rw [List.append_assoc, C.decode_encode a _ ha] at hd
      cases hd

end PrefixCode
