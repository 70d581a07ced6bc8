import Mathlib.Data.List.Basic
import Mathlib.Data.List.Nodup

/-!
# Promises and futures

The shared states behind `std::promise` and `std::future`, kept in a list in order of creation; a
promise is its index.  A future can be fetched once and a promise satisfied once, and the second
attempt throws.
-/

namespace PromiseStore

variable {ρ : Type*}

/-- What a promise and its future share. -/
structure SharedState (ρ : Type*) where
  retrieved : Bool := false
  result : Option ρ := none

abbrev Store (ρ : Type*) := List (SharedState ρ)

/-- The codes of `std::future_error`. -/
inductive Fault
  | noState
  | futureAlreadyRetrieved
  | promiseAlreadySatisfied
  deriving DecidableEq, Repr

/-- The value or exception stored for a promise, if any. -/
def resultOf (s : Store ρ) (p : ℕ) : Option ρ := s[p]?.bind (·.result)

/-- A default-constructed promise; its index is the old length of the store. -/
def create (s : Store ρ) : Store ρ := s ++ [{ retrieved := false }]

def getFuture (s : Store ρ) (p : ℕ) : Except Fault (Store ρ) :=
  match s[p]? with
  | none => .error .noState
  | some st =>
      if st.retrieved then .error .futureAlreadyRetrieved
      else .ok (s.set p { st with retrieved := true })

/-- `set_value` and `set_exception`. -/
def satisfy (s : Store ρ) (p : ℕ) (r : ρ) : Except Fault (Store ρ) :=
  match s[p]? with
  | none => .error .noState
  | some st =>
      if st.result.isSome then .error .promiseAlreadySatisfied
      else .ok (s.set p { st with result := some r })

/-- Satisfy the promises one after the other; the first fault leaves the loop.  The list names
the promises that were satisfied. -/
def satisfyAll (s : Store ρ) (ps : List ℕ) (r : ρ) : Store ρ × List ℕ × Option Fault :=
  match ps with
  | [] => (s, [], none)
  | p :: ps =>
      match satisfy s p r with
      | .error e => (s, [], some e)
      | .ok s' =>
          let q := satisfyAll s' ps r
          (q.1, p :: q.2.1, q.2.2)

/-- A promise that exists and has not been satisfied. -/
def Waiting (s : Store ρ) (p : ℕ) : Prop := p < s.length ∧ resultOf s p = none

/-- Has the future of a promise been handed out? -/
def isRetrieved (s : Store ρ) (p : ℕ) : Bool := s[p]?.any (·.retrieved)

/-- Every future of the store has been handed out. -/
def AllRetrieved (s : Store ρ) : Prop := ∀ st ∈ s, st.retrieved = true

theorem resultOf_of_length_le {s : Store ρ} {p : ℕ} (h : s.length ≤ p) : resultOf s p = none := by
  simp [resultOf, List.getElem?_eq_none h]

theorem lt_length_of_result {s : Store ρ} {p : ℕ} {r : ρ} (h : resultOf s p = some r) :
    p < s.length := by
  by_contra hp
  rw [resultOf_of_length_le (Nat.le_of_not_lt hp)] at h
  cases h

theorem create_getFuture (s : Store ρ) :
    getFuture (create s) s.length = .ok (s ++ [{ retrieved := true }]) := by
  simp [getFuture, create]

theorem getFuture_of_allRetrieved {s : Store ρ} (h : AllRetrieved s) {p : ℕ}
    (hp : p < s.length) : getFuture s p = .error .futureAlreadyRetrieved := by
  have hr := h s[p] (List.getElem_mem hp)
  simp [getFuture, List.getElem?_eq_getElem hp, hr]

theorem satisfy_of_waiting {s : Store ρ} {p : ℕ} (h : Waiting s p) (r : ρ) :
    ∃ s', satisfy s p r = .ok s' ∧ s'.length = s.length ∧
      (∀ q, resultOf s' q = if q = p then some r else resultOf s q) ∧
      (AllRetrieved s → AllRetrieved s') := by
  obtain ⟨hp, hnone⟩ := h
  have hst : s[p].result = none := by
    simpa [resultOf, List.getElem?_eq_getElem hp] using hnone
  refine ⟨s.set p { s[p] with result := some r }, ?_, List.length_set, ?_, ?_⟩
  · simp [satisfy, List.getElem?_eq_getElem hp, hst]
  · intro q
    unfold resultOf
    by_cases hq : q = p
    · subst hq
      simp [hp]
    · rw [List.getElem?_set_ne (Ne.symm hq), if_neg hq]
  · intro hall st hmem
    rcases List.mem_or_eq_of_mem_set hmem with hmem | rfl
    · exact hall st hmem
    · exact hall s[p] (List.getElem_mem hp)

theorem satisfyAll_of_waiting {s : Store ρ} {ps : List ℕ} (hnd : ps.Nodup)
    (hw : ∀ p ∈ ps, Waiting s p) (r : ρ) :
    ∃ s', satisfyAll s ps r = (s', ps, none) ∧ s'.length = s.length ∧
      (∀ q, resultOf s' q = if q ∈ ps then some r else resultOf s q) ∧
      (AllRetrieved s → AllRetrieved s') := by
  induction ps generalizing s with
  | nil => exact ⟨s, rfl, rfl, by simp, id⟩
  | cons p ps ih =>
    obtain ⟨hp, hps⟩ := List.nodup_cons.mp hnd
    obtain ⟨s₁, hs₁, hlen₁, hres₁, hall₁⟩ := satisfy_of_waiting (hw p (List.mem_cons_self ..)) r
    have hw₁ : ∀ q ∈ ps, Waiting s₁ q := by
      intro q hq
      have hqp : q ≠ p := fun he => hp (he ▸ hq)
      have hwq := hw q (List.mem_cons_of_mem _ hq)
      exact ⟨hlen₁ ▸ hwq.1, by rw [hres₁, if_neg hqp]; exact hwq.2⟩
    obtain ⟨s₂, hs₂, hlen₂, hres₂, hall₂⟩ := ih hps hw₁
    refine ⟨s₂, ?_, hlen₂.trans hlen₁, ?_, fun h => hall₂ (hall₁ h)⟩
    · simp only [satisfyAll, hs₁, hs₂]
    · intro q
      rw [hres₂, hres₁]
      by_cases hq : q ∈ ps <;> by_cases hqp : q = p <;> simp [hq, hqp]

theorem resultOf_append_new (s : Store ρ) (b : Bool) (p : ℕ) :
    resultOf (s ++ [{ retrieved := b }]) p = resultOf s p := by
  rcases Nat.lt_trichotomy p s.length with hlt | rfl | hgt
  · rw [resultOf, List.getElem?_append_left hlt]
    rfl
  · rw [resultOf_of_length_le (Nat.le_refl _), resultOf, List.getElem?_concat_length]
    rfl
  · rw [resultOf_of_length_le (by simp; omega), resultOf_of_length_le (by omega)]

theorem isRetrieved_append_new (s : Store ρ) (b : Bool) (p : ℕ) :
    isRetrieved (s ++ [{ retrieved := b }]) p =
      if p = s.length then b else isRetrieved s p := by
  rcases Nat.lt_trichotomy p s.length with hlt | rfl | hgt
  · rw [isRetrieved, List.getElem?_append_left hlt, if_neg (by omega)]
    rfl
  · rw [isRetrieved, List.getElem?_concat_length, if_pos rfl]
    simp
  · rw [isRetrieved, isRetrieved, List.getElem?_eq_none (by simp; omega),
      List.getElem?_eq_none (by omega), if_neg (by omega)]

theorem satisfy_of_result {s : Store ρ} {p : ℕ} {o : ρ} (h : resultOf s p = some o) (r : ρ) :
    satisfy s p r = .error .promiseAlreadySatisfied := by
  have hp := lt_length_of_result h
  have hst : s[p].result = some o := by
    simpa [resultOf, List.getElem?_eq_getElem hp] using h
  simp [satisfy, List.getElem?_eq_getElem hp, hst]

theorem satisfy_isRetrieved {s s' : Store ρ} {p : ℕ} {r : ρ} (h : satisfy s p r = .ok s')
    (q : ℕ) : isRetrieved s' q = isRetrieved s q := by
  unfold satisfy at h
  split at h
  · cases h
  · next st hst =>
    split_ifs at h
    cases h
    unfold isRetrieved
    by_cases hq : q = p
    · subst hq
      rw [List.getElem?_set_self (List.getElem?_eq_some_iff.mp hst).1, hst]
      rfl
    · rw [List.getElem?_set_ne (Ne.symm hq)]

theorem getFuture_of_retrieved {s : Store ρ} {p : ℕ} (h : isRetrieved s p = true) :
    getFuture s p = .error .futureAlreadyRetrieved := by
  rw [isRetrieved, Option.any_eq_true] at h
  obtain ⟨st, hst, hret⟩ := h
  simp [getFuture, hst, hret]

theorem getFuture_of_not_retrieved {s : Store ρ} {p : ℕ} (hp : p < s.length)
    (h : isRetrieved s p = false) :
    ∃ s', getFuture s p = .ok s' ∧ s'.length = s.length ∧ isRetrieved s' p = true ∧
      ∀ q, q ≠ p → isRetrieved s' q = isRetrieved s q := by
  have hret : s[p].retrieved = false := by
    simpa [isRetrieved, List.getElem?_eq_getElem hp] using h
  refine ⟨s.set p { s[p] with retrieved := true }, ?_, List.length_set, ?_, ?_⟩
  · simp [getFuture, List.getElem?_eq_getElem hp, hret]
  · rw [isRetrieved, List.getElem?_set_self hp]
    rfl
  · intro q hq
    rw [isRetrieved, isRetrieved, List.getElem?_set_ne (Ne.symm hq)]

end PromiseStore
