import PromiseDemo.Framework.Transition
import Mathlib.Data.List.Infix

/-!
# Two machines joined by a pair of FIFO channels

Each endpoint is a transition system whose events say which symbols it takes off its input and
which it puts on its output.  The channels are reliable and ordered, each with its own capacity
(`none` is unbounded); an endpoint that cannot place its output is refused the step.
-/

namespace Duplex

open Transition

/-- A machine with a socket: `reads` and `writes` are the symbols an event consumes and produces. -/
structure Endpoint (σ α ε β : Type*) where
  step : StepFn σ α ε
  reads : ε → List β
  writes : ε → List β

/-- Two endpoints and the symbols in flight: `forth` from left to right, `back` the other way. -/
structure Pair (σ τ β : Type*) where
  left : σ
  right : τ
  forth : List β
  back : List β
  forthCap : Option ℕ
  backCap : Option ℕ

/-- Does a channel of this capacity hold `n` symbols? -/
def fits (cap : Option ℕ) (n : ℕ) : Bool := cap.all (n ≤ ·)

/-- No further symbol fits. -/
def full (cap : Option ℕ) (n : ℕ) : Bool := cap.any (· ≤ n)

theorem fits_succ_of_not_full {cap : Option ℕ} {n : ℕ} (h : full cap n = false) :
    fits cap (n + 1) = true := by
  cases cap with
  | none => rfl
  | some c => simp [full, fits] at h ⊢; omega

variable {σ τ α α' ε ε' β : Type*}

namespace Endpoint

def readsOf (E : Endpoint σ α ε β) (h : List ε) : List β := h.flatMap E.reads

def writesOf (E : Endpoint σ α ε β) (h : List ε) : List β := h.flatMap E.writes

@[simp] theorem readsOf_nil (E : Endpoint σ α ε β) : E.readsOf [] = [] := rfl

@[simp] theorem writesOf_nil (E : Endpoint σ α ε β) : E.writesOf [] = [] := rfl

@[simp] theorem readsOf_append (E : Endpoint σ α ε β) (h k : List ε) :
    E.readsOf (h ++ k) = E.readsOf h ++ E.readsOf k := List.flatMap_append

@[simp] theorem writesOf_append (E : Endpoint σ α ε β) (h k : List ε) :
    E.writesOf (h ++ k) = E.writesOf h ++ E.writesOf k := List.flatMap_append

end Endpoint

/-- Take `taken` off the front of `input` and append `put` to `output`. -/
def exchange [DecidableEq β] (cap : Option ℕ) (input output taken put : List β) :
    Option (List β × List β) :=
  if taken <+: input ∧ (put = [] ∨ fits cap (output ++ put).length = true) then
    some (input.drop taken.length, output ++ put)
  else none

theorem exchange_eq_some [DecidableEq β] {cap : Option ℕ}
    {input output taken put input' output' : List β} :
    exchange cap input output taken put = some (input', output') ↔
      input = taken ++ input' ∧ output' = output ++ put ∧
        (put = [] ∨ fits cap output'.length = true) := by
  unfold exchange
  constructor
  · intro h
    split at h
    · rename_i hc
      obtain ⟨rfl, rfl⟩ := Prod.mk.inj (Option.some.inj h)
      exact ⟨(List.prefix_iff_eq_append.mp hc.1).symm, rfl, hc.2⟩
    · cases h
  · rintro ⟨rfl, rfl, hput⟩
    rw [if_pos ⟨List.prefix_append _ _, hput⟩, List.drop_left]

variable [DecidableEq β]

/-- One endpoint acts and its input and output channels move accordingly. -/
def step (L : Endpoint σ α ε β) (R : Endpoint τ α' ε' β) :
    StepFn (Pair σ τ β) (α ⊕ α') (ε ⊕ ε')
  | p, .inl a =>
      (L.step p.left a).bind fun q =>
        (exchange p.forthCap p.back p.forth (L.readsOf q.2) (L.writesOf q.2)).map fun c =>
          ({ p with left := q.1, back := c.1, forth := c.2 }, q.2.map .inl)
  | p, .inr a =>
      (R.step p.right a).bind fun q =>
        (exchange p.backCap p.forth p.back (R.readsOf q.2) (R.writesOf q.2)).map fun c =>
          ({ p with right := q.1, forth := c.1, back := c.2 }, q.2.map .inr)

/-- The left endpoint's own events. -/
def lefts (h : List (ε ⊕ ε')) : List ε := h.filterMap Sum.getLeft?

/-- The right endpoint's own events. -/
def rights (h : List (ε ⊕ ε')) : List ε' := h.filterMap Sum.getRight?

theorem mem_lefts {e : ε} {h : List (ε ⊕ ε')} : e ∈ lefts h ↔ .inl e ∈ h := by
  simp [lefts, Sum.getLeft?_eq_some_iff]

@[simp] theorem lefts_nil : lefts ([] : List (ε ⊕ ε')) = [] := rfl

@[simp] theorem rights_nil : rights ([] : List (ε ⊕ ε')) = [] := rfl

@[simp] theorem lefts_append (h k : List (ε ⊕ ε')) : lefts (h ++ k) = lefts h ++ lefts k :=
  List.filterMap_append

@[simp] theorem rights_append (h k : List (ε ⊕ ε')) : rights (h ++ k) = rights h ++ rights k :=
  List.filterMap_append

@[simp] theorem lefts_map_inl (es : List ε) : lefts (es.map (Sum.inl (β := ε'))) = es := by
  simp [lefts, List.filterMap_map, Function.comp_def]

@[simp] theorem rights_map_inl (es : List ε) : rights (es.map (Sum.inl (β := ε'))) = [] := by
  simp [rights, List.filterMap_map, Function.comp_def]

@[simp] theorem lefts_map_inr (es : List ε') : lefts (es.map (Sum.inr (α := ε))) = [] := by
  simp [lefts, List.filterMap_map, Function.comp_def]

@[simp] theorem rights_map_inr (es : List ε') : rights (es.map (Sum.inr (α := ε))) = es := by
  simp [rights, List.filterMap_map, Function.comp_def]

variable {L : Endpoint σ α ε β} {R : Endpoint τ α' ε' β} {p q : Pair σ τ β}

theorem step_inl {a : α} {es : List (ε ⊕ ε')} :
    step L R p (.inl a) = some (q, es) ↔
      ∃ s ls, L.step p.left a = some (s, ls) ∧ p.back = L.readsOf ls ++ q.back ∧
        (L.writesOf ls = [] ∨ fits p.forthCap q.forth.length = true) ∧ es = ls.map .inl ∧
        q = { p with left := s, back := q.back, forth := p.forth ++ L.writesOf ls } := by
  simp only [step, Option.bind_eq_some_iff, Option.map_eq_some_iff, Prod.exists, Prod.mk.injEq]
  constructor
  · rintro ⟨s, ls, hs, back, forth, hx, rfl, rfl⟩
    obtain ⟨hb, rfl, hput⟩ := exchange_eq_some.mp hx
    exact ⟨s, ls, hs, hb, hput, rfl, rfl⟩
  · rintro ⟨s, ls, hs, hb, hput, rfl, hq⟩
    refine ⟨s, ls, hs, q.back, p.forth ++ L.writesOf ls, ?_, hq.symm, rfl⟩
    exact exchange_eq_some.mpr ⟨hb, rfl, by rw [hq] at hput; exact hput⟩

theorem step_inr {a : α'} {es : List (ε ⊕ ε')} :
    step L R p (.inr a) = some (q, es) ↔
      ∃ s rs, R.step p.right a = some (s, rs) ∧ p.forth = R.readsOf rs ++ q.forth ∧
        (R.writesOf rs = [] ∨ fits p.backCap q.back.length = true) ∧ es = rs.map .inr ∧
        q = { p with right := s, forth := q.forth, back := p.back ++ R.writesOf rs } := by
  simp only [step, Option.bind_eq_some_iff, Option.map_eq_some_iff, Prod.exists, Prod.mk.injEq]
  constructor
  · rintro ⟨s, rs, hs, forth, back, hx, rfl, rfl⟩
    obtain ⟨hb, rfl, hput⟩ := exchange_eq_some.mp hx
    exact ⟨s, rs, hs, hb, hput, rfl, rfl⟩
  · rintro ⟨s, rs, hs, hb, hput, rfl, hq⟩
    refine ⟨s, rs, hs, q.forth, p.back ++ R.writesOf rs, ?_, hq.symm, rfl⟩
    exact exchange_eq_some.mpr ⟨hb, rfl, by rw [hq] at hput; exact hput⟩

theorem none_of_inl {a : α} (hnone : step L R p (.inl a) = none)
    (hfree : ∀ s ls, L.step p.left a = some (s, ls) → L.readsOf ls <+: p.back ∧
      (L.writesOf ls = [] ∨ fits p.forthCap (p.forth ++ L.writesOf ls).length = true)) :
    L.step p.left a = none := by
  rw [Option.eq_none_iff_forall_ne_some]
  rintro ⟨s, ls⟩ hs
  obtain ⟨⟨back, hback⟩, hroom⟩ := hfree s ls hs
  have hstep : step L R p (.inl a) =
      some ({ p with left := s, back, forth := p.forth ++ L.writesOf ls }, ls.map .inl) :=
    step_inl.mpr ⟨s, ls, hs, hback.symm, hroom, rfl, rfl⟩
  rw [hnone] at hstep
  cases hstep

theorem none_of_inr {a : α'} (hnone : step L R p (.inr a) = none)
    (hfree : ∀ s rs, R.step p.right a = some (s, rs) → R.readsOf rs <+: p.forth ∧
      (R.writesOf rs = [] ∨ fits p.backCap (p.back ++ R.writesOf rs).length = true)) :
    R.step p.right a = none := by
  rw [Option.eq_none_iff_forall_ne_some]
  rintro ⟨s, rs⟩ hs
  obtain ⟨⟨forth, hforth⟩, hroom⟩ := hfree s rs hs
  have hstep : step L R p (.inr a) =
      some ({ p with right := s, forth, back := p.back ++ R.writesOf rs }, rs.map .inr) :=
    step_inr.mpr ⟨s, rs, hs, hforth.symm, hroom, rfl, rfl⟩
  rw [hnone] at hstep
  cases hstep

/-- Nothing is lost, invented or reordered: what one side wrote is what the other has read
followed by what is in flight. -/
structure Conserved (L : Endpoint σ α ε β) (R : Endpoint τ α' ε' β) (h : List (ε ⊕ ε'))
    (p : Pair σ τ β) : Prop where
  forth : L.writesOf (lefts h) = R.readsOf (rights h) ++ p.forth
  back : R.writesOf (rights h) = L.readsOf (lefts h) ++ p.back

omit [DecidableEq β] in
theorem Conserved.init (hf : p.forth = []) (hb : p.back = []) : Conserved L R [] p :=
  ⟨by simp [hf], by simp [hb]⟩

theorem Conserved.step {h es : List (ε ⊕ ε')} {a : α ⊕ α'} (hc : Conserved L R h p)
    (hs : Duplex.step L R p a = some (q, es)) : Conserved L R (h ++ es) q := by
  cases a with
  | inl a =>
    obtain ⟨s, ls, -, hb, -, rfl, hq⟩ := step_inl.mp hs
    refine ⟨?_, ?_⟩
    · rw [hq]
      simp [hc.forth]
    · simp [hc.back, hb]
  | inr a =>
    obtain ⟨s, rs, -, hf, -, rfl, hq⟩ := step_inr.mp hs
    refine ⟨?_, ?_⟩
    · simp [hc.forth, hf]
    · rw [hq]
      simp [hc.back]

end Duplex
