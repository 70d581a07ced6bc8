import PromiseDemo.Framework.Duplex
import Mathlib.Algebra.BigOperators.Group.List.Basic
import Mathlib.Algebra.Ring.Nat

/-!
# Activity that is paid for

What an endpoint does by itself ends where every such step is paid for: from what the endpoint has
in store, from what its events earn, and by the symbols that it moves.  A symbol on its way is
worth two, so that the reader has something left of it when the writer is paid.
-/

namespace Transition

variable {σ α ε : Type*}

/-- Where executions are bounded one of them cannot be continued. -/
theorem exec_maximal {step : StepFn σ α ε} {allowed : σ → α → Prop}
    [∀ s a, Decidable (allowed s a)] {s : σ} {n : ℕ}
    (hbound : ∀ as t es, exec step allowed s as = some (t, es) → as.length ≤ n) :
    ∃ as t es, exec step allowed s as = some (t, es) ∧ ∀ a, allowed t a → step t a = none := by
  by_contra hnone
  have hlong : ∀ k, ∃ as t es, exec step allowed s as = some (t, es) ∧ as.length = k := by
    intro k
    induction k with
    | zero => exact ⟨[], s, [], rfl, rfl⟩
    | succ k ih =>
      obtain ⟨as, t, es, hexec, hlen⟩ := ih
      have hmore : ∃ a, allowed t a ∧ step t a ≠ none := by
        by_contra hstuck
        refine hnone ⟨as, t, es, hexec, ?_⟩
        intro a ha
        by_contra hstep
        exact hstuck ⟨a, ha, hstep⟩
      obtain ⟨a, ha, hstep⟩ := hmore
      obtain ⟨⟨u, es'⟩, hu⟩ := Option.ne_none_iff_exists'.mp hstep
      have hlast : exec step allowed t [a] = some (u, es' ++ []) :=
        exec_cons_eq_some.mpr ⟨u, es', [], ha, hu, rfl, rfl⟩
      refine ⟨as ++ [a], u, es ++ (es' ++ []), ?_, ?_⟩
      · exact exec_append_eq_some.mpr ⟨t, es, es' ++ [], hexec, hlast, rfl⟩
      · rw [List.length_append, List.length_singleton, hlen]
  obtain ⟨as, t, es, hexec, hlen⟩ := hlong (n + 1)
  have hle := hbound as t es hexec
  omega

end Transition

namespace Duplex

open Transition

variable {σ τ α α' ε ε' β : Type*}

/-- What a list of events earns. -/
def earnings (earned : ε → ℕ) (es : List ε) : ℕ := (es.map earned).sum

@[simp] theorem earnings_nil (earned : ε → ℕ) : earnings earned [] = 0 := rfl

@[simp] theorem earnings_append (earned : ε → ℕ) (es es' : List ε) :
    earnings earned (es ++ es') = earnings earned es + earnings earned es' := by
  rw [earnings, earnings, earnings, List.map_append, List.sum_append]

/-- The steps that an endpoint takes by itself are paid for. -/
def Paid (E : Endpoint σ α ε β) (own : α → Bool) (store : σ → ℕ) (earned : ε → ℕ) : Prop :=
  ∀ {s t : σ} {a : α} {es : List ε}, own a = true → E.step s a = some (t, es) →
    store t + 1 ≤ store s + earnings earned es + (E.writesOf es).length +
      2 * (E.readsOf es).length

/-- What a pair has in store, in its endpoints and in its channels. -/
def Pair.store (storeL : σ → ℕ) (storeR : τ → ℕ) (p : Pair σ τ β) : ℕ :=
  storeL p.left + storeR p.right + 2 * (p.forth.length + p.back.length)

variable [DecidableEq β] {L : Endpoint σ α ε β} {R : Endpoint τ α' ε' β} {ownL : α → Bool}
  {ownR : α' → Bool} {storeL : σ → ℕ} {storeR : τ → ℕ} {earnedL : ε → ℕ} {earnedR : ε' → ℕ}

theorem Paid.step (hL : Paid L ownL storeL earnedL) (hR : Paid R ownR storeR earnedR)
    {p q : Pair σ τ β} {a : α ⊕ α'} {es : List (ε ⊕ ε')} (ha : Sum.elim ownL ownR a = true)
    (hstep : Duplex.step L R p a = some (q, es)) :
    q.store storeL storeR + 1 ≤ p.store storeL storeR +
      3 * ((L.writesOf (lefts es)).length + (R.writesOf (rights es)).length) +
      (earnings earnedL (lefts es) + earnings earnedR (rights es)) := by
  cases a with
  | inl a =>
    obtain ⟨s, ls, hs, hback, -, rfl, hq⟩ := step_inl.mp hstep
    have hpaid := hL ha hs
    have hlen := congrArg List.length hback
    rw [List.length_append] at hlen
    rw [lefts_map_inl, rights_map_inl, hq]
    simp only [Pair.store, List.length_append, Endpoint.writesOf_nil, List.length_nil,
      earnings_nil]
    omega
  | inr a =>
    obtain ⟨s, rs, hs, hforth, -, rfl, hq⟩ := step_inr.mp hstep
    have hpaid := hR ha hs
    have hlen := congrArg List.length hforth
    rw [List.length_append] at hlen
    rw [lefts_map_inr, rights_map_inr, hq]
    simp only [Pair.store, List.length_append, Endpoint.writesOf_nil, List.length_nil,
      earnings_nil]
    omega

/-- The run lemma: a pair takes no more steps by itself than it has in store and earns. -/
theorem Paid.exec (hL : Paid L ownL storeL earnedL) (hR : Paid R ownR storeR earnedR)
    {p q : Pair σ τ β} {as : List (α ⊕ α')} {es : List (ε ⊕ ε')}
    (hexec : exec (Duplex.step L R) (fun _ a => Sum.elim ownL ownR a = true) p as =
      some (q, es)) :
    as.length + q.store storeL storeR ≤ p.store storeL storeR +
      3 * ((L.writesOf (lefts es)).length + (R.writesOf (rights es)).length) +
      (earnings earnedL (lefts es) + earnings earnedR (rights es)) := by
  induction as generalizing p es with
  | nil =>
    obtain ⟨rfl, rfl⟩ := exec_nil_eq_some.mp hexec
    simp
  | cons a as ih =>
    obtain ⟨u, es₁, es₂, ha, hstep, hrest, rfl⟩ := exec_cons_eq_some.mp hexec
    have hone := hL.step hR ha hstep
    have hmany := ih hrest
    rw [lefts_append, rights_append, Endpoint.writesOf_append, Endpoint.writesOf_append,
      earnings_append, earnings_append, List.length_append, List.length_append, List.length_cons]
    omega

end Duplex
