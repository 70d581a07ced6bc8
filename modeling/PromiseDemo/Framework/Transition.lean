import Mathlib.Data.List.Basic

/-!
# Transition systems with a history

A system is a partial step function: an action is either refused or yields the next state and
the events it shows.  A run keeps the concatenated events, its history, so that an invariant
can speak about everything that has happened and not only about the present state.
-/

namespace Transition

/-- One step: the next state and the events shown, or `none` where the action is refused. -/
abbrev StepFn (σ α ε : Type*) := σ → α → Option (σ × List ε)

variable {σ α ε τ β δ : Type*}

/-- Finite runs from `s` all of whose steps are `allowed`, indexed by their history. -/
inductive Run (step : StepFn σ α ε) (allowed : σ → α → Prop) (s : σ) : List ε → σ → Prop
  | refl : Run step allowed s [] s
  | tail {h : List ε} {t u : σ} {a : α} {es : List ε} :
      Run step allowed s h t → allowed t a → step t a = some (u, es) →
      Run step allowed s (h ++ es) u

/-- Every action is allowed. -/
def anyAction : σ → α → Prop := fun _ _ => True

instance (s : σ) (a : α) : Decidable (anyAction s a) := isTrue trivial

/-- Perform a list of allowed actions one after the other. -/
def exec (step : StepFn σ α ε) (allowed : σ → α → Prop) [∀ s a, Decidable (allowed s a)] :
    σ → List α → Option (σ × List ε)
  | s, [] => some (s, [])
  | s, a :: as =>
      if allowed s a then
        (step s a).bind fun r => (exec step allowed r.1 as).map fun q => (q.1, r.2 ++ q.2)
      else none

theorem exec_nil_eq_some {step : StepFn σ α ε} {allowed : σ → α → Prop}
    [∀ s a, Decidable (allowed s a)] {s t : σ} {h : List ε} :
    exec step allowed s [] = some (t, h) ↔ t = s ∧ h = [] := by
  rw [exec, Option.some.injEq, Prod.mk.injEq, eq_comm, @eq_comm _ [] h]

theorem exec_cons_eq_some {step : StepFn σ α ε} {allowed : σ → α → Prop}
    [∀ s a, Decidable (allowed s a)] {s t : σ} {a : α} {as : List α} {h : List ε} :
    exec step allowed s (a :: as) = some (t, h) ↔
      ∃ u es k, allowed s a ∧ step s a = some (u, es) ∧ exec step allowed u as = some (t, k) ∧
        h = es ++ k := by
  simp only [exec, Option.ite_none_right_eq_some, Option.bind_eq_some_iff,
    Option.map_eq_some_iff, Prod.mk.injEq]
  constructor
  · rintro ⟨ha, ⟨u, es⟩, hs, ⟨v, k⟩, hrest, rfl, rfl⟩
    exact ⟨u, es, k, ha, hs, hrest, rfl⟩
  · rintro ⟨u, es, k, ha, hs, hrest, rfl⟩
    exact ⟨ha, (u, es), hs, (t, k), hrest, rfl, rfl⟩

theorem exec_append_eq_some {step : StepFn σ α ε} {allowed : σ → α → Prop}
    [∀ s a, Decidable (allowed s a)] {s t : σ} {as bs : List α} {h : List ε} :
    exec step allowed s (as ++ bs) = some (t, h) ↔
      ∃ u k k', exec step allowed s as = some (u, k) ∧ exec step allowed u bs = some (t, k') ∧
        h = k ++ k' := by
  induction as generalizing s h with
  | nil =>
    constructor
    · intro hb
      exact ⟨s, [], h, rfl, hb, rfl⟩
    · rintro ⟨u, k, k', hnil, hb, rfl⟩
      obtain ⟨rfl, rfl⟩ := exec_nil_eq_some.mp hnil
      exact hb
  | cons a as ih =>
    rw [List.cons_append, exec_cons_eq_some]
    constructor
    · rintro ⟨v, es, k, ha, hs, hrest, rfl⟩
      obtain ⟨u, k₁, k₂, has, hbs, rfl⟩ := ih.mp hrest
      exact ⟨u, es ++ k₁, k₂, exec_cons_eq_some.mpr ⟨v, es, k₁, ha, hs, has, rfl⟩, hbs,
        (List.append_assoc _ _ _).symm⟩
    · rintro ⟨u, k, k', hcons, hbs, rfl⟩
      obtain ⟨v, es, k₁, ha, hs, has, rfl⟩ := exec_cons_eq_some.mp hcons
      exact ⟨v, es, k₁ ++ k', ha, hs, ih.mpr ⟨u, k₁, k', has, hbs, rfl⟩, List.append_assoc _ _ _⟩

/-- Where an action leads; a refused one leads nowhere. -/
def after (step : StepFn σ α ε) (s : σ) (a : α) : σ × List ε := (step s a).getD (s, [])

theorem step_eq_after (step : StepFn σ α ε) (s : σ) (a : α) (h : (step s a).isSome = true) :
    step s a = some (after step s a) := by
  exact (Option.getD_of_ne_none (Option.isSome_iff_ne_none.mp h) _).symm

/-- Where a list of actions leads. -/
def afterAll (step : StepFn σ α ε) (allowed : σ → α → Prop) [∀ s a, Decidable (allowed s a)]
    (s : σ) (as : List α) : σ × List ε := (exec step allowed s as).getD (s, [])

theorem exec_eq_afterAll (step : StepFn σ α ε) (allowed : σ → α → Prop)
    [∀ s a, Decidable (allowed s a)] (s : σ) (as : List α)
    (hexec : (exec step allowed s as).isSome = true) :
    exec step allowed s as = some (afterAll step allowed s as) :=
  (Option.getD_of_ne_none (Option.isSome_iff_ne_none.mp hexec) _).symm

theorem exec_countP_le {step : StepFn σ α ε} {allowed : σ → α → Prop}
    [∀ s a, Decidable (allowed s a)] {I : σ → Prop} (rank : σ → ℕ) (counted : α → Bool)
    (hstep : ∀ {s t a es}, I s → allowed s a → step s a = some (t, es) →
      I t ∧ rank t + (if counted a then 1 else 0) ≤ rank s)
    {s t : σ} {as : List α} {h : List ε} (hs : I s)
    (hexec : exec step allowed s as = some (t, h)) :
    I t ∧ rank t + as.countP counted ≤ rank s := by
  induction as generalizing s h with
  | nil =>
    obtain ⟨rfl, rfl⟩ := exec_nil_eq_some.mp hexec
    exact ⟨hs, by simp⟩
  | cons a as ih =>
    obtain ⟨u, es, k, ha, hstep', hrest, rfl⟩ := exec_cons_eq_some.mp hexec
    obtain ⟨hu, hlower⟩ := hstep hs ha hstep'
    obtain ⟨hv, hbound⟩ := ih hu hrest
    refine ⟨hv, ?_⟩
    rw [List.countP_cons]
    omega

theorem split_event {h es before after : List ε} {e : ε}
    (heq : h ++ es = before ++ e :: after) :
    (∃ rest, h = before ++ e :: rest ∧ after = rest ++ es) ∨
      ∃ front, before = h ++ front ∧ es = front ++ e :: after := by
  rcases List.append_eq_append_iff.mp heq with ⟨front, hbefore, hes⟩ | ⟨rest, hh, hrest⟩
  · exact .inr ⟨front, hbefore, hes⟩
  · cases rest with
    | nil =>
      rw [List.append_nil] at hh
      exact .inr ⟨[], by rw [hh, List.append_nil], hrest.symm⟩
    | cons x rest =>
      obtain ⟨rfl, rfl⟩ := List.cons.inj hrest
      exact .inl ⟨rest, hh, rfl⟩

theorem single_event {before after : List ε} {e e' : ε} (h : [e'] = before ++ e :: after) :
    before = [] ∧ after = [] := by
  cases before with
  | nil => exact ⟨rfl, (List.cons.inj h).2.symm⟩
  | cons x before => simp at h

namespace Run

variable {step : StepFn σ α ε} {allowed allowed' : σ → α → Prop} {s t u : σ} {h k : List ε}

/-- The rule for invariants: what holds at the start and is kept by every allowed step holds
after every run. -/
theorem invariant {I : List ε → σ → Prop} (hrun : Run step allowed s h t) (hinit : I [] s)
    (hstep : ∀ {h t u a es}, I h t → allowed t a → step t a = some (u, es) → I (h ++ es) u) :
    I h t := by
  induction hrun with
  | refl => exact hinit
  | tail _ ha hs ih => exact hstep ih ha hs

theorem single {a : α} {es : List ε} (ha : allowed s a) (hs : step s a = some (t, es)) :
    Run step allowed s es t := by
  simpa using Run.tail .refl ha hs

theorem trans (hst : Run step allowed s h t) (htu : Run step allowed t k u) :
    Run step allowed s (h ++ k) u := by
  induction htu with
  | refl => simpa using hst
  | tail _ ha hs ih =>
    rw [← List.append_assoc]
    exact .tail ih ha hs

/-- A run is cut at the step that shows an event of its history. -/
theorem split {e : ε} {before after : List ε} (hrun : Run step allowed s h u)
    (heq : h = before ++ e :: after) :
    ∃ h₁ t a es₁ es₂ t' h₂, Run step allowed s h₁ t ∧
      step t a = some (t', es₁ ++ e :: es₂) ∧ Run step allowed t' h₂ u ∧
      before = h₁ ++ es₁ ∧ after = es₂ ++ h₂ := by
  induction hrun generalizing after with
  | refl => simp at heq
  | @tail h t u a es hrun ha hs ih =>
    rcases split_event heq with ⟨rest, hold, rfl⟩ | ⟨front, rfl, hnew⟩
    · obtain ⟨h₁, w, b, es₁, es₂, w', h₂, hrun₁, hstep, hrun₂, hbefore, rfl⟩ := ih hold
      exact ⟨h₁, w, b, es₁, es₂, w', h₂ ++ es, hrun₁, hstep, hrun₂.tail ha hs, hbefore,
        List.append_assoc _ _ _⟩
    · exact ⟨h, t, a, front, after, u, [], hrun, hnew ▸ hs, .refl, rfl, (List.append_nil _).symm⟩

theorem mono (hle : ∀ s a, allowed s a → allowed' s a) (hrun : Run step allowed s h t) :
    Run step allowed' s h t := by
  induction hrun with
  | refl => exact .refl
  | tail _ ha hs ih => exact .tail ih (hle _ _ ha) hs

theorem any (hrun : Run step allowed s h t) : Run step anyAction s h t :=
  hrun.mono fun _ _ _ => trivial

theorem of_exec [∀ s a, Decidable (allowed s a)] {as : List α}
    (hexec : exec step allowed s as = some (t, h)) : Run step allowed s h t := by
  induction as generalizing s h with
  | nil =>
    obtain ⟨rfl, rfl⟩ := exec_nil_eq_some.mp hexec
    exact .refl
  | cons a as ih =>
    obtain ⟨u, es, k, ha, hs, hrest, rfl⟩ := exec_cons_eq_some.mp hexec
    exact (single ha hs).trans (ih hrest)

theorem of_actions (step : StepFn σ α ε) (allowed : σ → α → Prop)
    [∀ s a, Decidable (allowed s a)] (s : σ) (as : List α)
    (hexec : (exec step allowed s as).isSome = true) :
    Run step allowed s (afterAll step allowed s as).2 (afterAll step allowed s as).1 :=
  of_exec (exec_eq_afterAll step allowed s as hexec)

/-- Projection onto a part: when every step of the whole is, seen through `f`, one step of the
part or no change, so is every run.  `g` keeps the part's own events. -/
theorem project {part : StepFn τ β δ} {allowedPart : τ → β → Prop} (f : σ → τ)
    (g : List ε → List δ) (hnil : g [] = []) (happ : ∀ h k, g (h ++ k) = g h ++ g k)
    (hstep : ∀ {t u a es}, allowed t a → step t a = some (u, es) →
      (f u = f t ∧ g es = []) ∨ Run part allowedPart (f t) (g es) (f u))
    (hrun : Run step allowed s h t) : Run part allowedPart (f s) (g h) (f t) := by
  induction hrun with
  | refl => rw [hnil]; exact .refl
  | tail _ ha hs ih =>
    rw [happ]
    rcases hstep ha hs with ⟨hf, hg⟩ | hpart
    · rw [hf, hg, List.append_nil]
      exact ih
    · exact ih.trans hpart

end Run

end Transition
