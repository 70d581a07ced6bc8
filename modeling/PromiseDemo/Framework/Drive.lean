import PromiseDemo.Framework.Transition

/-!
# Progress

Deadlock freedom of a system whose components take many small steps of their own between two
steps that matter.  A drive singles out the steps that wait for nobody and the events that count
as progress; a state leads to a goal when steps of the first kind reach it, unless a step that
makes progress is possible on the way.
-/

namespace Transition

structure Drive (σ α ε : Type*) where
  step : StepFn σ α ε
  /-- Steps that a component takes by itself. -/
  own : σ → α → Prop
  allowed : σ → α → Prop
  /-- Does the event count as progress? -/
  good : ε → Bool
  own_allowed : ∀ {s a}, own s a → allowed s a

namespace Drive

variable {σ α ε τ β δ : Type*} (D : Drive σ α ε)

/-- A step that makes progress is possible. -/
def Ready (s : σ) : Prop :=
  ∃ a t es, D.allowed s a ∧ D.step s a = some (t, es) ∧ ∃ e ∈ es, D.good e = true

/-- Own steps without progress lead to the goal or to where a step that makes progress is
possible. -/
def Leads (P : σ → Prop) (s : σ) : Prop :=
  ∃ k t, Run D.step D.own s k t ∧ (∀ e ∈ k, D.good e = false) ∧ (D.Ready t ∨ P t)

variable {D} {P Q : σ → Prop} {s t : σ} {a : α} {es k : List ε}

theorem Leads.ready (h : D.Ready s) : D.Leads P s := ⟨[], s, .refl, by simp, .inl h⟩

theorem Leads.here (h : P s) : D.Leads P s := ⟨[], s, .refl, by simp, .inr h⟩

theorem Leads.after (hrun : Run D.step D.own s k t) (hk : ∀ e ∈ k, D.good e = false)
    (h : D.Leads P t) : D.Leads P s := by
  obtain ⟨k', u, hrun', hk', hu⟩ := h
  refine ⟨k ++ k', u, hrun.trans hrun', ?_, hu⟩
  intro e he
  rcases List.mem_append.mp he with he | he
  · exact hk e he
  · exact hk' e he

theorem Leads.step (ha : D.own s a) (hs : D.step s a = some (t, es)) (h : D.Leads P t) :
    D.Leads P s := by
  by_cases hgood : ∃ e ∈ es, D.good e = true
  · exact .ready ⟨a, t, es, D.own_allowed ha, hs, hgood⟩
  · refine .after (.single ha hs) ?_ h
    intro e he
    by_contra hg
    exact hgood ⟨e, he, by simpa using hg⟩

/-- Where one goal leads to another, so does what leads to it. -/
theorem Leads.bind (h : D.Leads P s)
    (hnext : ∀ {k t}, Run D.step D.own s k t → (∀ e ∈ k, D.good e = false) → P t → D.Leads Q t) :
    D.Leads Q s := by
  obtain ⟨k, t, hrun, hk, hready | hp⟩ := h
  · exact .after hrun hk (.ready hready)
  · exact .after hrun hk (hnext hrun hk hp)

theorem Leads.imp (hPQ : ∀ {t}, P t → Q t) (h : D.Leads P s) : D.Leads Q s :=
  h.bind fun _ _ hp => .here (hPQ hp)

/-- A system embedded in another one leads there where it leads by itself. -/
theorem Leads.embed {D' : Drive τ β δ} (into : σ → τ) (act : α → β) (present : ε → δ)
    (hown : ∀ {s a}, D.own s a → D'.own (into s) (act a))
    (hallowed : ∀ {s a}, D.allowed s a → D'.allowed (into s) (act a))
    (hstep : ∀ {s a t es}, D.allowed s a → D.step s a = some (t, es) →
      D'.step (into s) (act a) = some (into t, es.map present))
    (hgood : ∀ e, D'.good (present e) = D.good e) (h : D.Leads P s) :
    D'.Leads (fun t => ∃ s', P s' ∧ t = into s') (into s) := by
  obtain ⟨k, t, hrun, hk, ht⟩ := h
  have hrun' : Run D'.step D'.own (into s) (k.map present) (into t) := by
    clear hk ht
    induction hrun with
    | refl => exact .refl
    | tail _ ha hs ih =>
      rw [List.map_append]
      exact .tail ih (hown ha) (hstep (D.own_allowed ha) hs)
  refine ⟨k.map present, into t, hrun', ?_, ?_⟩
  · intro e he
    obtain ⟨e', he', rfl⟩ := List.mem_map.mp he
    rw [hgood]
    exact hk e' he'
  · rcases ht with ⟨a, u, es, ha, hs, e, he, hg⟩ | hp
    · refine .inl ⟨act a, into u, es.map present, hallowed ha, hstep ha hs, present e, ?_, ?_⟩
      · exact List.mem_map_of_mem he
      · rw [hgood, hg]
    · exact .inr ⟨t, hp, rfl⟩

end Drive

end Transition
