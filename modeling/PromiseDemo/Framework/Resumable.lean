import PromiseDemo.Framework.PrefixCode

/-!
# Resumable parsers

A parser that keeps its place when the input runs out: each iteration of its loop either takes
something off the front of the buffer or waits for more.  An iteration that does not wait does
the same on a longer buffer, and this alone makes the items read from a stream, the place where
the parser stands and the point at which it fails independent of how the stream was cut.
-/

namespace Resumable

variable {σ α β : Type*}

/-- What one iteration of the loop does with the buffer. -/
inductive Step (σ α β : Type*)
  | wait
  | next (s : σ) (rest : List β)
  | done (a : α) (rest : List β)
  | fail

/-- The same iteration on a buffer that goes on with `c`. -/
def Step.append (c : List β) : Step σ α β → Step σ α β
  | .wait => .wait
  | .next s r => .next s (r ++ c)
  | .done a r => .done a (r ++ c)
  | .fail => .fail

/-- An iteration that has taken what it wants does the same with every rest. -/
def Taken (f : List β → Step σ α β) : Prop :=
  (∃ s, ∀ r, f r = .next s r) ∨ (∃ a, ∀ r, f r = .done a r) ∨ ∀ r, f r = .fail

namespace Taken

variable {f : List β → Step σ α β} {s : σ} {a : α} {b c r : List β}

theorem append (h : Taken f) (b c : List β) : f (b ++ c) = (f b).append c := by
  rcases h with ⟨s, hs⟩ | ⟨a, ha⟩ | hf
  · rw [hs, hs]
    rfl
  · rw [ha, ha]
    rfl
  · rw [hf, hf]
    rfl

theorem rest_of_next (h : Taken f) (hb : f b = .next s r) : r = b := by
  rcases h with ⟨s, hs⟩ | ⟨a, ha⟩ | hf
  · rw [hs] at hb
    cases hb
    rfl
  · rw [ha] at hb
    cases hb
  · rw [hf] at hb
    cases hb

theorem rest_of_done (h : Taken f) (hb : f b = .done a r) : r = b := by
  rcases h with ⟨s, hs⟩ | ⟨a, ha⟩ | hf
  · rw [hs] at hb
    cases hb
  · rw [ha] at hb
    cases hb
    rfl
  · rw [hf] at hb
    cases hb

end Taken

/-- A parser's loop.  An iteration that does not wait takes some bytes, and what it does depends
on these alone. -/
structure Machine (σ α β : Type*) where
  start : σ
  step : σ → List β → Step σ α β
  step_taken : ∀ {s b}, step s b ≠ .wait →
    ∃ n rest, b = n ++ rest ∧ n ≠ [] ∧ Taken fun r => step s (n ++ r)

/-- How the loop ends: out of input, with an item, or with a failure. -/
inductive Outcome (σ α β : Type*)
  | more (s : σ) (rest : List β)
  | item (a : α) (rest : List β)
  | fail

namespace Machine

variable {M : Machine σ α β} {s t : σ} {a : α} {b c r : List β}

theorem taken_of_next (h : M.step s b = .next t r) :
    ∃ n, b = n ++ r ∧ n ≠ [] ∧ ∀ q, M.step s (n ++ q) = .next t q := by
  obtain ⟨n, rest, rfl, hn, hf⟩ := M.step_taken (s := s) (b := b) (by simp [h])
  have hr : r = rest := hf.rest_of_next h
  subst hr
  rcases hf with ⟨u, hu⟩ | ⟨x, hx⟩ | hfail
  · have htu : t = u := (Step.next.inj (h.symm.trans (hu r))).1
    exact ⟨n, rfl, hn, fun q => htu ▸ hu q⟩
  · cases h.symm.trans (hx r)
  · cases h.symm.trans (hfail r)

theorem taken_of_done (h : M.step s b = .done a r) :
    ∃ n, b = n ++ r ∧ n ≠ [] ∧ ∀ q, M.step s (n ++ q) = .done a q := by
  obtain ⟨n, rest, rfl, hn, hf⟩ := M.step_taken (s := s) (b := b) (by simp [h])
  have hr : r = rest := hf.rest_of_done h
  subst hr
  rcases hf with ⟨u, hu⟩ | ⟨x, hx⟩ | hfail
  · cases h.symm.trans (hu r)
  · have hax : a = x := (Step.done.inj (h.symm.trans (hx r))).1
    exact ⟨n, rfl, hn, fun q => hax ▸ hx q⟩
  · cases h.symm.trans (hfail r)

theorem next_lt (h : M.step s b = .next t r) : r.length < b.length := by
  obtain ⟨n, rfl, hn, -⟩ := taken_of_next h
  have := List.length_pos_of_ne_nil hn
  rw [List.length_append]
  omega

theorem step_append (c : List β) (h : M.step s b ≠ .wait) :
    M.step s (b ++ c) = (M.step s b).append c := by
  obtain ⟨n, rest, rfl, -, hf⟩ := M.step_taken h
  rw [List.append_assoc]
  exact hf.append rest c

theorem step_nil (s : σ) : M.step s [] = .wait := by
  by_contra h
  obtain ⟨n, rest, hb, hn, -⟩ := M.step_taken h
  exact hn (List.append_eq_nil_iff.mp hb.symm).1

variable (M) in

/-- Iterate until the loop ends. -/
def run (s : σ) (b : List β) : Outcome σ α β :=
  match _h : M.step s b with
  | .wait => .more s b
  | .next t r => run t r
  | .done a r => .item a r
  | .fail => .fail
termination_by b.length
decreasing_by exact next_lt ‹_›

theorem run_of_wait (h : M.step s b = .wait) : M.run s b = .more s b := by
  rw [run]
  split <;> simp_all

theorem run_of_next (h : M.step s b = .next t r) : M.run s b = M.run t r := by
  rw [run]
  split <;> simp_all

theorem run_of_done (h : M.step s b = .done a r) : M.run s b = .item a r := by
  rw [run]
  split <;> simp_all

theorem run_of_fail (h : M.step s b = .fail) : M.run s b = .fail := by
  rw [run]
  split <;> simp_all

/-- The rule for a loop: `I` holds at each iteration and `Q` of each way to end it. -/
theorem run_rule {I : σ → List β → Prop} {Q : Outcome σ α β → Prop}
    (hwait : ∀ {s b}, I s b → M.step s b = .wait → Q (.more s b))
    (hnext : ∀ {s b t r}, I s b → M.step s b = .next t r → I t r)
    (hdone : ∀ {s b a r}, I s b → M.step s b = .done a r → Q (.item a r))
    (hfail : ∀ {s b}, I s b → M.step s b = .fail → Q .fail) (hI : I s b) : Q (M.run s b) := by
  induction hn : b.length using Nat.strong_induction_on generalizing s b with
  | _ n ih =>
    cases h : M.step s b with
    | wait =>
      rw [run_of_wait h]
      exact hwait hI h
    | next t r =>
      rw [run_of_next h]
      exact ih r.length (hn ▸ next_lt h) (hnext hI h) rfl
    | done a r =>
      rw [run_of_done h]
      exact hdone hI h
    | fail =>
      rw [run_of_fail h]
      exact hfail hI h

/-- A loop that has run out of input goes on when more arrives; one that has ended does not
look at it. -/
theorem run_append (s : σ) (b c : List β) :
    M.run s (b ++ c) = match M.run s b with
      | .more t r => M.run t (r ++ c)
      | .item a r => .item a (r ++ c)
      | .fail => .fail := by
  induction hn : b.length using Nat.strong_induction_on generalizing s b with
  | _ n ih =>
    cases h : M.step s b with
    | wait => rw [run_of_wait h]
    | next t r =>
      have hc : M.step s (b ++ c) = .next t (r ++ c) := by
        rw [step_append c (by simp [h]), h]
        rfl
      rw [run_of_next h, run_of_next hc]
      exact ih r.length (hn ▸ next_lt h) t r rfl
    | done a r =>
      have hc : M.step s (b ++ c) = .done a (r ++ c) := by
        rw [step_append c (by simp [h]), h]
        rfl
      rw [run_of_done h, run_of_done hc]
    | fail =>
      have hc : M.step s (b ++ c) = .fail := by
        rw [step_append c (by simp [h]), h]
        rfl
      rw [run_of_fail h, run_of_fail hc]

theorem taken_of_item (h : M.run s b = .item a r) :
    ∃ n, b = n ++ r ∧ n ≠ [] ∧ ∀ q, M.run s (n ++ q) = .item a q := by
  induction hn : b.length using Nat.strong_induction_on generalizing s b with
  | _ k ih =>
    cases hs : M.step s b with
    | wait =>
      rw [run_of_wait hs] at h
      cases h
    | next t p =>
      rw [run_of_next hs] at h
      obtain ⟨m, rfl, hm, htaken⟩ := taken_of_next hs
      obtain ⟨n, rfl, -, hitem⟩ := ih p.length (hn ▸ next_lt hs) h rfl
      refine ⟨m ++ n, (List.append_assoc _ _ _).symm, by simp [hm], fun q => ?_⟩
      rw [List.append_assoc, run_of_next (htaken _)]
      exact hitem q
    | done x p =>
      rw [run_of_done hs] at h
      cases h
      obtain ⟨n, rfl, hne, htaken⟩ := taken_of_done hs
      exact ⟨n, rfl, hne, fun q => run_of_done (htaken q)⟩
    | fail =>
      rw [run_of_fail hs] at h
      cases h

theorem taken_of_more (h : M.run s b = .more t r) :
    ∃ n, b = n ++ r ∧ ∀ q, M.run s (n ++ q) = M.run t q := by
  induction hn : b.length using Nat.strong_induction_on generalizing s b with
  | _ k ih =>
    cases hs : M.step s b with
    | wait =>
      rw [run_of_wait hs] at h
      cases h
      exact ⟨[], rfl, fun _ => rfl⟩
    | next u p =>
      rw [run_of_next hs] at h
      obtain ⟨m, rfl, hm, htaken⟩ := taken_of_next hs
      obtain ⟨n, rfl, hmore⟩ := ih p.length (hn ▸ next_lt hs) h rfl
      refine ⟨m ++ n, (List.append_assoc _ _ _).symm, fun q => ?_⟩
      rw [List.append_assoc, run_of_next (htaken _)]
      exact hmore q
    | done x p =>
      rw [run_of_done hs] at h
      cases h
    | fail =>
      rw [run_of_fail hs] at h
      cases h

theorem run_fail (h : M.run s b = .fail) :
    ∃ n q t, b = n ++ q ∧ M.run s n = .more t [] ∧ M.step t q = .fail := by
  induction hn : b.length using Nat.strong_induction_on generalizing s b with
  | _ k ih =>
    cases hs : M.step s b with
    | wait =>
      rw [run_of_wait hs] at h
      cases h
    | next t p =>
      rw [run_of_next hs] at h
      obtain ⟨m, rfl, hm, htaken⟩ := taken_of_next hs
      obtain ⟨n, q, u, rfl, hmore, hfail⟩ := ih p.length (hn ▸ next_lt hs) h rfl
      refine ⟨m ++ n, q, u, (List.append_assoc _ _ _).symm, ?_, hfail⟩
      rw [run_of_next (htaken n)]
      exact hmore
    | done x p =>
      rw [run_of_done hs] at h
      cases h
    | fail => exact ⟨[], b, s, rfl, run_of_wait (step_nil s), hs⟩

theorem item_lt (h : M.run s b = .item a r) : r.length < b.length := by
  obtain ⟨n, rfl, hn, -⟩ := taken_of_item h
  have := List.length_pos_of_ne_nil hn
  rw [List.length_append]
  omega

theorem step_of_more (h : M.run s b = .more t r) : M.step t r = .wait := by
  refine run_rule (M := M) (I := fun _ _ => True)
    (Q := fun o => ∀ t r, o = .more t r → M.step t r = .wait) ?_ ?_ ?_ ?_ trivial t r h
  · intro s c _ hs t r ht
    cases ht
    exact hs
  · intro _ _ _ _ _ _
    trivial
  · intro s c x q _ _ t r ht
    cases ht
  · intro s c _ _ t r ht
    cases ht

/-! ## Reading item after item -/

variable (M) in
/-- Take items off the buffer until the loop runs out of input or fails.  The items taken come
with the place where the parser stands, `none` after a failure. -/
def drain (s : σ) (b : List β) : List α × Option (σ × List β) :=
  match _h : M.run s b with
  | .more t r => ([], some (t, r))
  | .item a r => (a :: (drain M.start r).1, (drain M.start r).2)
  | .fail => ([], none)
termination_by b.length
decreasing_by all_goals exact item_lt ‹_›

theorem drain_of_more (h : M.run s b = .more t r) : M.drain s b = ([], some (t, r)) := by
  rw [drain]
  split <;> simp_all

theorem drain_of_item (h : M.run s b = .item a r) :
    M.drain s b = (a :: (M.drain M.start r).1, (M.drain M.start r).2) := by
  rw [drain]
  split <;> simp_all

theorem drain_of_fail (h : M.run s b = .fail) : M.drain s b = ([], none) := by
  rw [drain]
  split <;> simp_all

variable (M) in
/-- Go on from where a drain has left the parser; a failed one reads nothing more. -/
def extend (d : List α × Option (σ × List β)) (c : List β) : List α × Option (σ × List β) :=
  match d.2 with
  | none => d
  | some (t, r) => (d.1 ++ (M.drain t (r ++ c)).1, (M.drain t (r ++ c)).2)

theorem extend_cons (a : α) (d : List α × Option (σ × List β)) (c : List β) :
    M.extend (a :: d.1, d.2) c = (a :: (M.extend d c).1, (M.extend d c).2) := by
  obtain ⟨as, st⟩ := d
  cases st <;> rfl

theorem drain_append (s : σ) (b c : List β) :
    M.drain s (b ++ c) = M.extend (M.drain s b) c := by
  induction hn : b.length using Nat.strong_induction_on generalizing s b with
  | _ n ih =>
    have hrun := run_append (M := M) s b c
    cases h : M.run s b with
    | more t r =>
      rw [h] at hrun
      have hsame : M.drain s (b ++ c) = M.drain t (r ++ c) := by
        cases hc : M.run t (r ++ c) with
        | more u q => rw [drain_of_more (hrun.trans hc), drain_of_more hc]
        | item a q => rw [drain_of_item (hrun.trans hc), drain_of_item hc]
        | fail => rw [drain_of_fail (hrun.trans hc), drain_of_fail hc]
      rw [hsame, drain_of_more h]
      rfl
    | item a r =>
      rw [h] at hrun
      rw [drain_of_item hrun, drain_of_item h, ih r.length (hn ▸ item_lt h) M.start r rfl,
        extend_cons]
    | fail =>
      rw [h] at hrun
      rw [drain_of_fail hrun, drain_of_fail h]
      rfl

theorem drain_fail {as : List α} (h : M.drain s b = (as, none)) :
    ∃ n q t, b = n ++ q ∧ M.drain s n = (as, some (t, [])) ∧ M.step t q = .fail := by
  induction hn : b.length using Nat.strong_induction_on generalizing s b as with
  | _ k ih =>
    cases hrun : M.run s b with
    | more t r =>
      rw [drain_of_more hrun] at h
      cases h
    | item a r =>
      rw [drain_of_item hrun] at h
      obtain ⟨rfl, hnone⟩ := Prod.mk.inj h
      obtain ⟨m, rfl, -, htaken⟩ := taken_of_item hrun
      have hrest : M.drain M.start r = ((M.drain M.start r).1, none) := by rw [← hnone]
      obtain ⟨n, q, t, rfl, hdrain, hfail⟩ := ih r.length (hn ▸ item_lt hrun) hrest rfl
      refine ⟨m ++ n, q, t, (List.append_assoc _ _ _).symm, ?_, hfail⟩
      rw [drain_of_item (htaken n), hdrain]
    | fail =>
      rw [drain_of_fail hrun] at h
      obtain ⟨rfl, -⟩ := Prod.mk.inj h
      obtain ⟨n, q, t, rfl, hmore, hfail⟩ := run_fail hrun
      exact ⟨n, q, t, rfl, drain_of_more hmore, hfail⟩

/-- The rule for a drain: an invariant of the places where an item may begin, with what the items
before have shown. -/
theorem drain_rule {P : α → Prop} {I : List α → List β → Prop}
    (hitem : ∀ {as b a r}, I as b → M.run M.start b = .item a r → P a ∧ I (as ++ [a]) r)
    (as : List α) (hI : I as b) (has : ∀ a ∈ as, P a) :
    (∀ a ∈ as ++ (M.drain M.start b).1, P a) ∧
      ∃ c, I (as ++ (M.drain M.start b).1) c := by
  induction hn : b.length using Nat.strong_induction_on generalizing b as with
  | _ k ih =>
    cases hrun : M.run M.start b with
    | more t r =>
      rw [drain_of_more hrun, List.append_nil]
      exact ⟨has, b, hI⟩
    | item a r =>
      obtain ⟨ha, hnext⟩ := hitem hI hrun
      have has' : ∀ x ∈ as ++ [a], P x := by
        simp only [List.mem_append, List.mem_singleton]
        rintro x (hx | rfl)
        · exact has x hx
        · exact ha
      have h := ih r.length (hn ▸ item_lt hrun) (as ++ [a]) hnext has' rfl
      rw [List.append_assoc, List.singleton_append] at h
      rw [drain_of_item hrun]
      exact h
    | fail =>
      rw [drain_of_fail hrun, List.append_nil]
      exact ⟨has, b, hI⟩

theorem run_agree {N : Machine σ α β}
    (hstep : ∀ s b, M.step s b ≠ .fail → N.step s b = M.step s b) (h : M.run s b ≠ .fail) :
    N.run s b = M.run s b := by
  induction hn : b.length using Nat.strong_induction_on generalizing s b with
  | _ k ih =>
    cases hs : M.step s b with
    | wait =>
      rw [run_of_wait hs, run_of_wait ((hstep s b (by simp [hs])).trans hs)]
    | next t r =>
      rw [run_of_next hs] at h ⊢
      rw [run_of_next ((hstep s b (by simp [hs])).trans hs)]
      exact ih r.length (hn ▸ next_lt hs) h rfl
    | done a r =>
      rw [run_of_done hs, run_of_done ((hstep s b (by simp [hs])).trans hs)]
    | fail => exact absurd (run_of_fail hs) h

theorem drain_agree {N : Machine σ α β} (hstart : N.start = M.start)
    (hstep : ∀ s b, M.step s b ≠ .fail → N.step s b = M.step s b) (h : (M.drain s b).2 ≠ none) :
    N.drain s b = M.drain s b := by
  induction hn : b.length using Nat.strong_induction_on generalizing s b with
  | _ k ih =>
    cases hrun : M.run s b with
    | more t r =>
      have hsame := (run_agree hstep (by simp [hrun])).trans hrun
      rw [drain_of_more hrun, drain_of_more hsame]
    | item a r =>
      have hsame := (run_agree hstep (by simp [hrun])).trans hrun
      rw [drain_of_item hrun] at h
      rw [drain_of_item hrun, drain_of_item hsame, hstart, ih r.length (hn ▸ item_lt hrun) h rfl]
    | fail => exact absurd (congrArg Prod.snd (drain_of_fail hrun)) h

variable (M) in
/-- Read a stream that arrives in chunks, draining after each. -/
def feed (chunks : List (List β)) : List α × Option (σ × List β) :=
  chunks.foldl M.extend ([], some (M.start, []))

theorem foldl_extend (s : σ) (b : List β) (chunks : List (List β)) :
    chunks.foldl M.extend (M.drain s b) = M.drain s (b ++ chunks.flatten) := by
  induction chunks generalizing b with
  | nil => rw [List.foldl_nil, List.flatten_nil, List.append_nil]
  | cons c cs ih =>
    rw [List.foldl_cons, ← drain_append, ih, List.flatten_cons, List.append_assoc]

theorem drain_start_nil : M.drain M.start [] = ([], some (M.start, [])) :=
  drain_of_more (run_of_wait (step_nil M.start))

/-- However the stream is cut into chunks, the reader obtains what it would obtain from the
whole. -/
theorem feed_eq (chunks : List (List β)) :
    M.feed chunks = M.drain M.start chunks.flatten := by
  rw [feed, ← drain_start_nil, foldl_extend, List.nil_append]

/-! ## A machine that reads a code -/

/-- `encode` writes what the machine reads back. -/
def Reads (M : Machine σ α β) (encode : α → List β) (Valid : α → Prop) : Prop :=
  ∀ a c, Valid a → M.run M.start (encode a ++ c) = .item a c

variable {encode : α → List β} {Valid : α → Prop}

theorem Reads.short (h : M.Reads encode Valid) (hv : Valid a) (hb : b <+: encode a)
    (hne : b ≠ encode a) : ∃ t r, M.run M.start b = .more t r := by
  obtain ⟨c, hc⟩ := hb
  have hrun := run_append (M := M) M.start b c
  have hitem := h a [] hv
  rw [List.append_nil, ← hc] at hitem
  rw [hitem] at hrun
  cases hs : M.run M.start b with
  | more t r => exact ⟨t, r, rfl⟩
  | item x r =>
    rw [hs] at hrun
    have hnil : r ++ c = [] := (Outcome.item.inj hrun).2.symm
    rw [(List.append_eq_nil_iff.mp hnil).2, List.append_nil] at hc
    exact absurd hc hne
  | fail =>
    rw [hs] at hrun
    cases hrun

/-- The machine as a decoder for the front of a buffer. -/
def decode (M : Machine σ α β) (b : List β) : Option (α × List β) :=
  match M.run M.start b with
  | .item a r => some (a, r)
  | _ => none

/-- A code that a machine reads is a prefix code. -/
def Reads.code (h : M.Reads encode Valid) : PrefixCode.Code α β where
  encode := encode
  decode := M.decode
  Valid := Valid
  decode_nil := by rw [decode, run_of_wait (step_nil M.start)]
  decode_encode := fun a c hv => by rw [decode, h a c hv]
  decode_short := fun a b hv hb hne => by
    obtain ⟨t, r, hs⟩ := h.short hv hb hne
    rw [decode, hs]

/-- From a stream of code words the reader obtains these words. -/
theorem Reads.drain_encodeAll (h : M.Reads encode Valid) {as : List α}
    (hv : h.code.AllValid as) (c : List β) :
    M.drain M.start (h.code.encodeAll as ++ c) =
      (as ++ (M.drain M.start c).1, (M.drain M.start c).2) := by
  induction as with
  | nil => rfl
  | cons a as ih =>
    have hitem : M.run M.start (h.code.encodeAll (a :: as) ++ c) =
        .item a (h.code.encodeAll as ++ c) := by
      rw [PrefixCode.Code.encodeAll_cons, List.append_assoc]
      exact h a _ (hv a (List.mem_cons_self ..))
    rw [drain_of_item hitem, ih fun x hx => hv x (List.mem_cons_of_mem _ hx)]
    rfl

/-- From the front of such a stream it obtains a front of the words, and does not fail. -/
theorem Reads.drain_front (h : M.Reads encode Valid) {as : List α} (hv : h.code.AllValid as)
    {b : List β} (hb : b <+: h.code.encodeAll as) :
    ∃ ds t r, M.drain M.start b = (ds, some (t, r)) ∧ ds <+: as := by
  obtain ⟨c, hc⟩ := hb
  have hall := h.drain_encodeAll hv []
  rw [List.append_nil, drain_start_nil, List.append_nil, ← hc, drain_append] at hall
  cases hd : M.drain M.start b with
  | mk ds st =>
    rw [hd] at hall
    cases st with
    | none => cases hall
    | some st => exact ⟨ds, st.1, st.2, rfl, ⟨_, (Prod.mk.inj hall).1⟩⟩

/-- Words that lie wholly in the bytes read have been obtained. -/
theorem Reads.drain_maximal (h : M.Reads encode Valid) {as : List α} (hv : h.code.AllValid as)
    {b : List β} (hb : h.code.encodeAll as <+: b) : as <+: (M.drain M.start b).1 := by
  obtain ⟨c, rfl⟩ := hb
  rw [h.drain_encodeAll hv c]
  exact List.prefix_append _ _

end Machine

end Resumable
