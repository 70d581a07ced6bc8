import Mathlib.Algebra.Ring.Nat
import Mathlib.Data.List.Nodup
import Mathlib.Logic.Function.Basic

/-!
# Programs that use futures

A program calls, and fetches the results when it needs them.  `Sees` is its meaning if every future
yields the answer to its own call: what holds of the lines that it prints, in whichever order the
results arrive.
-/

namespace FutureProgram

variable {κ ρ ω : Type*}

/-- What a thread does next.  A future is known by a number, and `waitAny` yields the place in the
list of a future that is ready. -/
inductive Program (κ ρ ω : Type*)
  | done
  | print (line : ω) (rest : Program κ ρ ω)
  | call (c : κ) (rest : ℕ → Program κ ρ ω)
  | get (p : ℕ) (rest : ρ → Program κ ρ ω)
  | waitAny (ps : List ℕ) (rest : ℕ → Program κ ρ ω)

namespace Program

/-- The weakest precondition for what is printed.  The thread owns the futures of its calls until it
fetches their results, and may fetch and wait for no others. -/
def Sees (answer : κ → Option ρ) : Program κ ρ ω → (ℕ → Option κ) → (List ω → Prop) → Prop
  | .done, _, Q => Q []
  | .print line rest, owned, Q => rest.Sees answer owned fun lines => Q (line :: lines)
  | .call c rest, owned, Q =>
      ∀ p, owned p = none → (rest p).Sees answer (Function.update owned p (some c)) Q
  | .get p rest, owned, Q =>
      ∃ c, owned p = some c ∧
        ∀ r, answer c = some r → (rest r).Sees answer (Function.update owned p none) Q
  | .waitAny ps rest, owned, Q =>
      ps ≠ [] ∧ (∀ p ∈ ps, owned p ≠ none) ∧ ∀ i < ps.length, (rest i).Sees answer owned Q

/-- All calls of the program are permitted, and together they cost at most so much. -/
def Asks (permitted : κ → Prop) (cost : κ → ℕ) : Program κ ρ ω → ℕ → Prop
  | .done, _ => True
  | .print _ rest, n => rest.Asks permitted cost n
  | .call c rest, n => permitted c ∧ cost c ≤ n ∧ ∀ p, (rest p).Asks permitted cost (n - cost c)
  | .get _ rest, n => ∀ r, (rest r).Asks permitted cost n
  | .waitAny _ rest, n => ∀ i, (rest i).Asks permitted cost n

/-! ## Loops -/

/-- Call one after the other and keep the futures. -/
def callAll (ps : List ℕ) : List κ → (List ℕ → Program κ ρ ω) → Program κ ρ ω
  | [], rest => rest ps
  | c :: cs, rest => .call c fun p => callAll (ps ++ [p]) cs rest

/-- Fetch the results in order, but for the one at `skipped`. -/
def getOthers (skipped : ℕ) (body : ℕ → ρ → Program κ ρ ω → Program κ ρ ω)
    (rest : Program κ ρ ω) : ℕ → List ℕ → Program κ ρ ω
  | _, [] => rest
  | i, p :: ps =>
      if i = skipped then getOthers skipped body rest (i + 1) ps
      else .get p fun r => body i r (getOthers skipped body rest (i + 1) ps)

/-- The thread owns the futures of these calls, in this order. -/
structure Holds (owned : ℕ → Option κ) (ps : List ℕ) (cs : List κ) : Prop where
  nodup : ps.Nodup
  calls : ps.map owned = cs.map some

namespace Holds

variable {owned : ℕ → Option κ} {ps : List ℕ} {cs : List κ}

theorem nil : Holds owned [] [] := ⟨List.nodup_nil, rfl⟩

theorem mem (h : Holds owned ps cs) {p : ℕ} (hp : p ∈ ps) : ∃ c ∈ cs, owned p = some c := by
  have howned : owned p ∈ ps.map owned := List.mem_map_of_mem hp
  rw [h.calls] at howned
  obtain ⟨c, hc, heq⟩ := List.mem_map.mp howned
  exact ⟨c, hc, heq.symm⟩

theorem length (h : Holds owned ps cs) : ps.length = cs.length := by
  have hlen := congrArg List.length h.calls
  rwa [List.length_map, List.length_map] at hlen

theorem getElem? (h : Holds owned ps cs) {i p : ℕ} (hp : ps[i]? = some p) :
    ∃ c, cs[i]? = some c ∧ owned p = some c := by
  have hi := congrArg (fun l => l[i]?) h.calls
  simp only [List.getElem?_map, hp, Option.map_some] at hi
  obtain ⟨c, hc, heq⟩ := Option.map_eq_some_iff.mp hi.symm
  exact ⟨c, hc, heq.symm⟩

theorem call (h : Holds owned ps cs) {p : ℕ} (hp : owned p = none) (c : κ) :
    Holds (Function.update owned p (some c)) (ps ++ [p]) (cs ++ [c]) := by
  have hne : ∀ q ∈ ps, q ≠ p := by
    rintro q hq rfl
    obtain ⟨d, -, hd⟩ := h.mem hq
    cases hp.symm.trans hd
  refine ⟨?_, ?_⟩
  · rw [List.nodup_append]
    refine ⟨h.nodup, List.pairwise_singleton _ _, ?_⟩
    intro q hq r hr
    rw [List.mem_singleton.mp hr]
    exact hne q hq
  · have hsame : ps.map (Function.update owned p (some c)) = ps.map owned :=
      List.map_congr_left fun q hq => Function.update_of_ne (hne q hq) _ _
    rw [List.map_append, List.map_append, hsame, h.calls, List.map_singleton,
      Function.update_self, List.map_singleton]

end Holds

variable {answer : κ → Option ρ} {owned : ℕ → Option κ} {Q : List ω → Prop}

theorem callGet_sees {c : κ} {rest : ρ → Program κ ρ ω}
    (hrest : ∀ r owned', answer c = some r → (rest r).Sees answer owned' Q) :
    (Program.call c fun p => .get p rest).Sees answer owned Q := by
  intro p _
  refine ⟨c, Function.update_self .., ?_⟩
  intro r hr
  exact hrest r _ hr

theorem callAll_sees {ps : List ℕ} {cs cs' : List κ} {rest : List ℕ → Program κ ρ ω}
    (hheld : Holds owned ps cs)
    (hrest : ∀ owned' ps', Holds owned' ps' (cs ++ cs') → (rest ps').Sees answer owned' Q) :
    (callAll ps cs' rest).Sees answer owned Q := by
  induction cs' generalizing owned ps cs with
  | nil =>
    rw [List.append_nil] at hrest
    exact hrest owned ps hheld
  | cons c cs' ih =>
    intro p hp
    apply ih (hheld.call hp c)
    intro owned' ps' hheld'
    rw [List.append_assoc] at hheld'
    exact hrest owned' ps' hheld'

/-- The lines of a loop that fetches results: one for each place but the one skipped. -/
def otherLines (line : ℕ → ω) (skipped i n : ℕ) : List ω :=
  ((List.range' i n).filter (· ≠ skipped)).map line

theorem otherLines_skipped (line : ℕ → ω) (i n : ℕ) :
    otherLines line i i (n + 1) = otherLines line i (i + 1) n := by
  rw [otherLines, List.range'_succ, List.filter_cons_of_neg (by simp)]
  rfl

theorem otherLines_other (line : ℕ → ω) {skipped i : ℕ} (h : i ≠ skipped) (n : ℕ) :
    otherLines line skipped i (n + 1) = line i :: otherLines line skipped (i + 1) n := by
  rw [otherLines, List.range'_succ, List.filter_cons_of_pos (by simpa using h), List.map_cons]
  rfl

/-- The body of such a loop prints the line of its place when it is given an answer to the call
whose future is there. -/
theorem getOthers_sees {skipped : ℕ} {body : ℕ → ρ → Program κ ρ ω → Program κ ρ ω}
    {rest : Program κ ρ ω} {line : ℕ → ω} {ps : List ℕ} {i : ℕ} (hnodup : ps.Nodup)
    (hheld : ∀ j p, ps[j]? = some p → i + j ≠ skipped → ∃ c, owned p = some c ∧
      ∀ r, answer c = some r → ∀ t owned' Q',
        t.Sees answer owned' (fun lines => Q' (line (i + j) :: lines)) →
        (body (i + j) r t).Sees answer owned' Q')
    (hrest : ∀ owned', rest.Sees answer owned' fun lines =>
      Q (otherLines line skipped i ps.length ++ lines)) :
    (getOthers skipped body rest i ps).Sees answer owned Q := by
  induction ps generalizing owned Q i with
  | nil => exact hrest owned
  | cons p ps ih =>
    obtain ⟨hnot, hnodup'⟩ := List.nodup_cons.mp hnodup
    have hlater : ∀ owned' : ℕ → Option κ, (∀ q ∈ ps, owned' q = owned q) →
        ∀ j q, ps[j]? = some q → i + 1 + j ≠ skipped → ∃ c, owned' q = some c ∧
          ∀ r, answer c = some r → ∀ t owned'' Q',
            t.Sees answer owned'' (fun lines => Q' (line (i + 1 + j) :: lines)) →
            (body (i + 1 + j) r t).Sees answer owned'' Q' := by
      intro owned' hsame j q hq
      rw [hsame q (List.mem_of_getElem? hq), Nat.add_right_comm, Nat.add_assoc]
      exact hheld (j + 1) q hq
    rw [List.length_cons] at hrest
    rw [getOthers]
    by_cases hi : i = skipped
    · subst hi
      rw [if_pos rfl]
      apply ih hnodup' (hlater owned fun _ _ => rfl)
      rw [← otherLines_skipped]
      exact hrest
    · rw [if_neg hi]
      obtain ⟨c, hc, hbody⟩ := hheld 0 p rfl hi
      refine ⟨c, hc, ?_⟩
      intro r hr
      apply hbody r hr
      apply ih hnodup'
      · apply hlater
        intro q hq
        apply Function.update_of_ne
        rintro rfl
        exact hnot hq
      · rw [otherLines_other line hi] at hrest
        exact hrest

theorem callAll_asks {permitted : κ → Prop} {cost : κ → ℕ} {cs : List κ}
    {rest : List ℕ → Program κ ρ ω} {n : ℕ} (hcs : ∀ c ∈ cs, permitted c)
    (hle : (cs.map cost).sum ≤ n)
    (hrest : ∀ ps, (rest ps).Asks permitted cost (n - (cs.map cost).sum)) (ps : List ℕ) :
    (callAll ps cs rest).Asks permitted cost n := by
  induction cs generalizing ps n with
  | nil => exact hrest ps
  | cons c cs ih =>
    rw [List.map_cons, List.sum_cons] at hle hrest
    refine ⟨hcs c (List.mem_cons_self ..), by omega, ?_⟩
    intro p
    refine ih (fun d hd => hcs d (List.mem_cons_of_mem _ hd)) (by omega) ?_ _
    intro qs
    rw [Nat.sub_sub]
    exact hrest qs

theorem getOthers_asks {permitted : κ → Prop} {cost : κ → ℕ} {skipped n : ℕ}
    {body : ℕ → ρ → Program κ ρ ω → Program κ ρ ω} {rest : Program κ ρ ω}
    (hbody : ∀ i r t, t.Asks permitted cost n → (body i r t).Asks permitted cost n)
    (hrest : rest.Asks permitted cost n) (i : ℕ) (ps : List ℕ) :
    (getOthers skipped body rest i ps).Asks permitted cost n := by
  induction ps generalizing i with
  | nil => exact hrest
  | cons p ps ih =>
    rw [getOthers]
    split_ifs
    · exact ih (i + 1)
    · exact fun r => hbody i r _ (ih (i + 1))

end Program

end FutureProgram
