import PromiseDemo.Client.Visit
import Mathlib.Data.Fin.Basic
import Mathlib.Data.Fintype.Basic
import Mathlib.Logic.Function.Basic

/-!
# The I/O thread

`process_connections` walks over a fixed set of connections again and again until `done`.  The
loop is written over an arbitrary kind of part, so that the same loop runs over bare
connections and over connections together with their sockets and peers.

`did_work` is left out: it only decides whether the thread sleeps for a millisecond between two
rounds, and a sleep changes nothing.
-/

namespace PromiseDemo

open Transition

/-- Who performs an action on a part: the I/O thread, some other thread or process, or the loop
itself when the thread arrives or leaves. -/
inductive Kind
  | thread
  | other
  | control
  deriving DecidableEq, Repr

/-- What the loop knows of its parts. -/
structure LoopBody (κ α ε : Type*) where
  step : StepFn κ α ε
  kind : α → Kind
  enter : α
  leave : α
  /-- `is_closed()` -/
  closed : κ → Bool
  /-- An exception left the loop body at this part. -/
  threw : κ → Bool
  /-- The I/O thread is not at this part. -/
  home : κ → Bool

/-- Where the I/O thread is. -/
inductive Position (n : ℕ)
  /-- At the loop test `!done(connections)`. -/
  | test
  | body (i : Fin n)
  /-- After the last connection of a round. -/
  | endOfRound
  | returned
  deriving DecidableEq, Repr

structure Loop (n : ℕ) (κ : Type*) where
  parts : Fin n → κ
  position : Position n := .test
  stopRequested : Bool := false

inductive LoopAction (n : ℕ) (α : Type*)
  | part (i : Fin n) (a : α)
  | test
  | next
  | sleep
  | requestStop
  deriving DecidableEq, Repr

variable {n : ℕ} {κ α ε : Type*}

namespace Loop

variable (B : LoopBody κ α ε) (s : Loop n κ)

/-- `done(connections)`. -/
def done : Bool := s.stopRequested || decide (∀ i, B.closed (s.parts i) = true)

/-- The process has ended because an exception left the I/O thread. -/
def terminated : Bool :=
  match s.position with
  | .body i => B.threw (s.parts i)
  | _ => false

def partStep (i : Fin n) (a : α) : Option (Loop n κ × List (Fin n × ε)) :=
  (B.step (s.parts i) a).map fun q =>
    ({ s with parts := Function.update s.parts i q.1 }, q.2.map fun e => (i, e))

/-- Go on with connection number `k` of this round, if there is one. -/
def goTo (k : ℕ) : Option (Loop n κ × List (Fin n × ε)) :=
  if hk : k < n then
    (s.partStep B ⟨k, hk⟩ B.enter).map fun q => ({ q.1 with position := .body ⟨k, hk⟩ }, q.2)
  else some ({ s with position := .endOfRound }, [])

end Loop

/-- The transition function of `process_connections` and of the threads around it. -/
def LoopBody.loopStep (B : LoopBody κ α ε) : StepFn (Loop n κ) (LoopAction n α) (Fin n × ε)
  | s, a =>
    if s.terminated B then none
    else
      match a with
      | .part i a =>
          if B.kind a = .control ∨ (B.kind a = .thread ∧ s.position ≠ .body i) then none
          else s.partStep B i a
      | .test =>
          if s.position = .test then
            if s.done B then some ({ s with position := .returned }, []) else s.goTo B 0
          else none
      | .next =>
          match s.position with
          | .body i =>
              (s.partStep B i B.leave).bind fun q =>
                (q.1.goTo B (i.val + 1)).map fun r => (r.1, q.2 ++ r.2)
          | _ => none
      | .sleep =>
          if s.position = .endOfRound then some ({ s with position := .test }, []) else none
      | .requestStop => some ({ s with stopRequested := true }, [])

/-- The events of one part. -/
def onPart (c : Fin n) (h : List (Fin n × ε)) : List ε :=
  h.filterMap fun e => if e.1 = c then some e.2 else none

@[simp] theorem onPart_nil (c : Fin n) : onPart c ([] : List (Fin n × ε)) = [] := rfl

@[simp] theorem onPart_append (c : Fin n) (h k : List (Fin n × ε)) :
    onPart c (h ++ k) = onPart c h ++ onPart c k := List.filterMap_append

@[simp] theorem onPart_self (c : Fin n) (es : List ε) :
    onPart c (es.map fun e => (c, e)) = es := by
  simp [onPart, List.filterMap_map]

theorem mem_onPart {c : Fin n} {e : ε} {h : List (Fin n × ε)} : e ∈ onPart c h ↔ (c, e) ∈ h := by
  simp [onPart]

theorem onPart_other {c i : Fin n} (h : i ≠ c) (es : List ε) :
    onPart c (es.map fun e => (i, e)) = [] := by
  simp [onPart, List.filterMap_map, h]

/-- The steps of the loop. -/
inductive LoopStep (B : LoopBody κ α ε) (s : Loop n κ) :
    LoopAction n α → Loop n κ → List (Fin n × ε) → Prop
  | part {i : Fin n} {a : α} {k : κ} {es : List ε} (hc : B.kind a ≠ .control)
      (ht : B.kind a = .thread → s.position = .body i) (h : B.step (s.parts i) a = some (k, es)) :
      LoopStep B s (.part i a) { s with parts := Function.update s.parts i k }
        (es.map fun e => (i, e))
  | returned (hp : s.position = .test) (hd : s.done B = true) :
      LoopStep B s .test { s with position := .returned } []
  | started {i : Fin n} {k : κ} {es : List ε} (hp : s.position = .test) (hd : s.done B = false)
      (hi : i.val = 0) (h : B.step (s.parts i) B.enter = some (k, es)) :
      LoopStep B s .test { s with parts := Function.update s.parts i k, position := .body i }
        (es.map fun e => (i, e))
  | moved {i j : Fin n} {k k' : κ} {es es' : List ε} (hp : s.position = .body i)
      (hl : B.step (s.parts i) B.leave = some (k, es)) (hj : j.val = i.val + 1)
      (he : B.step (s.parts j) B.enter = some (k', es')) :
      LoopStep B s .next
        { s with parts := Function.update (Function.update s.parts i k) j k', position := .body j }
        ((es.map fun e => (i, e)) ++ es'.map fun e => (j, e))
  | finished {i : Fin n} {k : κ} {es : List ε} (hp : s.position = .body i)
      (hl : B.step (s.parts i) B.leave = some (k, es)) (hlast : i.val + 1 = n) :
      LoopStep B s .next
        { s with parts := Function.update s.parts i k, position := .endOfRound }
        (es.map fun e => (i, e))
  | slept (hp : s.position = .endOfRound) : LoopStep B s .sleep { s with position := .test } []
  | stopRequested : LoopStep B s .requestStop { s with stopRequested := true } []

variable {B : LoopBody κ α ε} {s t : Loop n κ} {a : LoopAction n α} {es : List (Fin n × ε)}

theorem LoopStep.of_loopStep (h : B.loopStep s a = some (t, es)) :
    s.terminated B = false ∧ LoopStep B s a t es := by
  simp only [LoopBody.loopStep, Option.ite_none_left_eq_some, Bool.not_eq_true] at h
  obtain ⟨hterm, h⟩ := h
  refine ⟨hterm, ?_⟩
  cases a with
  | part i a =>
    simp only [Option.ite_none_left_eq_some, Loop.partStep, Option.map_eq_some_iff, not_or,
      not_and, not_not] at h
    obtain ⟨⟨hc, ht⟩, ⟨k, es'⟩, hs, he⟩ := h
    cases he
    exact .part hc ht hs
  | test =>
    simp only [Option.ite_none_right_eq_some] at h
    obtain ⟨hp, h⟩ := h
    split at h
    · cases h; exact .returned hp ‹_›
    · rename_i hd
      rw [Bool.not_eq_true] at hd
      simp only [Loop.goTo] at h
      split at h
      · simp only [Loop.partStep, Option.map_map, Option.map_eq_some_iff] at h
        obtain ⟨⟨k, es'⟩, hs, he⟩ := h
        cases he
        exact .started hp hd rfl hs
      · rename_i hn
        -- with no connection at all `done` is true
        have hall : s.done B = true := by
          simp only [Loop.done, Bool.or_eq_true, decide_eq_true_eq]
          exact .inr fun i => absurd i.isLt (by omega)
        rw [hall] at hd
        cases hd
  | next =>
    cases hp : s.position with
    | body i =>
      simp only [hp, Loop.partStep, Loop.goTo, Option.bind_eq_some_iff,
        Option.map_eq_some_iff] at h
      obtain ⟨q, ⟨⟨k, es₁⟩, hl, rfl⟩, ⟨r, es₂⟩, hg, he⟩ := h
      split at hg
      · rename_i hlt
        simp only [Option.map_map, Option.map_eq_some_iff] at hg
        obtain ⟨⟨k', es'⟩, hs, hr⟩ := hg
        have hne : (⟨i.val + 1, hlt⟩ : Fin n) ≠ i := by
          intro hh
          have := congrArg Fin.val hh
          simp at this
        rw [Function.update_of_ne hne] at hs
        cases hr
        cases he
        exact .moved hp hl rfl hs
      · cases hg
        cases he
        rw [List.append_nil]
        exact .finished hp hl (by have := i.isLt; omega)
    | test => rw [hp] at h; cases h
    | endOfRound => rw [hp] at h; cases h
    | returned => rw [hp] at h; cases h
  | sleep =>
    simp only [Option.ite_none_right_eq_some] at h
    obtain ⟨hp, h⟩ := h
    cases h
    exact .slept hp
  | requestStop => cases h; exact .stopRequested

theorem LoopStep.loopStep_eq (hterm : s.terminated B = false) (h : LoopStep B s a t es) :
    B.loopStep s a = some (t, es) := by
  cases h with
  | part hc ht h =>
    have hguard : ¬(B.kind _ = .control ∨ B.kind _ = .thread ∧ s.position ≠ .body _) :=
      not_or.mpr ⟨hc, fun hk => hk.2 (ht hk.1)⟩
    simp [LoopBody.loopStep, hterm, hguard, Loop.partStep, h]
  | returned hp hd => simp [LoopBody.loopStep, hterm, hp, hd]
  | @started i k ks hp hd hi h =>
    have hpos : 0 < n := by have := i.isLt; omega
    obtain rfl : i = ⟨0, hpos⟩ := Fin.ext hi
    simp [LoopBody.loopStep, hterm, hp, hd, Loop.goTo, hpos, Loop.partStep, h]
  | @moved i j k k' ks ks' hp hl hj he =>
    have hlt : i.val + 1 < n := by have := j.isLt; omega
    obtain rfl : j = ⟨i.val + 1, hlt⟩ := Fin.ext hj
    have hne : (⟨i.val + 1, hlt⟩ : Fin n) ≠ i := by
      intro hh
      have := congrArg Fin.val hh
      simp at this
    simp [LoopBody.loopStep, hterm, hp, Loop.goTo, hlt, Loop.partStep, hl,
      Function.update_of_ne hne, he]
  | finished hp hl hlast =>
    simp [LoopBody.loopStep, hterm, hp, Loop.goTo, hlast, Loop.partStep, hl]
  | slept hp => simp [LoopBody.loopStep, hterm, hp]
  | stopRequested => simp [LoopBody.loopStep, hterm]

/-- How an action of the loop reaches a part `c`: as an action on it, or because the thread arrives
there, at the start of a round or from its predecessor, or leaves it. -/
inductive Reaches (B : LoopBody κ α ε) (s t : Loop n κ) (c : Fin n) : LoopAction n α → α → Prop
  | part {b : α} (hc : B.kind b ≠ .control) : Reaches B s t c (.part c b) b
  | start (hd : s.done B = false) (hp : t.position = .body c) : Reaches B s t c .test B.enter
  | arrive {i : Fin n} (hp : s.position = .body i) (hi : c.val = i.val + 1) :
      Reaches B s t c .next B.enter
  | depart (hp : s.position = .body c) : Reaches B s t c .next B.leave

theorem LoopStep.seenFrom (c : Fin n) (h : LoopStep B s a t es) :
    (t.parts c = s.parts c ∧ onPart c es = []) ∨
      ∃ b, B.step (s.parts c) b = some (t.parts c, onPart c es) ∧ Reaches B s t c a b := by
  -- one part `i` is replaced, with its own events
  have one : ∀ {i : Fin n} {b : α} {k : κ} {ks : List ε}, B.step (s.parts i) b = some (k, ks) →
      (i = c → Reaches B s t c a b) →
      (Function.update s.parts i k c = s.parts c ∧ onPart c (ks.map fun e => (i, e)) = []) ∨
        ∃ b, B.step (s.parts c) b =
          some (Function.update s.parts i k c, onPart c (ks.map fun e => (i, e))) ∧
          Reaches B s t c a b := by
    intro i b k ks hs hr
    by_cases hi : i = c
    · subst hi
      rw [onPart_self, Function.update_self]
      exact .inr ⟨b, hs, hr rfl⟩
    · rw [onPart_other hi, Function.update_of_ne (Ne.symm hi)]
      exact .inl ⟨rfl, rfl⟩
  cases h with
  | part hc ht hs =>
    apply one hs
    rintro rfl
    exact .part hc
  | returned hp hd => exact .inl ⟨rfl, rfl⟩
  | started hp hd hi hs =>
    apply one hs
    rintro rfl
    exact .start hd rfl
  | @moved i j k k' es₁ es₂ hp hl hj he =>
    have hij : i ≠ j := by rintro rfl; omega
    rw [onPart_append]
    by_cases hjc : j = c
    · subst hjc
      rw [onPart_other hij, onPart_self, List.nil_append]
      simp only [Function.update_self]
      exact .inr ⟨_, he, .arrive hp hj⟩
    · rw [onPart_other hjc, List.append_nil]
      simp only [Function.update_of_ne (Ne.symm hjc)]
      apply one hl
      rintro rfl
      exact .depart hp
  | finished hp hl hlast =>
    apply one hl
    rintro rfl
    exact .depart hp
  | slept hp => exact .inl ⟨rfl, rfl⟩
  | stopRequested => exact .inl ⟨rfl, rfl⟩

/-- Every run of the loop is, for each part, a run of that part. -/
theorem Loop.project {allowed : Loop n κ → LoopAction n α → Prop} {allowedPart : κ → α → Prop}
    {h : List (Fin n × ε)} (c : Fin n)
    (hpart : ∀ s b, allowed s (.part c b) → allowedPart (s.parts c) b)
    (henter : ∀ k, allowedPart k B.enter) (hleave : ∀ k, allowedPart k B.leave)
    (hrun : Run B.loopStep allowed s h t) :
    Run B.step allowedPart (s.parts c) (onPart c h) (t.parts c) := by
  refine hrun.project (fun s => s.parts c) (onPart c) (onPart_nil c) (onPart_append c) ?_
  intro s t a es ha hs
  rcases (LoopStep.of_loopStep hs).2.seenFrom c with hnone | ⟨b, hb, hr⟩
  · exact .inl hnone
  · refine .inr (.single ?_ hb)
    cases hr with
    | part hc => exact hpart s b ha
    | start hd hp => exact henter _
    | arrive hp hi => exact henter _
    | depart hp => exact hleave _

theorem Loop.part_step {i : Fin n} {b : α} {k : κ} {ks : List ε}
    (hkind : B.kind b = .other ∨ B.kind b = .thread ∧ s.position = .body i)
    (hthrew : ∀ j, s.position = .body j → B.threw (s.parts j) = false)
    (h : B.step (s.parts i) b = some (k, ks)) :
    B.loopStep s (.part i b) =
      some ({ s with parts := Function.update s.parts i k }, ks.map fun e => (i, e)) := by
  apply LoopStep.loopStep_eq
  · cases hp : s.position with
    | body j => simpa only [Loop.terminated, hp] using hthrew j hp
    | _ => simp only [Loop.terminated, hp]
  · apply LoopStep.part _ _ h
    · rcases hkind with hk | ⟨hk, -⟩ <;> rw [hk] <;> exact Kind.noConfusion
    · rcases hkind with hk | ⟨-, hp⟩
      · rw [hk]
        exact fun hk => (nomatch hk)
      · exact fun _ => hp

/-- A run of steps of a part that the loop lets through is a run of the loop. -/
theorem Loop.lift {allowed : Loop n κ → LoopAction n α → Prop} {allowedPart : κ → α → Prop}
    {i : Fin n} {k : κ} {h : List ε}
    (hkind : ∀ k a, allowedPart k a →
      B.kind a = .other ∨ B.kind a = .thread ∧ s.position = .body i)
    (hthrew : ∀ k a q, allowedPart k a → B.step k a = some q → B.threw k = false)
    (hothers : ∀ j, j ≠ i → s.position = .body j → B.threw (s.parts j) = false)
    (hallowed : ∀ s a, allowedPart (s.parts i) a → allowed s (.part i a))
    (hrun : Run B.step allowedPart (s.parts i) h k) :
    Run B.loopStep allowed s (h.map fun e => (i, e))
      { s with parts := Function.update s.parts i k } := by
  induction hrun with
  | refl =>
    rw [Function.update_eq_self]
    exact .refl
  | @tail h k k' a es hrun ha hs ih =>
    rw [List.map_append]
    apply Run.tail ih (a := .part i a)
    · apply hallowed
      simpa only [Function.update_self] using ha
    · have hstep : B.loopStep { s with parts := Function.update s.parts i k } (.part i a) =
          some ({ s with parts := Function.update (Function.update s.parts i k) i k' },
            es.map fun e => (i, e)) := by
        refine Loop.part_step (hkind k a ha) ?_ (by simpa only [Function.update_self] using hs)
        intro j hp
        by_cases hj : j = i
        · subst hj
          simpa only [Function.update_self] using hthrew k a _ ha hs
        · simpa only [Function.update_of_ne hj] using hothers j hj hp
      rwa [Function.update_idem] at hstep

/-- The transitions of a part respect where the I/O thread is. -/
structure LoopBody.Lawful (B : LoopBody κ α ε) : Prop where
  enter : ∀ {k k' es}, B.step k B.enter = some (k', es) → B.home k = true ∧ B.home k' = false
  leave : ∀ {k k' es}, B.step k B.leave = some (k', es) → B.home k' = true
  thread : ∀ {k k' a es}, B.kind a = .thread → B.step k a = some (k', es) →
    B.home k = false ∧ B.home k' = false
  other : ∀ {k k' a es}, B.kind a = .other → B.step k a = some (k', es) → B.home k' = B.home k

/-- The I/O thread is inside the loop body of exactly the connection it is visiting. -/
def Loop.Located (B : LoopBody κ α ε) (s : Loop n κ) : Prop :=
  ∀ c, B.home (s.parts c) = false ↔ s.position = .body c

theorem Loop.Located.step (hB : B.Lawful) (hl : s.Located B) (hs : LoopStep B s a t es) :
    t.Located B := by
  intro c
  have hc := hl c
  cases hs with
  | @part i b k ks hk ht h =>
    by_cases hi : c = i
    · subst hi
      simp only [Function.update_self]
      cases hb : B.kind b with
      | thread => exact iff_of_true (hB.thread hb h).2 (ht hb)
      | other => rw [hB.other hb h]; exact hc
      | control => exact absurd hb hk
    · simpa only [Function.update_of_ne hi] using hc
  | returned hp hd => simpa [hp] using hc
  | @started i k ks hp hd h0 h =>
    by_cases hi : c = i
    · subst hi
      simpa only [Function.update_self, iff_true] using (hB.enter h).2
    · simp only [Function.update_of_ne hi, Position.body.injEq, Ne.symm hi, iff_false]
      simpa [hp] using hc
  | @moved i j k k' ks ks' hp hleave hj henter =>
    by_cases hcj : c = j
    · subst hcj
      simpa only [Function.update_self, iff_true] using (hB.enter henter).2
    · simp only [Function.update_of_ne hcj, Position.body.injEq, Ne.symm hcj, iff_false]
      by_cases hci : c = i
      · subst hci
        simpa only [Function.update_self, Bool.not_eq_false] using hB.leave hleave
      · simpa only [Function.update_of_ne hci, hp, Position.body.injEq, Ne.symm hci,
          iff_false] using hc
  | @finished i k ks hp hleave hlast =>
    simp only [reduceCtorEq, iff_false]
    by_cases hci : c = i
    · subst hci
      simpa only [Function.update_self, Bool.not_eq_false] using hB.leave hleave
    · simpa only [Function.update_of_ne hci, hp, Position.body.injEq, Ne.symm hci,
        iff_false] using hc
  | slept hp => simpa [hp] using hc
  | stopRequested => exact hc

theorem Loop.Located.run {allowed : Loop n κ → LoopAction n α → Prop} {h : List (Fin n × ε)}
    (hB : B.Lawful) (hl : s.Located B) (hrun : Run B.loopStep allowed s h t) : t.Located B :=
  hrun.invariant (I := fun _ t => t.Located B) hl
    fun hI _ hs => hI.step hB (LoopStep.of_loopStep hs).2

/-! ## The client -/

/-- `process_connections` over bare connections, whose sockets answer in any way. -/
def clientBody : LoopBody View Action Event where
  step := View.step
  kind
    | .io _ => .thread
    | .sendRequest _ => .other
    | .enter | .leave => .control
  enter := .enter
  leave := .leave
  closed v := v.conn.closed
  threw v := v.phase.isThrew
  home v := v.phase = .away

abbrev Client (n : ℕ) := Loop n View

abbrev ClientAction (n : ℕ) := LoopAction n Action

/-- The client with its I/O thread, its user threads and an arbitrary environment. -/
def processConnections : StepFn (Client n) (ClientAction n) (Fin n × Event) :=
  clientBody.loopStep

/-- `main` has made the connections and starts the I/O thread. -/
def Client.init : Client n := { parts := fun _ => View.init }

theorem clientBody_lawful : clientBody.Lawful where
  enter h := by
    cases ViewStep.of_step h
    exact ⟨rfl, rfl⟩
  leave h := by
    cases ViewStep.of_step h
    rfl
  thread {k k' a es} ha h := by
    cases ViewStep.of_step h with
    | io hio =>
      obtain ⟨hk, hk'⟩ := hio.phase_ne_away
      simpa only [clientBody, decide_eq_false_iff_not] using ⟨hk, hk'⟩
    | _ => cases ha
  other {k k' a es} ha h := by
    cases ViewStep.of_step h with
    | sendRequest hp => rfl
    | _ => cases ha

theorem Client.part_run {allowed : Client n → ClientAction n → Prop} {s t : Client n}
    {h : List (Fin n × Event)} (hrun : Run processConnections allowed s h t) (c : Fin n) :
    Run View.step anyAction (s.parts c) (onPart c h) (t.parts c) :=
  Loop.project c (fun _ _ _ => trivial) (fun _ => trivial) (fun _ => trivial) hrun

end PromiseDemo
