import PromiseDemo.Client.ProcessConnections

/-!
# The ledger of promises

Every promise a connection has created is accounted for: it is unsatisfied and waits in
`pending_` under the id of its request, or it has been satisfied and its result is the only one
the history shows for it.  The ledger survives every step, whatever the peer sends and the
system calls answer.
-/

namespace PromiseDemo

open Transition PromiseStore

/-- The outcome an event stores for promise `p`. -/
def Event.outcomeOf (p : ℕ) : Event → Option Outcome
  | .satisfied q outcome => if q = p then some outcome else none
  | _ => none

/-- All outcomes ever stored for promise `p`, in order. -/
def outcomesOf (p : ℕ) (h : List Event) : List Outcome := h.filterMap (Event.outcomeOf p)

@[simp] theorem outcomesOf_nil (p : ℕ) : outcomesOf p [] = [] := rfl

@[simp] theorem outcomesOf_append (p : ℕ) (h k : List Event) :
    outcomesOf p (h ++ k) = outcomesOf p h ++ outcomesOf p k := List.filterMap_append

/-- The events that leave promises and tickets alone. -/
def Event.quiet : Event → Bool
  | .issued .. => false
  | .satisfied .. => false
  | _ => true

theorem outcomesOf_quiet {p : ℕ} {es : List Event} (hq : ∀ e ∈ es, e.quiet = true) :
    outcomesOf p es = [] := by
  rw [outcomesOf, List.filterMap_eq_nil_iff]
  intro e he
  have := hq e he
  cases e <;> simp_all [Event.outcomeOf, Event.quiet]

theorem outcomesOf_satisfied (p : ℕ) (ps : List ℕ) (hnd : ps.Nodup) (outcome : Outcome) :
    outcomesOf p (ps.map (Event.satisfied · outcome)) = if p ∈ ps then [outcome] else [] := by
  induction ps with
  | nil => rfl
  | cons q ps ih =>
    obtain ⟨hq, hps⟩ := List.nodup_cons.mp hnd
    have ih' : List.filterMap (Event.outcomeOf p) (ps.map (Event.satisfied · outcome)) = _ := ih hps
    rw [List.map_cons, outcomesOf, List.filterMap_cons]
    by_cases hqp : q = p
    · subst hqp
      simp [Event.outcomeOf, ih', hq]
    · simp [Event.outcomeOf, ih', hqp, Ne.symm hqp]

/-- The accounts of a connection after history `h`.  `served` is the id whose promise has just
been satisfied and whose entry is about to be removed. -/
structure Ledger (h : List Event) (c : Connection) (served : Option UInt32) : Prop where
  bound : ∀ {id r}, c.pending.lookup id = some r → r.promise < c.promises.length
  inj : ∀ {id id' r r'}, c.pending.lookup id = some r → c.pending.lookup id' = some r' →
    r.promise = r'.promise → id = id'
  retrieved : AllRetrieved c.promises
  waiting : ∀ {p}, Waiting c.promises p → ∃ id r, c.pending.lookup id = some r ∧ r.promise = p
  unsatisfied : ∀ {id r}, c.pending.lookup id = some r → served ≠ some id →
    resultOf c.promises r.promise = none
  settled : ∀ {id}, served = some id →
    ∃ r o, c.pending.lookup id = some r ∧ resultOf c.promises r.promise = some o
  outcomes : ∀ p, outcomesOf p h = (resultOf c.promises p).toList
  tickets : ∀ {p id payload}, Event.issued p id payload ∈ h → p < c.promises.length ∧
    ∀ {id' r}, c.pending.lookup id' = some r → r.promise = p → id' = id

namespace Ledger

variable {h : List Event} {c c' : Connection} {served : Option UInt32} {id : UInt32}
  {r : PendingRequest}

theorem init : Ledger [] ({} : Connection) none where
  bound h := by cases h
  inj h := by cases h
  retrieved := by intro st hst; cases hst
  waiting h := absurd h.1 (Nat.not_lt_zero _)
  unsatisfied h := by cases h
  settled h := by cases h
  outcomes p := by simp [resultOf]
  tickets h := by cases h

theorem congr (hl : Ledger h c served) {es : List Event} (hq : ∀ e ∈ es, e.quiet = true)
    (hp : c'.pending = c.pending := by rfl) (hs : c'.promises = c.promises := by rfl) :
    Ledger (h ++ es) c' served := by
  obtain ⟨hbound, hinj, hret, hwait, hunsat, hset, hout, htick⟩ := hl
  rw [← hp, ← hs] at *
  refine ⟨hbound, hinj, hret, hwait, hunsat, hset, ?_, ?_⟩
  · intro p
    rw [outcomesOf_append, outcomesOf_quiet hq, List.append_nil, hout]
  · intro p id payload hmem
    rcases List.mem_append.mp hmem with hmem | hmem
    · exact htick hmem
    · have := hq _ hmem
      cases this

theorem issue (hl : Ledger h c served) (hid : c.pending.lookup id = none)
    (hp : c'.pending = c.pending.insert id { promise := c.promises.length })
    (hs : c'.promises = c.promises ++ [{ retrieved := true }]) {packet : OutgoingPacket}
    {payload : Bytes} :
    Ledger (h ++ [.queued packet, .issued c.promises.length id payload]) c' served := by
  have hres : ∀ p, resultOf c'.promises p = resultOf c.promises p := by
    intro p
    rw [hs]
    rcases Nat.lt_trichotomy p c.promises.length with hlt | heq | hgt
    · rw [resultOf, List.getElem?_append_left hlt]; rfl
    · rw [resultOf_of_length_le (s := c.promises) heq.ge, heq, resultOf]
      simp
    · rw [resultOf_of_length_le (by simp; omega), resultOf_of_length_le (by omega)]
  have hlen : c'.promises.length = c.promises.length + 1 := by simp [hs]
  have hlook : ∀ {i q}, c'.pending.lookup i = some q →
      (i = id ∧ q = { promise := c.promises.length }) ∨ c.pending.lookup i = some q := by
    intro i q hq
    rw [hp] at hq
    by_cases hi : i = id
    · subst hi
      rw [AList.lookup_insert] at hq
      exact .inl ⟨rfl, (Option.some.inj hq).symm⟩
    · rw [AList.lookup_insert_ne hi] at hq
      exact .inr hq
  have hkeep : ∀ {i q}, c.pending.lookup i = some q → c'.pending.lookup i = some q := by
    intro i q hq
    have hi : i ≠ id := by rintro rfl; rw [hid] at hq; cases hq
    rw [hp, AList.lookup_insert_ne hi, hq]
  refine ⟨?_, ?_, ?_, ?_, ?_, ?_, ?_, ?_⟩
  · intro i q hq
    rcases hlook hq with ⟨-, rfl⟩ | hq
    · rw [hlen]; exact Nat.lt_succ_self _
    · have := hl.bound hq; omega
  · intro i i' q q' hq hq' he
    rcases hlook hq with ⟨rfl, rfl⟩ | hq <;> rcases hlook hq' with ⟨rfl, rfl⟩ | hq'
    · rfl
    · have := hl.bound hq'; simp only at he; omega
    · have := hl.bound hq; simp only at he; omega
    · exact hl.inj hq hq' he
  · intro st hst
    rw [hs] at hst
    rcases List.mem_append.mp hst with hst | hst
    · exact hl.retrieved st hst
    · rw [List.mem_singleton.mp hst]
  · rintro p ⟨hlt, hnone⟩
    rw [hres] at hnone
    by_cases hpl : p = c.promises.length
    · exact ⟨id, _, by rw [hp, AList.lookup_insert], hpl.symm⟩
    · obtain ⟨i, q, hq, rfl⟩ := hl.waiting ⟨by omega, hnone⟩
      exact ⟨i, q, hkeep hq, rfl⟩
  · intro i q hq hne
    rw [hres]
    rcases hlook hq with ⟨-, rfl⟩ | hq
    · exact resultOf_of_length_le le_rfl
    · exact hl.unsatisfied hq hne
  · intro i hi
    obtain ⟨q, o, hq, ho⟩ := hl.settled hi
    exact ⟨q, o, hkeep hq, by rw [hres]; exact ho⟩
  · intro p
    rw [hres, outcomesOf_append, hl.outcomes]
    simp [outcomesOf, Event.outcomeOf]
  · intro p i pl hmem
    rcases List.mem_append.mp hmem with hmem | hmem
    · obtain ⟨hlt, huniq⟩ := hl.tickets hmem
      refine ⟨by omega, ?_⟩
      intro i' q hq he
      rcases hlook hq with ⟨-, rfl⟩ | hq
      · simp only at he; omega
      · exact huniq hq he
    · simp only [List.mem_cons, reduceCtorEq, Event.issued.injEq, List.not_mem_nil, or_false,
        false_or] at hmem
      obtain ⟨rfl, rfl, -⟩ := hmem
      refine ⟨by omega, ?_⟩
      intro i' q hq he
      rcases hlook hq with ⟨rfl, -⟩ | hq
      · rfl
      · have := hl.bound hq; omega

theorem update (hl : Ledger h c served) (hr : c.pending.lookup id = some r)
    {r' : PendingRequest} (hp : r'.promise = r.promise) :
    Ledger h (c.updateRequest id r') served := by
  have hlook : ∀ {i q}, (c.pending.insert id r').lookup i = some q →
      ∃ q', c.pending.lookup i = some q' ∧ q'.promise = q.promise := by
    intro i q hq
    by_cases hi : i = id
    · subst hi
      rw [AList.lookup_insert] at hq
      obtain rfl := Option.some.inj hq
      exact ⟨r, hr, hp.symm⟩
    · rw [AList.lookup_insert_ne hi] at hq
      exact ⟨q, hq, rfl⟩
  have hkeep : ∀ {i q}, c.pending.lookup i = some q →
      ∃ q', (c.pending.insert id r').lookup i = some q' ∧ q'.promise = q.promise := by
    intro i q hq
    by_cases hi : i = id
    · subst hi
      rw [hr] at hq
      obtain rfl := Option.some.inj hq
      exact ⟨r', AList.lookup_insert _, hp⟩
    · exact ⟨q, by rw [AList.lookup_insert_ne hi, hq], rfl⟩
  refine ⟨?_, ?_, hl.retrieved, ?_, ?_, ?_, hl.outcomes, ?_⟩
  · intro i q hq
    obtain ⟨q', hq', he⟩ := hlook hq
    exact he ▸ hl.bound hq'
  · intro i i' q q' hq hq' he
    obtain ⟨p, hp, hep⟩ := hlook hq
    obtain ⟨p', hp', hep'⟩ := hlook hq'
    exact hl.inj hp hp' (by rw [hep, hep', he])
  · intro p hw
    obtain ⟨i, q, hq, rfl⟩ := hl.waiting hw
    obtain ⟨q', hq', he⟩ := hkeep hq
    exact ⟨i, q', hq', he⟩
  · intro i q hq hne
    obtain ⟨q', hq', he⟩ := hlook hq
    exact he ▸ hl.unsatisfied hq' hne
  · intro i hi
    obtain ⟨q, o, hq, ho⟩ := hl.settled hi
    obtain ⟨q', hq', he⟩ := hkeep hq
    exact ⟨q', o, hq', he ▸ ho⟩
  · intro p i payload hmem
    obtain ⟨hlt, huniq⟩ := hl.tickets hmem
    refine ⟨hlt, ?_⟩
    intro i' q hq he
    obtain ⟨q', hq', he'⟩ := hlook hq
    exact huniq hq' (he'.trans he)

theorem setValue (hl : Ledger h c none) (hr : c.pending.lookup id = some r) (o : Outcome) :
    ∃ promises, satisfy c.promises r.promise o = .ok promises ∧
      Ledger (h ++ [.satisfied r.promise o]) { c with promises } (some id) := by
  have hw : Waiting c.promises r.promise := ⟨hl.bound hr, hl.unsatisfied hr (by simp)⟩
  obtain ⟨promises, hok, hlen, hres, hret⟩ := satisfy_of_waiting hw o
  refine ⟨promises, hok, ?_⟩
  have hbound : ∀ {i q}, c.pending.lookup i = some q → q.promise < promises.length := by
    intro i q hq
    rw [hlen]
    exact hl.bound hq
  refine ⟨hbound, hl.inj, hret hl.retrieved, ?_, ?_, ?_, ?_, ?_⟩
  · rintro p ⟨hlt, hnone⟩
    rw [hres] at hnone
    split at hnone
    · cases hnone
    · exact hl.waiting ⟨hlen ▸ hlt, hnone⟩
  · intro i q hq hne
    have hi : q.promise ≠ r.promise := fun he => hne (by rw [hl.inj hq hr he])
    simp only [hres, if_neg hi]
    exact hl.unsatisfied hq (by simp)
  · rintro i hi
    obtain rfl := Option.some.inj hi
    exact ⟨r, o, hr, by simp only [hres, if_true]⟩
  · intro p
    rw [outcomesOf_append, hl.outcomes]
    simp only [hres]
    by_cases hp : p = r.promise
    · subst hp
      simp [hw.2, outcomesOf, Event.outcomeOf]
    · simp [hp, Ne.symm hp, outcomesOf, Event.outcomeOf]
  · intro p i payload hmem
    rcases List.mem_append.mp hmem with hmem | hmem
    · obtain ⟨hlt, huniq⟩ := hl.tickets hmem
      exact ⟨hlen ▸ hlt, huniq⟩
    · simp at hmem

theorem remove (hl : Ledger h c (some id)) : Ledger h (c.removeRequest id) none := by
  have hlook : ∀ {i q}, (c.pending.erase id).lookup i = some q →
      i ≠ id ∧ c.pending.lookup i = some q := by
    intro i q hq
    have hi : i ≠ id := by rintro rfl; rw [AList.lookup_erase] at hq; cases hq
    exact ⟨hi, by rwa [AList.lookup_erase_ne hi] at hq⟩
  obtain ⟨r, o, hr, ho⟩ := hl.settled rfl
  refine ⟨fun hq => hl.bound (hlook hq).2, fun hq hq' => hl.inj (hlook hq).2 (hlook hq').2,
    hl.retrieved, ?_, ?_, ?_, hl.outcomes, ?_⟩
  · intro p hw
    obtain ⟨i, q, hq, rfl⟩ := hl.waiting hw
    have hi : i ≠ id := by
      rintro rfl
      rw [hr] at hq
      obtain rfl := Option.some.inj hq
      have hnone : resultOf c.promises r.promise = none := hw.2
      rw [hnone] at ho
      cases ho
    exact ⟨i, q, (AList.lookup_erase_ne hi).trans hq, rfl⟩
  · intro i q hq _
    obtain ⟨hi, hq⟩ := hlook hq
    exact hl.unsatisfied hq (by simpa using Ne.symm hi)
  · intro i hi; cases hi
  · intro p i payload hmem
    obtain ⟨hlt, huniq⟩ := hl.tickets hmem
    exact ⟨hlt, fun hq he => huniq (hlook hq).2 he⟩

theorem mem_pendingPromises {p : ℕ} :
    p ∈ c.pendingPromises ↔ ∃ id r, c.pending.lookup id = some r ∧ r.promise = p := by
  simp only [Connection.pendingPromises, List.mem_map]
  constructor
  · rintro ⟨⟨id, r⟩, hmem, rfl⟩
    exact ⟨id, r, AList.mem_lookup_iff.mpr hmem, rfl⟩
  · rintro ⟨id, r, hr, rfl⟩
    exact ⟨⟨id, r⟩, AList.mem_lookup_iff.mp hr, rfl⟩

theorem pendingPromises_nodup (hl : Ledger h c served) : c.pendingPromises.Nodup := by
  apply List.Nodup.map_on _ c.pending.nodupKeys.nodup
  rintro ⟨i, q⟩ hq ⟨i', q'⟩ hq' he
  have hl₁ := AList.mem_lookup_iff.mpr hq
  have hl₂ := AList.mem_lookup_iff.mpr hq'
  obtain rfl := hl.inj hl₁ hl₂ he
  obtain rfl := Option.mem_unique hl₁ hl₂
  rfl

theorem close (hl : Ledger h c none) (what : String) (next : Phase) :
    ∃ promises es, c.closeStep what next =
        (⟨{ c with closed := true, promises, pending := ∅, outgoing := [] }, next⟩, es) ∧
      es = c.pendingPromises.map (Event.satisfied · (.exception what)) ++ [.closed what] ∧
      Ledger (h ++ es) { c with closed := true, promises, pending := ∅, outgoing := [] } none := by
  have hw : ∀ p ∈ c.pendingPromises, Waiting c.promises p := by
    intro p hp
    obtain ⟨i, q, hq, rfl⟩ := mem_pendingPromises.mp hp
    exact ⟨hl.bound hq, hl.unsatisfied hq (by simp)⟩
  obtain ⟨promises, hall, hlen, hres, hret⟩ :=
    satisfyAll_of_waiting hl.pendingPromises_nodup hw (.exception what)
  refine ⟨promises, _, by simp only [Connection.closeStep, Connection.closeWithError, hall], rfl,
    ?_⟩
  have hempty : ∀ {i : UInt32} {q : PendingRequest}, (∅ : PendingMap).lookup i ≠ some q := by simp
  refine ⟨fun hq => absurd hq hempty, fun hq => absurd hq hempty, hret hl.retrieved, ?_,
    fun hq => absurd hq hempty, ?_, ?_, ?_⟩
  · rintro p ⟨hlt, hnone⟩
    rw [hres] at hnone
    split at hnone
    · cases hnone
    · rename_i hp
      exact absurd (mem_pendingPromises.mpr (hl.waiting ⟨hlen ▸ hlt, hnone⟩)) hp
  · intro i hi
    cases hi
  · intro p
    rw [outcomesOf_append, outcomesOf_append, hl.outcomes,
      outcomesOf_satisfied p _ hl.pendingPromises_nodup]
    simp only [hres]
    by_cases hp : p ∈ c.pendingPromises
    · simp [hp, (hw p hp).2, outcomesOf, Event.outcomeOf]
    · simp [hp, outcomesOf, Event.outcomeOf]
  · intro p i payload hmem
    have hold : Event.issued p i payload ∈ h := by simpa using hmem
    exact ⟨hlen ▸ (hl.tickets hold).1, fun hq => absurd hq hempty⟩

theorem of_closeStep (hl : Ledger h c none) {what : String} {next : Phase} {v : View}
    {es : List Event} (hv : c.closeStep what next = (v, es)) :
    ∃ promises,
      v = ⟨{ c with closed := true, promises, pending := ∅, outgoing := [] }, next⟩ ∧
      es = c.pendingPromises.map (Event.satisfied · (.exception what)) ++ [.closed what] ∧
      Ledger (h ++ es) v.conn none := by
  obtain ⟨promises, ks, he, hks, hl'⟩ := hl.close what next
  rw [he] at hv
  cases hv
  exact ⟨promises, rfl, hks, hl'⟩

theorem sendRequest_cases (hl : Ledger h c served) (payload : Bytes) :
    (c.closed = true ∧ (c.sendRequest payload).1 = c ∧
      c.sendEvents payload = [.rejected (.runtimeError "connection is closed")]) ∨
    (c.closed = false ∧ (∃ q, c.pending.lookup c.nextId = some q) ∧
      (c.sendRequest payload).1 =
        { c with nextId := c.nextId + 1, outgoing := c.outgoing ++ [⟨c.nextId, payload⟩] } ∧
      c.sendEvents payload = [.queued ⟨c.nextId, payload⟩,
        .rejected (.future .futureAlreadyRetrieved)]) ∨
    (c.closed = false ∧ c.pending.lookup c.nextId = none ∧
      (c.sendRequest payload).1 =
        { c with
          nextId := c.nextId + 1
          outgoing := c.outgoing ++ [⟨c.nextId, payload⟩]
          promises := c.promises ++ [{ retrieved := true }]
          pending := c.pending.insert c.nextId { promise := c.promises.length } } ∧
      c.sendEvents payload = [.queued ⟨c.nextId, payload⟩,
        .issued c.promises.length c.nextId payload]) := by
  cases hc : c.closed with
  | true =>
    refine .inl ⟨rfl, ?_, ?_⟩ <;> simp [Connection.sendEvents, Connection.sendRequest, hc]
  | false =>
    cases hq : c.pending.lookup c.nextId with
    | some q =>
      have hf := getFuture_of_allRetrieved hl.retrieved (hl.bound hq)
      refine .inr (.inl ⟨rfl, ⟨q, rfl⟩, ?_, ?_⟩) <;>
        simp [Connection.sendEvents, Connection.sendRequest, Connection.pendingAt, hc, hq, hf]
    | none =>
      have hf := create_getFuture c.promises
      refine .inr (.inr ⟨rfl, rfl, ?_, ?_⟩) <;>
        simp [Connection.sendEvents, Connection.sendRequest, Connection.pendingAt, hc, hq, hf]

end Ledger

end PromiseDemo
