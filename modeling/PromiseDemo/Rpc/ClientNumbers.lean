import PromiseDemo.Rpc.ClientRun
import PromiseDemo.Rpc.Serve

/-!
# The numbers of calls

`call_idx_` counts the calls, as an `int`, and wraps around.  A server reads the number as a
`uint32_t`, and the two agree on the first half of the numbers only.
-/

namespace PromiseDemo.Rpc

open Transition MsgPack PromiseStore

/-! ## Numbers -/

/-- The numbers that calls have taken, in order. -/
def numbersOf (h : List ClientEvent) : List ℤ :=
  h.filterMap fun e => match e with
    | .numbered idx => some idx
    | _ => none

/-- The numbers of the calls that have been posted. -/
def issuedOf (h : List ClientEvent) : List ℤ :=
  h.filterMap fun e => match e with
    | .issued _ idx _ _ => some idx
    | _ => none

@[simp] theorem numbersOf_append (h k : List ClientEvent) :
    numbersOf (h ++ k) = numbersOf h ++ numbersOf k := List.filterMap_append

@[simp] theorem issuedOf_append (h k : List ClientEvent) :
    issuedOf (h ++ k) = issuedOf h ++ issuedOf k := List.filterMap_append

/-- The `k`-th value of the counter. -/
def callNumber (k : ℕ) : ℤ := (k : ℤ).bmod (2 ^ 32)

theorem callNumber_range (k : ℕ) : -2 ^ 31 ≤ callNumber k ∧ callNumber k < 2 ^ 31 := by
  unfold callNumber
  rw [Int.bmod_def]
  push_cast
  split_ifs <;> omega

theorem callNumber_succ (k : ℕ) : (callNumber k + 1).bmod (2 ^ 32) = callNumber (k + 1) := by
  unfold callNumber
  rw [Int.bmod_add_bmod, Nat.cast_succ]

theorem callNumber_of_lt {k : ℕ} (h : k < 2 ^ 31) : callNumber k = k := by
  unfold callNumber
  rw [Int.bmod_def]
  push_cast
  split_ifs <;> omega

theorem callNumber_neg {k : ℕ} (hle : 2 ^ 31 ≤ k) (hlt : k < 2 ^ 32) : callNumber k < 0 := by
  unfold callNumber
  rw [Int.bmod_def]
  push_cast
  split_ifs <;> omega

theorem castUnsigned_callNumber {k : ℕ} (h : k < 2 ^ 32) : castUnsigned 4 (callNumber k) = k := by
  have hmod : callNumber k % 256 ^ 4 = k := by
    unfold callNumber
    rw [Int.bmod_def]
    push_cast
    split_ifs <;> omega
  rw [castUnsigned, hmod, Int.toNat_natCast]

/-- The counter, the calls on their way and the calls posted, after history `h`. -/
structure Numbering (h : List ClientEvent) (c : ClientImpl) : Prop where
  taken : numbersOf h = (List.range (numbersOf h).length).map fun k => callNumber (k + 1)
  counter : c.callIdx = callNumber (numbersOf h).length
  posted : (issuedOf h ++ c.numbered.map Numbered.idx).Perm (numbersOf h)

theorem Numbering.quiet {h es : List ClientEvent} {c c' : ClientImpl} (hn : Numbering h c)
    (hnumbers : numbersOf es = []) (hissued : issuedOf es = []) (hidx : c'.callIdx = c.callIdx)
    (hnumbered : c'.numbered = c.numbered) : Numbering (h ++ es) c' := by
  refine ⟨?_, ?_, ?_⟩
  · rw [numbersOf_append, hnumbers, List.append_nil]
    exact hn.taken
  · rw [numbersOf_append, hnumbers, List.append_nil, hidx]
    exact hn.counter
  · rw [numbersOf_append, issuedOf_append, hnumbers, hissued, List.append_nil, List.append_nil,
      hnumbered]
    exact hn.posted

theorem broken_quiet {es : List ClientEvent}
    (hes : ∀ e ∈ es, ∃ q, e = .resolved q .brokenPromise) :
    numbersOf es = [] ∧ issuedOf es = [] :=
  ⟨filterMap_broken hes fun _ => rfl, filterMap_broken hes fun _ => rfl⟩

theorem runClosure_quiet (c : ClientImpl) (closure : Closure) :
    (numbersOf (c.runClosure closure).2 = [] ∧ issuedOf (c.runClosure closure).2 = []) ∧
      (c.runClosure closure).1.callIdx = c.callIdx ∧
      (c.runClosure closure).1.numbered = c.numbered := by
  have hrun := closureStep c closure
  generalize c.runClosure closure = q at hrun ⊢
  cases hrun with
  | queued _ _ _ hes =>
    obtain ⟨hn, hi⟩ := broken_quiet hes
    rw [numbersOf_append, issuedOf_append, hn, hi]
    exact ⟨⟨rfl, rfl⟩, rfl, rfl⟩
  | erased _ _ hes => exact ⟨broken_quiet hes, rfl, rfl⟩

theorem next_quiet (c : ClientImpl) :
    (numbersOf c.next.2 = [] ∧ issuedOf c.next.2 = []) ∧ c.next.1.callIdx = c.callIdx ∧
      c.next.1.numbered = c.numbered := by
  have hnext := nextStep c
  generalize c.next = q at hnext ⊢
  cases hnext <;> exact ⟨⟨rfl, rfl⟩, rfl, rfl⟩

theorem Numbering.step {h es : List ClientEvent} {c c' : ClientImpl} (hn : Numbering h c)
    {a : ClientAction} (hstep : c.step a = some (c', es)) : Numbering (h ++ es) c' := by
  obtain ⟨-, -, hact⟩ := clientStep_of_step hstep
  cases hact with
  | connected | refused | send | receive | exhausts | readError => exact hn.quiet rfl rfl rfl rfl
  | call hopen =>
    have hidx : c.nextCallIdx = callNumber ((numbersOf h).length + 1) := by
      unfold ClientImpl.nextCallIdx
      rw [hn.counter]
      exact callNumber_succ _
    have hnumbers : numbersOf (h ++ [.numbered c.nextCallIdx]) =
        numbersOf h ++ [c.nextCallIdx] := by simp [numbersOf]
    have hissued : issuedOf (h ++ [.numbered c.nextCallIdx]) = issuedOf h := by simp [issuedOf]
    refine ⟨?_, ?_, ?_⟩
    · rw [ClientImpl.takeNumber, hnumbers, List.length_append, List.length_singleton,
        List.range_succ, List.map_append, ← hn.taken, List.map_singleton, hidx]
    · rw [ClientImpl.takeNumber, hnumbers, List.length_append, List.length_singleton]
      exact hidx
    · rw [ClientImpl.takeNumber, hnumbers, hissued, List.map_append, List.map_singleton,
        ← List.append_assoc]
      exact hn.posted.append_right _
  | @post i n hget =>
    obtain ⟨hi, hn'⟩ := List.getElem?_eq_some_iff.mp hget
    have hnumbers : numbersOf (h ++ [.issued c.promises.length n.idx n.funcName n.args]) =
        numbersOf h := by simp [numbersOf]
    have hissued : issuedOf (h ++ [.issued c.promises.length n.idx n.funcName n.args]) =
        issuedOf h ++ [n.idx] := by simp [issuedOf]
    refine ⟨?_, ?_, ?_⟩
    · rw [hnumbers]
      exact hn.taken
    · rw [hnumbers]
      exact hn.counter
    · have htaken : (n :: c.numbered.eraseIdx i).Perm c.numbered := by
        rw [← hn']
        exact List.getElem_cons_eraseIdx_perm hi
      rw [hnumbers, hissued, List.append_assoc, List.singleton_append, ← List.map_cons]
      exact ((htaken.map Numbered.idx).append_left _).trans hn.posted
  | strand hstrand =>
    obtain ⟨⟨hnum, hiss⟩, hidx, hnumbered⟩ := runClosure_quiet { c with strand := _ } _
    exact hn.quiet hnum hiss hidx hnumbered
  | next hphase =>
    obtain ⟨⟨hnum, hiss⟩, hidx, hnumbered⟩ := next_quiet c
    exact hn.quiet hnum hiss hidx hnumbered
  | io hwrite hclose hw => exact hn.quiet (by simp [numbersOf]) (by simp [issuedOf]) rfl rfl
  | destroy hphase =>
    obtain ⟨hnum, hiss⟩ := broken_quiet (abandonAll_broken c.promises
      ((tickets c.strand).map Ticket.promise ++ ongoingPromises c.ongoingCalls))
    exact hn.quiet hnum hiss rfl rfl

theorem Numbering.of_run {h : List ClientEvent} {c : ClientImpl}
    (hrun : Run ClientImpl.step anyAction {} h c) : Numbering h c := by
  induction hrun with
  | refl => exact ⟨rfl, rfl, .refl _⟩
  | tail _ _ hstep ih => exact ih.step hstep

/-! ## Requests as objects -/

/-- `call_obj` of `async_call`. -/
def callObject (idx : ℤ) (funcName : Bytes) (args : List Object) : Object :=
  .array [.positiveInteger 0, .ofInt idx, .str funcName, .array args]

/-- `call_obj` of `send`. -/
def notificationObject (funcName : Bytes) (args : List Object) : Object :=
  .array [.positiveInteger 2, .str funcName, .array args]

theorem packArgs_eq (args : List Object) : packArgs args = pack (.array args) := rfl

theorem packCall_eq {idx : ℤ} (hlow : -2 ^ 31 ≤ idx) (hhigh : idx < 2 ^ 31) (funcName : Bytes)
    (args : List Object) : packCall idx funcName args = pack (callObject idx funcName args) := by
  have hstr : pack (.str funcName) = packStr funcName.length ++ funcName := rfl
  have htype : packImpUint8 0 = pack (.positiveInteger 0) := packImpUint8_eq (by decide)
  have hobject : pack (callObject idx funcName args) = packArray 4 ++ (pack (.positiveInteger 0) ++
      (pack (.ofInt idx) ++ (pack (.str funcName) ++ pack (.array args)))) := by
    change packArray 4 ++ packItems [.positiveInteger 0, .ofInt idx, .str funcName, .array args] = _
    simp only [packItems, List.append_nil]
  rw [hobject, packCall, packImpInt32_eq hlow hhigh, packArgs_eq, htype, hstr]

theorem packNotification_eq (funcName : Bytes) (args : List Object) :
    packNotification funcName args = pack (notificationObject funcName args) := by
  have hstr : pack (.str funcName) = packStr funcName.length ++ funcName := rfl
  have htype : packImpUint8 2 = pack (.positiveInteger 2) := packImpUint8_eq (by decide)
  have hobject : pack (notificationObject funcName args) = packArray 3 ++
      (pack (.positiveInteger 2) ++ (pack (.str funcName) ++ pack (.array args))) := by
    change packArray 3 ++ packItems [.positiveInteger 2, .str funcName, .array args] = _
    simp only [packItems, List.append_nil]
  rw [hobject, packNotification, packArgs_eq, htype, hstr]

theorem convertCall_callObject {idx : ℤ} (hpos : 0 ≤ idx) (hlt : idx < 2 ^ 31)
    (funcName : Bytes) (args : List Object) :
    convertCall (callObject idx funcName args) =
      some ⟨castUnsigned 4 idx, funcName, .array args⟩ := by
  have hcast : castUnsigned 4 idx = idx.toNat := by
    rw [castUnsigned, Int.emod_eq_of_lt hpos (by omega)]
  have hint : convertUint32 (.ofInt idx) = some idx.toNat := by
    rw [Object.ofInt, if_neg (by omega), convertUint32, convertUnsigned, if_neg (by omega)]
  have htype : convertInt8 (.positiveInteger 0) = some 0 := rfl
  simp only [callObject, convertCall, htype, hint, hcast, convertString, Option.bind_eq_bind,
    Option.bind_some]

theorem serve_negative {idx : ℤ} (hneg : idx < 0) (cfg : Config) (funcName : Bytes)
    (args : List Object) : cfg.serve (callObject idx funcName args) = .terminated := by
  have hint : convertUint32 (.ofInt idx) = none := by
    rw [Object.ofInt, if_pos hneg]
    rfl
  have htype : convertInt8 (.positiveInteger 0) = some 0 := rfl
  have hcall : convertCall (callObject idx funcName args) = none := by
    simp only [callObject, convertCall, htype, hint, Option.bind_eq_bind, Option.bind_some,
      Option.bind_none]
  have hsize : viaArraySize cfg.overlay (callObject idx funcName args) = 4 := rfl
  unfold Config.serve dispatch
  rw [hsize, if_neg (by decide), if_pos rfl, dispatchCall, hcall]

namespace Numbering

variable {h : List ClientEvent} {c : ClientImpl}

theorem number_at (hn : Numbering h c) {k : ℕ} {idx : ℤ} (hget : (numbersOf h)[k]? = some idx) :
    idx = callNumber (k + 1) := by
  have hlt := (List.getElem?_eq_some_iff.mp hget).1
  rw [hn.taken, List.getElem?_map, List.getElem?_range hlt] at hget
  exact (Option.some.inj hget).symm

theorem ids_nodup (hn : Numbering h c) (hfew : (numbersOf h).length < 2 ^ 32) :
    ((issuedOf h).map (castUnsigned 4)).Nodup := by
  have hids : ((numbersOf h).map (castUnsigned 4)).Nodup := by
    rw [hn.taken, List.map_map]
    apply List.Nodup.map_on _ List.nodup_range
    intro k hk l hl heq
    rw [List.mem_range] at hk hl
    have hk' := castUnsigned_callNumber (Nat.lt_of_le_of_lt hk hfew)
    have hl' := castUnsigned_callNumber (Nat.lt_of_le_of_lt hl hfew)
    rw [Function.comp_apply, Function.comp_apply, hk', hl'] at heq
    exact Nat.succ.inj heq
  have hsub := (hn.posted.map (castUnsigned 4)).nodup_iff.mpr hids
  rw [List.map_append] at hsub
  exact (List.nodup_append.mp hsub).1

theorem issued_range (hn : Numbering h c) {idx : ℤ} (hmem : idx ∈ issuedOf h) :
    -2 ^ 31 ≤ idx ∧ idx < 2 ^ 31 := by
  have hnum := hn.posted.subset (List.mem_append_left _ hmem)
  rw [hn.taken] at hnum
  obtain ⟨k, -, rfl⟩ := List.mem_map.mp hnum
  exact callNumber_range _

theorem issued_pos (hn : Numbering h c) (hfew : (numbersOf h).length < 2 ^ 31) {idx : ℤ}
    (hmem : idx ∈ issuedOf h) : 0 ≤ idx := by
  have hnum := hn.posted.subset (List.mem_append_left _ hmem)
  rw [hn.taken] at hnum
  obtain ⟨k, hk, rfl⟩ := List.mem_map.mp hnum
  rw [List.mem_range] at hk
  rw [callNumber_of_lt (Nat.lt_of_le_of_lt hk hfew)]
  exact Int.natCast_nonneg _

end Numbering

theorem convertCall_callNumber {k : ℕ} (h : k < 2 ^ 31) (funcName : Bytes) (args : List Object) :
    convertCall (callObject (callNumber k) funcName args) = some ⟨k, funcName, .array args⟩ := by
  have hcast : castUnsigned 4 (callNumber k) = k :=
    castUnsigned_callNumber (by omega)
  have hnonneg : 0 ≤ callNumber k := by
    rw [callNumber_of_lt h]
    exact Int.natCast_nonneg k
  rw [convertCall_callObject hnonneg (callNumber_range k).2, hcast]

/-- What a new client shows when these actions are performed. -/
abbrev historyOf (as : List ClientAction) : List ClientEvent :=
  (afterAll ClientImpl.step anyAction {} as).2

/-- Where they leave it. -/
abbrev reachedBy (as : List ClientAction) : ClientImpl :=
  (afterAll ClientImpl.step anyAction {} as).1

/-- One call, whose request the strand has queued. -/
def oneCall : List ClientAction := [.connect true, .call [0x66] [], .post 0, .strand]

/-- Calls are numbered in order.  The numbers of fewer than `2 ^ 32` calls are distinct as ids; but
the `2 ^ 31`-th and those after it are negative, and end whichever server they are sent to. -/
theorem call_numbers {h : List ClientEvent} {c : ClientImpl}
    (hrun : Run ClientImpl.step anyAction {} h c) :
    (numbersOf h = (List.range (numbersOf h).length).map fun k => callNumber (k + 1)) ∧
      ((numbersOf h).length < 2 ^ 32 → ((issuedOf h).map (castUnsigned 4)).Nodup) ∧
      ∀ k idx, (numbersOf h)[k]? = some idx →
        (k + 1 < 2 ^ 31 → ∀ funcName args, convertCall (callObject idx funcName args) =
          some ⟨k + 1, funcName, .array args⟩) ∧
        (2 ^ 31 ≤ k + 1 → k + 1 < 2 ^ 32 → ∀ (cfg : Config) funcName args,
          cfg.serve (callObject idx funcName args) = .terminated) := by
  have hn := Numbering.of_run hrun
  refine ⟨hn.taken, hn.ids_nodup, ?_⟩
  intro k idx hget
  rw [hn.number_at hget]
  constructor
  · intro hsmall funcName args
    exact convertCall_callNumber hsmall funcName args
  · intro hlarge hlt cfg funcName args
    exact serve_negative (callNumber_neg hlarge hlt) cfg funcName args

theorem call_numbers_one :
    (numbersOf (historyOf oneCall) =
        (List.range (numbersOf (historyOf oneCall)).length).map
          fun k => callNumber (k + 1)) ∧
      ((numbersOf (historyOf oneCall)).length < 2 ^ 32 →
        ((issuedOf (historyOf oneCall)).map
          (castUnsigned 4)).Nodup) ∧
      ∀ k idx, (numbersOf (historyOf oneCall))[k]? = some idx →
        (k + 1 < 2 ^ 31 → ∀ funcName args, convertCall (callObject idx funcName args) =
          some ⟨k + 1, funcName, .array args⟩) ∧
        (2 ^ 31 ≤ k + 1 → k + 1 < 2 ^ 32 → ∀ (cfg : Config) funcName args,
          cfg.serve (callObject idx funcName args) = .terminated) :=
  call_numbers (Run.of_actions ClientImpl.step anyAction {} oneCall rfl)

end PromiseDemo.Rpc
