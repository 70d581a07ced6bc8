import PromiseDemo.Net.Socket

/-!
# `send_all`

The loop of `send_all` against any answers of `::send`.  The remaining size passes through an
`int` before it becomes the length that `::send` is asked for.
-/

namespace PromiseDemo

/-- A call `::send(s, data.data() + offset, requested, 0)` and its result. -/
structure SendCall where
  offset : ℕ
  requested : ℕ
  result : SendResult
  deriving DecidableEq, Repr

/-- The bytes of `data` that a call puts on the wire. -/
def SendCall.bytes (data : Bytes) (call : SendCall) : Bytes :=
  (sendCall data call.offset call.result).1

/-- `send_all(s, data)` from `sent` bytes on: the calls made and the value returned, `none` where
the results of `::send` run out first. -/
def sendAll (data : Bytes) : ℕ → List SendResult → List SendCall × Option Bool
  | sent, [] => ([], if sent < data.length then none else some true)
  | sent, result :: results =>
      if sent < data.length then
        let call := ⟨sent, sendLength (data.length - sent), result⟩
        match (sendCall data sent result).2 with
        | some sent =>
            let rest := sendAll data sent results
            (call :: rest.1, rest.2)
        | none => ([call], some false)
      else ([], some true)

/-- Every call fails or accepts between 1 and the requested number of bytes. -/
def Permitted (data : Bytes) (sent : ℕ) (results : List SendResult) : Prop :=
  ∀ call ∈ (sendAll data sent results).1,
    call.result.possible (data.length - call.offset) = true

/-- `send_all` transmits what is left of `data` from `sent` on, and nothing else. -/
structure Transmits (data : Bytes) (sent : ℕ) (results : List SendResult) : Prop where
  requests : ∀ call ∈ (sendAll data sent results).1,
    1 ≤ call.requested ∧ call.requested ≤ data.length - call.offset
  front : (sendAll data sent results).1.flatMap (SendCall.bytes data) <+: data.drop sent
  calls : (sendAll data sent results).1.length ≤ data.length - sent
  ends : data.length - sent ≤ results.length → (sendAll data sent results).2.isSome = true
  returns : (sendAll data sent results).2 = some true ↔
    (sendAll data sent results).1.flatMap (SendCall.bytes data) = data.drop sent
  succeeds : SendResult.failed ∉ results → (sendAll data sent results).2 ≠ some false

/-! ## The loop -/

section Loop

variable {data : Bytes} {sent n : ℕ} {results : List SendResult}

theorem sendAll_done (h : data.length ≤ sent) : sendAll data sent results = ([], some true) := by
  cases results with
  | nil => rw [sendAll, if_neg (by omega)]
  | cons result results => rw [sendAll, if_neg (by omega)]

theorem sendAll_failed (h : sent < data.length) :
    sendAll data sent (.failed :: results) =
      ([⟨sent, sendLength (data.length - sent), .failed⟩], some false) := by
  rw [sendAll, if_pos h]
  rfl

theorem sendAll_accepted (h : sent < data.length) :
    sendAll data sent (.accepted n :: results) =
      (⟨sent, sendLength (data.length - sent), .accepted n⟩ :: (sendAll data (sent + n) results).1,
        (sendAll data (sent + n) results).2) := by
  rw [sendAll, if_pos h]
  rfl

theorem Transmits.done (h : data.length ≤ sent) : Transmits data sent results := by
  have hdrop : data.drop sent = [] := List.drop_of_length_le h
  constructor <;> simp [sendAll_done h, hdrop]

theorem Transmits.waits (h : sent < data.length) : Transmits data sent [] := by
  have hdrop : data.drop sent ≠ [] := by simpa using h
  have hloop : sendAll data sent [] = ([], none) := by rw [sendAll, if_pos h]
  constructor
  · simp [hloop]
  · simp [hloop]
  · simp [hloop]
  · intro hle
    rw [List.length_nil] at hle
    omega
  · simp [hloop, hdrop.symm]
  · simp [hloop]

theorem Transmits.failed (h : sent < data.length)
    (hlen : sendLength (data.length - sent) = data.length - sent) :
    Transmits data sent (.failed :: results) := by
  have hdrop : data.drop sent ≠ [] := by simpa using h
  have hnone : SendCall.bytes data ⟨sent, sendLength (data.length - sent), .failed⟩ = [] := rfl
  constructor
  · intro call hcall
    rw [sendAll_failed h] at hcall
    obtain rfl := List.mem_singleton.mp hcall
    dsimp only
    omega
  · simp [sendAll_failed h, hnone]
  · simp [sendAll_failed h]
    omega
  · simp [sendAll_failed h]
  · simp [sendAll_failed h, hnone, hdrop.symm]
  · simp

theorem Transmits.accepted (h : sent < data.length) (hn : 0 < n) (hle : n ≤ data.length - sent)
    (hlen : sendLength (data.length - sent) = data.length - sent)
    (hrest : Transmits data (sent + n) results) : Transmits data sent (.accepted n :: results) := by
  have hbytes : SendCall.bytes data ⟨sent, sendLength (data.length - sent), .accepted n⟩ =
      (data.drop sent).take n := rfl
  have hsplit : data.drop sent = (data.drop sent).take n ++ data.drop (sent + n) := by
    rw [← List.drop_drop, List.take_append_drop]
  constructor
  · intro call hcall
    rw [sendAll_accepted h] at hcall
    rcases List.mem_cons.mp hcall with rfl | hcall
    · dsimp only
      omega
    · exact hrest.requests call hcall
  · rw [sendAll_accepted h, List.flatMap_cons, hbytes]
    nth_rewrite 2 [hsplit]
    exact (List.prefix_append_right_inj _).mpr hrest.front
  · rw [sendAll_accepted h, List.length_cons]
    have := hrest.calls
    omega
  · intro hresults
    rw [List.length_cons] at hresults
    rw [sendAll_accepted h]
    exact hrest.ends (by omega)
  · rw [sendAll_accepted h, List.flatMap_cons, hbytes]
    nth_rewrite 2 [hsplit]
    rw [List.append_cancel_left_eq]
    exact hrest.returns
  · intro hfail
    rw [sendAll_accepted h]
    exact hrest.succeeds fun hmem => hfail (List.mem_cons_of_mem _ hmem)

/-- Below `2^31` bytes the casts do no harm. -/
theorem transmits_of_lt (hsize : data.length < 2 ^ 31) (hans : Permitted data sent results) :
    Transmits data sent results := by
  induction results generalizing sent with
  | nil =>
    by_cases h : sent < data.length
    · exact .waits h
    · exact .done (by omega)
  | cons result results ih =>
    by_cases h : sent < data.length
    · have hlen : sendLength (data.length - sent) = data.length - sent := sendLength_of_lt (by omega)
      cases result with
      | failed => exact .failed h hlen
      | accepted n =>
        rw [Permitted, sendAll_accepted h] at hans
        obtain ⟨hn, hle⟩ := accepted_le (by omega) (hans _ (List.mem_cons_self ..))
        exact .accepted h hn hle hlen (ih fun call hcall => hans call (List.mem_cons_of_mem _ hcall))
    · exact .done (by omega)

end Loop

/-! ## Where the casts change the length -/

theorem sendLength_of_ge {n : ℕ} (h : 2 ^ 31 ≤ n) (hlt : n < 2 ^ 32) :
    sendLength n = 2 ^ 64 - 2 ^ 32 + n := by
  have hn : (BitVec.ofNat 32 n).toNat = n := by
    rw [BitVec.toNat_ofNat]
    exact Nat.mod_eq_of_lt hlt
  have hmsb : (BitVec.ofNat 32 n).msb = true := by
    rw [BitVec.msb_eq_decide, hn]
    simpa using h
  rw [sendLength, BitVec.toNat_signExtend, hmsb, BitVec.toNat_setWidth, hn, if_pos rfl,
    Nat.mod_eq_of_lt (by omega), Nat.add_comm]

theorem sendLength_add (n : ℕ) : sendLength (n + 2 ^ 32) = sendLength n := by
  have h : BitVec.ofNat 32 (n + 2 ^ 32) = BitVec.ofNat 32 n := by
    apply BitVec.eq_of_toNat_eq
    rw [BitVec.toNat_ofNat, BitVec.toNat_ofNat, Nat.add_mod_right]
  rw [sendLength, h, sendLength]

theorem sendLength_pow : sendLength (2 ^ 32) = 0 := by decide

theorem not_transmits_first {data : Bytes}
    (hlen : ¬(1 ≤ sendLength data.length ∧ sendLength data.length ≤ data.length))
    (hpos : 0 < data.length) : ¬∀ results, Permitted data 0 results → Transmits data 0 results := by
  intro hall
  have hloop := @sendAll_failed data 0 [] hpos
  have htrans := hall [.failed] (by
    intro call hcall
    rw [hloop] at hcall
    obtain rfl := List.mem_singleton.mp hcall
    rfl)
  have hcall := htrans.requests
  rw [hloop] at hcall
  exact hlen (hcall _ (List.mem_cons_self ..))

/-- `send_all` transmits exactly its argument when and only when that has fewer than `2^31`
bytes. -/
theorem send_all_transmits_iff (data : Bytes) (hsize : data.length ≤ 8 + (2 ^ 32 - 1)) :
    (∀ results, Permitted data 0 results → Transmits data 0 results) ↔ data.length < 2 ^ 31 := by
  constructor
  · intro hall
    by_contra hge
    by_cases hneg : data.length < 2 ^ 32
    · have hlen := sendLength_of_ge (by omega) hneg
      exact not_transmits_first (by omega) (by omega) hall
    by_cases hzero : data.length = 2 ^ 32
    · have hlen : sendLength data.length = 0 := by rw [hzero, sendLength_pow]
      exact not_transmits_first (by omega) (by omega) hall
    -- the first call asks for what is beyond `2^32` bytes, the second for nothing
    obtain ⟨k, hk⟩ : ∃ k, data.length = k + 2 ^ 32 := ⟨data.length - 2 ^ 32, by omega⟩
    have hlen : sendLength data.length = k := by
      rw [hk, sendLength_add]
      exact sendLength_of_lt (by omega)
    have hleft : data.length - (0 + k) = 2 ^ 32 := by omega
    have hloop : sendAll data 0 [.accepted k, .failed] =
        ([⟨0, k, .accepted k⟩, ⟨0 + k, 0, .failed⟩], some false) := by
      rw [sendAll_accepted (by omega), sendAll_failed (by omega), hleft, sendLength_pow,
        Nat.sub_zero, hlen]
    have htrans := hall [.accepted k, .failed] (by
      intro call hcall
      rw [hloop] at hcall
      rcases List.mem_cons.mp hcall with rfl | hcall
      · simp only [SendResult.possible, Nat.sub_zero, hlen, Bool.and_eq_true, decide_eq_true_eq]
        omega
      · obtain rfl := List.mem_singleton.mp hcall
        rfl)
    have hcalls := htrans.requests
    rw [hloop] at hcalls
    have hsecond := hcalls ⟨0 + k, 0, .failed⟩ (by simp)
    exact absurd hsecond.1 (Nat.not_succ_le_zero 0)
  · intro hlt results hans
    exact transmits_of_lt hlt hans

/-- Three bytes in two calls. -/
theorem send_all_transmits_three : Transmits [1, 2, 3] 0 [.accepted 2, .accepted 1] :=
  (send_all_transmits_iff [1, 2, 3] (by decide)).mpr (by decide) _ (by unfold Permitted; decide)

/-- A string of `2^31` bytes: the length asked for is `2^64 - 2^31`. -/
theorem send_all_overruns : ¬∀ data : Bytes, data.length ≤ 8 + (2 ^ 32 - 1) →
    ∀ results, Permitted data 0 results → Transmits data 0 results := by
  intro hall
  obtain ⟨data, hsize⟩ : ∃ data : Bytes, data.length = 2 ^ 31 :=
    ⟨List.replicate (2 ^ 31) 0, List.length_replicate⟩
  have hlen := sendLength_of_ge hsize.ge (by omega)
  exact not_transmits_first (by omega) (by omega) (hall data (by omega))

end PromiseDemo
