import PromiseDemo.Net.Framing

/-!
# Blocking socket calls

The answers of the operating system to `::recv` and `::send`, and one iteration of the loop of
`send_all`.  Which answer is given is the environment's choice.
-/

namespace PromiseDemo

/-- The result of `recv_some`: a chunk was appended, or `recv` returned 0 or an error. -/
inductive RecvResult
  | data (chunk : Bytes)
  | failed
  deriving DecidableEq, Repr

/-- `recv_some` reads into a 4096-byte array. -/
def recvLimit : ℕ := 4096

/-- A positive `recv` result lies between 1 and the size of the array. -/
def RecvResult.possible : RecvResult → Bool
  | .data chunk => 0 < chunk.length && chunk.length ≤ recvLimit
  | .failed => true

/-- The result of `::send`: a positive count, or 0 or an error. -/
inductive SendResult
  | accepted (n : ℕ)
  | failed
  deriving DecidableEq, Repr

/-- The length argument of `::send`: the `size_t` remaining size cast to `int` and converted
back to `size_t`. -/
def sendLength (remaining : ℕ) : ℕ := ((BitVec.ofNat 32 remaining).signExtend 64).toNat

/-- A positive `int` result of `::send` is at most the length it was given. -/
def SendResult.possible (remaining : ℕ) : SendResult → Bool
  | .accepted n => 0 < n && n ≤ sendLength remaining && n < 2 ^ 31
  | .failed => true

/-- One `::send` of `send_all(s, data)` after `sent` bytes: the bytes put on the wire and the new
value of `sent`, `none` where `send_all` returns false. -/
def sendCall (data : Bytes) (sent : ℕ) : SendResult → Bytes × Option ℕ
  | .accepted n => ((data.drop sent).take n, some (sent + n))
  | .failed => ([], none)

theorem sendLength_of_lt {n : ℕ} (h : n < 2 ^ 31) : sendLength n = n := by
  have hmsb : (BitVec.ofNat 32 n).msb = false := by
    rw [BitVec.msb_eq_decide]
    simp only [BitVec.toNat_ofNat, decide_eq_false_iff_not]
    rw [Nat.mod_eq_of_lt (by omega)]
    omega
  rw [sendLength, BitVec.signExtend_eq_setWidth_of_msb_false hmsb]
  simp only [BitVec.toNat_setWidth, BitVec.toNat_ofNat]
  omega

theorem accepted_le {n remaining : ℕ} (hsize : remaining < 2 ^ 31)
    (h : (SendResult.accepted n).possible remaining = true) : 0 < n ∧ n ≤ remaining := by
  simp only [SendResult.possible, sendLength_of_lt hsize, Bool.and_eq_true, decide_eq_true_eq] at h
  exact ⟨h.1.1, h.1.2⟩

/-- Accepted bytes move from what is left of the data to what has been sent. -/
theorem accepted_stream {front data rest stream : Bytes} {sent : ℕ} (n : ℕ)
    (h : front ++ (data.drop sent ++ rest) = stream) :
    front ++ (data.drop sent).take n ++ (data.drop (sent + n) ++ rest) = stream := by
  have hsplit : (data.drop sent).take n ++ data.drop (sent + n) = data.drop sent := by
    rw [← List.drop_drop, List.take_append_drop]
  rw [← h, List.append_assoc, ← List.append_assoc (List.take n _), hsplit]

end PromiseDemo
