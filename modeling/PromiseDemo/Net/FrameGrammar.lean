import PromiseDemo.Net.Framing

/-!
# The frame grammar

The framing with lengths read as natural numbers, and where the code's 32-bit arithmetic keeps to
it: `try_decode_frame` on the one hand, the round trip through `encode_frame` on the other.
-/

namespace PromiseDemo

open PrefixCode

/-- The big-endian value of bytes 4 to 7. -/
def declaredLength (buffer : Bytes) : ℕ :=
  ((buffer.drop 4).take 4).foldl (fun n b => n * 256 + b.toNat) 0

/-- The grammar, as `try_decode_frame` promises to recognise it. -/
def MeetsGrammar (args : DecodeArgs) : Prop :=
  if 8 ≤ args.buffer.length ∧ 8 + declaredLength args.buffer ≤ args.buffer.length then
    ∃ args', tryDecodeFrame args = (true, args') ∧
      args'.payload.length = declaredLength args.buffer ∧
      encodeFrame args'.id args'.payload ++ args'.buffer = args.buffer
  else tryDecodeFrame args = (false, args)

/-- What `encode_frame` writes, `try_decode_frame` reads back. -/
def RoundTrips (id : UInt32) (payload : Bytes) : Prop :=
  (∀ t args, args.buffer = encodeFrame id payload ++ t →
    tryDecodeFrame args = (true, ⟨t, id, payload⟩)) ∧
  ∀ args, args.buffer <+: encodeFrame id payload → args.buffer ≠ encodeFrame id payload →
    (tryDecodeFrame args).1 = false

/-- Every frame that begins in these bytes declares a length below `bound`; the last one may be
incomplete. -/
inductive Declares (bound : ℕ) : Bytes → Prop
  | header {b : Bytes} (h8 : b.length < 8) : Declares bound b
  | incomplete {b : Bytes} (h8 : 8 ≤ b.length) (hb : declaredLength b < bound)
      (hlen : b.length < 8 + declaredLength b) : Declares bound b
  | frame {b : Bytes} (h8 : 8 ≤ b.length) (hb : declaredLength b < bound)
      (hlen : 8 + declaredLength b ≤ b.length)
      (hrest : Declares bound (b.drop (8 + declaredLength b))) : Declares bound b

/-- The complete frames that begin a byte string; the fuel bounds their number. -/
def framesWithin : ℕ → Bytes → List Frame
  | 0, _ => []
  | fuel + 1, b =>
      if 8 ≤ b.length ∧ 8 + declaredLength b ≤ b.length then
        ⟨getU32 b 0, (b.drop 8).take (declaredLength b)⟩ ::
          framesWithin fuel (b.drop (8 + declaredLength b))
      else []

/-- The complete frames that begin a byte string: none is without a byte. -/
def completeFrames (b : Bytes) : List Frame := framesWithin b.length b

/-! ## Headers -/

theorem exists_field {b : Bytes} {pos : ℕ} (h : pos + 4 ≤ b.length) :
    ∃ pre b₀ b₁ b₂ b₃ t, b = pre ++ b₀ :: b₁ :: b₂ :: b₃ :: t ∧ pre.length = pos := by
  have hsplit : b = b.take pos ++ b.drop pos := (List.take_append_drop pos b).symm
  have hpre : (b.take pos).length = pos := by
    rw [List.length_take]
    omega
  have hlen : 4 ≤ (b.drop pos).length := by
    rw [List.length_drop]
    omega
  match hd : b.drop pos with
  | b₀ :: b₁ :: b₂ :: b₃ :: t => exact ⟨b.take pos, b₀, b₁, b₂, b₃, t, hd ▸ hsplit, hpre⟩
  | [] | [_] | [_, _] | [_, _, _] => simp [hd] at hlen

theorem putU32_append (out : Bytes) (v : UInt32) : putU32 out v = out ++ putU32 [] v := rfl

theorem putU32_getU32 {b : Bytes} {pos : ℕ} (h : pos + 4 ≤ b.length) :
    putU32 [] (getU32 b pos) = (b.drop pos).take 4 := by
  obtain ⟨pre, b₀, b₁, b₂, b₃, t, rfl, rfl⟩ := exists_field h
  have hv := getU32_toNat b₀ b₁ b₂ b₃ pre t
  generalize getU32 (pre ++ b₀ :: b₁ :: b₂ :: b₃ :: t) pre.length = v at hv
  have h₀ := b₀.toNat_lt
  have h₁ := b₁.toNat_lt
  have h₂ := b₂.toNat_lt
  have h₃ := b₃.toNat_lt
  have byte : ∀ {c : UInt8} {w : UInt32}, w.toNat % 256 = c.toNat → (w &&& 0xFF).toUInt8 = c := by
    intro c w hw
    apply UInt8.toNat_inj.mp
    rw [toNat_byte, hw]
  have shift : ∀ k < 32, (v >>> UInt32.ofNat k).toNat = v.toNat / 2 ^ k := by
    intro k hk
    rw [UInt32.toNat_shiftRight, UInt32.toNat_ofNat', Nat.mod_eq_of_lt (a := k) (by omega),
      Nat.mod_eq_of_lt hk, Nat.shiftRight_eq_div_pow]
  have s₀ : (v >>> 24).toNat = v.toNat / 2 ^ 24 := shift 24 (by decide)
  have s₁ : (v >>> 16).toNat = v.toNat / 2 ^ 16 := shift 16 (by decide)
  have s₂ : (v >>> 8).toNat = v.toNat / 2 ^ 8 := shift 8 (by decide)
  rw [List.drop_left' rfl, putU32]
  have c₀ : (v >>> 24 &&& 0xFF).toUInt8 = b₀ := byte (by rw [s₀]; omega)
  have c₁ : (v >>> 16 &&& 0xFF).toUInt8 = b₁ := byte (by rw [s₁]; omega)
  have c₂ : (v >>> 8 &&& 0xFF).toUInt8 = b₂ := byte (by rw [s₂]; omega)
  have c₃ : (v &&& 0xFF).toUInt8 = b₃ := byte (by omega)
  rw [c₀, c₁, c₂, c₃]
  rfl

theorem declaredLength_eq {b : Bytes} (h : 8 ≤ b.length) :
    declaredLength b = (getU32 b 4).toNat := by
  obtain ⟨pre, b₀, b₁, b₂, b₃, t, rfl, hpre⟩ := @exists_field b 4 (by omega)
  have hv := getU32_toNat b₀ b₁ b₂ b₃ pre t
  rw [hpre] at hv
  rw [hv, declaredLength, List.drop_left' hpre]
  simp only [List.take_succ_cons, List.take_zero, List.foldl_cons, List.foldl_nil]
  omega

theorem encodeFrame_front {b : Bytes} (h8 : 8 ≤ b.length)
    (hlen : 8 + declaredLength b ≤ b.length) :
    encodeFrame (getU32 b 0) ((b.drop 8).take (declaredLength b)) ++
      b.drop (8 + declaredLength b) = b := by
  have hsize : ((b.drop 8).take (declaredLength b)).length = declaredLength b := by
    rw [List.length_take, List.length_drop]
    omega
  have hfield : UInt32.ofNat (declaredLength b) = getU32 b 4 := by
    rw [declaredLength_eq h8, UInt32.ofNat_toNat]
  have hhead : b.take 8 = b.take 4 ++ (b.drop 4).take 4 := List.take_add (i := 4) (j := 4)
  rw [encodeFrame, hsize, hfield, putU32_append, putU32_getU32 (by omega), putU32_getU32 (by omega),
    List.drop_zero, ← hhead, List.append_assoc, ← List.drop_drop, List.take_append_drop,
    List.take_append_drop]

/-! ## Decoding -/

theorem declaredLength_lt {b : Bytes} (h : 8 ≤ b.length) : declaredLength b < 2 ^ 32 := by
  rw [declaredLength_eq h]
  exact (getU32 b 4).toNat_lt

theorem sum_toNat {b : Bytes} (h : 8 ≤ b.length) :
    (8 + getU32 b 4).toNat = (8 + declaredLength b) % 2 ^ 32 := by
  rw [UInt32.toNat_add, declaredLength_eq h]
  rfl

theorem tryDecodeFrame_complete {args : DecodeArgs} (h8 : 8 ≤ args.buffer.length)
    (hsmall : declaredLength args.buffer < 2 ^ 32 - 8)
    (hlen : 8 + declaredLength args.buffer ≤ args.buffer.length) :
    tryDecodeFrame args = (true, ⟨args.buffer.drop (8 + declaredLength args.buffer),
      getU32 args.buffer 0, (args.buffer.drop 8).take (declaredLength args.buffer)⟩) := by
  have hsum : (8 + getU32 args.buffer 4).toNat = 8 + declaredLength args.buffer := by
    rw [sum_toNat h8, Nat.mod_eq_of_lt (by omega)]
  rw [tryDecodeFrame, if_neg (by omega)]
  simp only [hsum, ← declaredLength_eq h8]
  rw [if_neg (by omega)]

theorem tryDecodeFrame_waits {args : DecodeArgs}
    (hsmall : args.buffer.length < 8 ∨ declaredLength args.buffer < 2 ^ 32 - 8)
    (hlen : args.buffer.length < 8 + declaredLength args.buffer ∨ args.buffer.length < 8) :
    tryDecodeFrame args = (false, args) := by
  rw [tryDecodeFrame]
  split
  · rfl
  · rename_i h8
    have hsum : (8 + getU32 args.buffer 4).toNat = 8 + declaredLength args.buffer := by
      rw [sum_toNat (by omega), Nat.mod_eq_of_lt (by omega)]
    simp only [hsum]
    rw [if_pos (by omega)]

/-- From `2^32 - 8` on the sum wraps: the test always passes, and fewer than eight bytes go. -/
theorem tryDecodeFrame_wraps {args : DecodeArgs} (h8 : 8 ≤ args.buffer.length)
    (hlarge : 2 ^ 32 - 8 ≤ declaredLength args.buffer) :
    ∃ args', tryDecodeFrame args = (true, args') ∧
      args.buffer.length < args'.buffer.length + 8 := by
  have hlt := declaredLength_lt h8
  have hsum : (8 + getU32 args.buffer 4).toNat < 8 := by
    rw [sum_toNat h8]
    omega
  refine ⟨⟨args.buffer.drop (8 + getU32 args.buffer 4).toNat, getU32 args.buffer 0,
    (args.buffer.drop 8).take (getU32 args.buffer 4).toNat⟩, ?_, ?_⟩
  · rw [tryDecodeFrame, if_neg (by omega)]
    dsimp only
    rw [if_neg (by omega)]
  · rw [List.length_drop]
    omega

theorem not_meetsGrammar {args : DecodeArgs} (h8 : 8 ≤ args.buffer.length)
    (hlarge : 2 ^ 32 - 8 ≤ declaredLength args.buffer) : ¬MeetsGrammar args := by
  intro hg
  obtain ⟨out, hdecode, hout⟩ := tryDecodeFrame_wraps h8 hlarge
  rw [MeetsGrammar, hdecode] at hg
  split at hg
  · -- what is left of the buffer is too long
    obtain ⟨args', he, hpayload, hall⟩ := hg
    obtain ⟨-, rfl⟩ := Prod.mk.inj he
    have hsize := congrArg List.length hall
    rw [List.length_append, encodeFrame_length, hpayload] at hsize
    omega
  · exact Bool.noConfusion (Prod.mk.inj hg).1

/-- `try_decode_frame` recognises the grammar and loses no byte, exactly when no header is there
or the length it declares is below `2^32 - 8`. -/
theorem decode_meets_grammar_iff (args : DecodeArgs) :
    MeetsGrammar args ↔
      args.buffer.length < 8 ∨ declaredLength args.buffer < 2 ^ 32 - 8 := by
  constructor
  · intro hg
    by_contra hcond
    rw [not_or, not_lt, not_lt] at hcond
    exact not_meetsGrammar hcond.1 hcond.2 hg
  · intro hcond
    rw [MeetsGrammar]
    split
    · rename_i hlen
      have hsmall := hcond.resolve_left (by omega)
      refine ⟨_, tryDecodeFrame_complete hlen.1 hsmall hlen.2, ?_, ?_⟩
      · rw [List.length_take, List.length_drop]
        omega
      · exact encodeFrame_front hlen.1 hlen.2
    · exact tryDecodeFrame_waits hcond (by omega)

/-- The header that declares `2^32 - 8` bytes passes for a frame. -/
theorem decode_length_wraps : ¬∀ args, MeetsGrammar args := by
  intro hall
  exact not_meetsGrammar (by decide) (by decide)
    (hall { buffer := [0, 0, 0, 1, 0xFF, 0xFF, 0xFF, 0xF8] })

/-! ## The round trip -/

theorem declaredLength_encodeFrame (id : UInt32) (payload t : Bytes) :
    declaredLength (encodeFrame id payload ++ t) = payload.length % 2 ^ 32 := by
  have h8 : 8 ≤ (encodeFrame id payload ++ t).length := by
    rw [List.length_append, encodeFrame_length]
    omega
  rw [declaredLength_eq h8, getU32_encodeFrame_length, UInt32.toNat_ofNat']

theorem not_roundTrips (id : UInt32) {payload : Bytes} (hlarge : 2 ^ 32 - 8 ≤ payload.length) :
    ¬RoundTrips id payload := by
  intro htrip
  have hdecode := htrip.1 [] { buffer := encodeFrame id payload } (List.append_nil _).symm
  have hdeclared := declaredLength_encodeFrame id payload []
  have hsize := encodeFrame_length id payload
  rw [List.append_nil] at hdeclared
  by_cases hsmall : payload.length % 2 ^ 32 < 2 ^ 32 - 8
  · -- the payload is cut off
    have hfits : 8 + declaredLength (encodeFrame id payload) ≤ (encodeFrame id payload).length := by
      rw [hdeclared, hsize]
      omega
    rw [tryDecodeFrame_complete (by simp) (hdeclared ▸ hsmall) hfits] at hdecode
    have hlen := congrArg (fun q => q.2.payload.length) hdecode
    simp only [List.length_take, hdeclared] at hlen
    omega
  · -- bytes are left over
    have hwraps : 2 ^ 32 - 8 ≤ declaredLength (encodeFrame id payload) := by
      rw [hdeclared]
      omega
    have h8 : 8 ≤ (encodeFrame id payload).length := by
      rw [hsize]
      omega
    obtain ⟨out, hout, hleft⟩ := @tryDecodeFrame_wraps { buffer := encodeFrame id payload } h8 hwraps
    rw [hout] at hdecode
    obtain ⟨-, rfl⟩ := Prod.mk.inj hdecode
    rw [List.length_nil, hsize] at hleft
    omega

/-- Decoding undoes encoding exactly for payloads below `2^32 - 8` bytes. -/
theorem round_trips_iff (id : UInt32) (payload : Bytes) :
    RoundTrips id payload ↔ payload.length < 2 ^ 32 - 8 := by
  constructor
  · intro htrip
    by_contra hlarge
    exact not_roundTrips id (by omega) htrip
  · intro hsmall
    refine ⟨?_, ?_⟩
    · intro t args hbuf
      exact tryDecodeFrame_encodeFrame id payload t args (by omega) hbuf
    · intro args hpre hne
      rw [tryDecodeFrame_incomplete id payload args (by omega) hpre hne]

theorem long_payload_lost : ¬∀ id payload, RoundTrips id payload := by
  intro hall
  have hlen : (List.replicate (2 ^ 32 - 8) (0 : UInt8)).length = 2 ^ 32 - 8 :=
    List.length_replicate
  exact not_roundTrips 1 hlen.ge (hall 1 (List.replicate (2 ^ 32 - 8) 0))

/-! ## Streams of frames -/

theorem Declares.mono {bound bound' : ℕ} {b : Bytes} (hd : Declares bound b) (hle : bound ≤ bound') :
    Declares bound' b := by
  induction hd with
  | header h8 => exact .header h8
  | incomplete h8 hb hlen => exact .incomplete h8 (by omega) hlen
  | frame h8 hb hlen _ ih => exact .frame h8 (by omega) hlen ih

theorem nextFrame_complete {b : Bytes} (h8 : 8 ≤ b.length) (hb : declaredLength b < 2 ^ 32 - 8)
    (hlen : 8 + declaredLength b ≤ b.length) :
    nextFrame b = some (⟨getU32 b 0, (b.drop 8).take (declaredLength b)⟩,
      b.drop (8 + declaredLength b)) :=
  nextFrame_eq_some.mpr (@tryDecodeFrame_complete { buffer := b } h8 hb hlen)

theorem nextFrame_waits {b : Bytes} (hb : b.length < 8 ∨ declaredLength b < 2 ^ 32 - 8)
    (hlen : b.length < 8 + declaredLength b ∨ b.length < 8) : nextFrame b = none := by
  rw [nextFrame_eq_none, @tryDecodeFrame_waits { buffer := b } hb hlen]

/-- A decode from a buffer in the format takes its first frame and leaves a buffer in the format. -/
theorem Declares.next {bound : ℕ} {b r : Bytes} {f : Frame} (hd : Declares bound b)
    (hbound : bound ≤ 2 ^ 32 - 8) (hn : nextFrame b = some (f, r)) :
    Declares bound r ∧ f.payload.length < bound ∧ r.length + (8 + f.payload.length) = b.length := by
  cases hd with
  | header h8 =>
    rw [nextFrame_waits (.inl h8) (.inr h8)] at hn
    cases hn
  | incomplete h8 hb hlen =>
    rw [nextFrame_waits (.inr (by omega)) (.inl hlen)] at hn
    cases hn
  | frame h8 hb hlen hrest =>
    rw [nextFrame_complete h8 (by omega) hlen] at hn
    obtain ⟨hf, hr⟩ := Prod.mk.inj (Option.some.inj hn)
    have hsize : f.payload.length = declaredLength b := by
      rw [← hf, List.length_take, List.length_drop]
      omega
    have hleft : r.length = b.length - (8 + declaredLength b) := by rw [← hr, List.length_drop]
    exact ⟨hr ▸ hrest, by omega, by omega⟩

/-- A header that does not declare too much begins a frame. -/
theorem exists_frame {b : Bytes} (h8 : 8 ≤ b.length) (hb : declaredLength b < 2 ^ 32 - 8)
    (hlen : b.length ≤ 8 + declaredLength b) :
    ∃ f, frameCode.Valid f ∧ b <+: frameCode.encode f := by
  obtain ⟨pad, hpad⟩ : ∃ pad, pad = List.replicate (8 + declaredLength b - b.length) (0 : UInt8) :=
    ⟨_, rfl⟩
  have hsize : (b ++ pad).length = 8 + declaredLength b := by
    rw [List.length_append, hpad, List.length_replicate]
    omega
  have hsame : declaredLength (b ++ pad) = declaredLength b := by
    rw [declaredLength_eq (by omega), declaredLength_eq h8, getU32_append _ _ _ (by omega)]
  have hfront := encodeFrame_front (b := b ++ pad) (by omega) (by omega)
  refine ⟨⟨getU32 (b ++ pad) 0, ((b ++ pad).drop 8).take (declaredLength (b ++ pad))⟩, ?_, ?_⟩
  · have hle : (((b ++ pad).drop 8).take (declaredLength (b ++ pad))).length ≤ 2 ^ 32 - 9 := by
      rw [List.length_take]
      omega
    exact hle
  · have hnone : (b ++ pad).drop (8 + declaredLength (b ++ pad)) = [] :=
      List.drop_of_length_le (by omega)
    rw [hnone, List.append_nil] at hfront
    rw [frameCode_encode, hfront]
    exact List.prefix_append _ _

theorem short_header {b : Bytes} (h8 : b.length < 8) :
    ∃ f, frameCode.Valid f ∧ b <+: frameCode.encode f := by
  -- a last length byte of zero keeps the length small
  obtain ⟨pad, hpad⟩ : ∃ pad, pad = List.replicate (7 - b.length) (0 : UInt8) := ⟨_, rfl⟩
  have hsize : (b ++ pad ++ [0]).length = 8 := by
    rw [List.length_append, List.length_append, hpad, List.length_replicate, List.length_singleton]
    omega
  have hsmall : declaredLength (b ++ pad ++ [0]) < 2 ^ 32 - 8 := by
    obtain ⟨pre, b₀, b₁, b₂, b₃, t, he, hpre⟩ := @exists_field (b ++ pad ++ [0]) 4 hsize.ge
    have hlast : t = [] ∧ b₃ = 0 := by
      have hlen := congrArg List.length he
      rw [hsize] at hlen
      simp only [List.length_append, List.length_cons] at hlen
      have ht : t = [] := List.eq_nil_of_length_eq_zero (by omega)
      rw [ht] at he
      have hend := congrArg List.getLast? he
      simp at hend
      exact ⟨ht, hend.symm⟩
    have hv := getU32_toNat b₀ b₁ b₂ b₃ pre t
    rw [hpre, ← he] at hv
    rw [declaredLength_eq hsize.ge, hv, hlast.2]
    have h₀ := b₀.toNat_lt
    have h₁ := b₁.toNat_lt
    have h₂ := b₂.toNat_lt
    have hzero : (0 : UInt8).toNat = 0 := rfl
    omega
  obtain ⟨f, hf, hfront⟩ := exists_frame hsize.ge hsmall (by omega)
  refine ⟨f, hf, List.IsPrefix.trans ?_ hfront⟩
  rw [List.append_assoc]
  exact List.prefix_append _ _

theorem Declares.exists_frames {b : Bytes} (hd : Declares (2 ^ 32 - 8) b) :
    ∃ fs, frameCode.AllValid fs ∧ b <+: frameCode.encodeAll fs := by
  induction hd with
  | header h8 =>
    obtain ⟨f, hf, hfront⟩ := short_header h8
    exact ⟨[f], by simpa [Code.AllValid] using hf, by simpa using hfront⟩
  | incomplete h8 hb hlen =>
    obtain ⟨f, hf, hfront⟩ := exists_frame h8 hb hlen.le
    exact ⟨[f], by simpa [Code.AllValid] using hf, by simpa using hfront⟩
  | @frame b h8 hb hlen _ ih =>
    obtain ⟨fs, hfs, hfront⟩ := ih
    have hsize : ((b.drop 8).take (declaredLength b)).length ≤ 2 ^ 32 - 9 := by
      rw [List.length_take]
      omega
    refine ⟨⟨getU32 b 0, (b.drop 8).take (declaredLength b)⟩ :: fs, ?_, ?_⟩
    · intro f hf
      rcases List.mem_cons.mp hf with rfl | hf
      · exact hsize
      · exact hfs f hf
    · rw [Code.encodeAll_cons, frameCode_encode]
      nth_rewrite 1 [← encodeFrame_front h8 hlen]
      exact (List.prefix_append_right_inj _).mpr hfront

theorem completeFrames_of_none {b : Bytes} (hn : nextFrame b = none) : completeFrames b = [] := by
  have hshort : ¬(8 ≤ b.length ∧ 8 + declaredLength b ≤ b.length) := by
    rintro ⟨h8, hlen⟩
    by_cases hb : declaredLength b < 2 ^ 32 - 8
    · rw [nextFrame_complete h8 hb hlen] at hn
      cases hn
    · obtain ⟨args', hdecode, -⟩ := @tryDecodeFrame_wraps { buffer := b } h8 (not_lt.mp hb)
      rw [nextFrame_eq_none, hdecode] at hn
      cases hn
  rw [completeFrames]
  cases b.length with
  | zero => rfl
  | succ fuel => rw [framesWithin, if_neg hshort]

theorem framesWithin_eq {b r : Bytes} {fs : List Frame} {fuel : ℕ} (hd : Declares (2 ^ 32 - 8) b)
    (hb : b = frameCode.encodeAll fs ++ r) (hv : frameCode.AllValid fs) (hn : nextFrame r = none)
    (hfuel : b.length ≤ fuel) : framesWithin fuel b = fs := by
  induction fs generalizing b fuel with
  | nil =>
    rw [Code.encodeAll_nil, List.nil_append] at hb
    cases fuel with
    | zero => rfl
    | succ fuel =>
      rw [framesWithin, if_neg]
      rintro ⟨h8, hlen⟩
      cases hd with
      | header h8' => omega
      | incomplete _ _ hlen' => omega
      | frame _ hsmall _ _ =>
        rw [← hb, nextFrame_complete h8 hsmall hlen] at hn
        cases hn
  | cons f fs ih =>
    have hf : f.payload.length ≤ 2 ^ 32 - 9 := hv f (List.mem_cons_self ..)
    rw [Code.encodeAll_cons, frameCode_encode, List.append_assoc] at hb
    have hdeclared : declaredLength b = f.payload.length := by
      rw [hb, declaredLength_encodeFrame, Nat.mod_eq_of_lt (by omega)]
    have hlen : b.length = 8 + f.payload.length + (frameCode.encodeAll fs ++ r).length := by
      rw [hb, List.length_append, encodeFrame_length]
    have hnext := frameCode.decode_encode f (frameCode.encodeAll fs ++ r) hf
    rw [frameCode_encode, ← hb, frameCode_decode,
      nextFrame_complete (by omega) (by omega) (by omega)] at hnext
    obtain ⟨hhead, hrest⟩ := Prod.mk.inj (Option.some.inj hnext)
    cases fuel with
    | zero => omega
    | succ fuel =>
      have hd' : Declares (2 ^ 32 - 8) (b.drop (8 + declaredLength b)) := by
        cases hd with
        | header h8 => omega
        | incomplete _ _ hshort => omega
        | frame _ _ _ hrest' => exact hrest'
      have hshort : (b.drop (8 + declaredLength b)).length ≤ fuel := by
        rw [List.length_drop]
        omega
      rw [framesWithin, if_pos ⟨by omega, by omega⟩, hhead,
        ih hd' hrest (fun g hg => hv g (List.mem_cons_of_mem _ hg)) hshort]

theorem decoded_eq_completeFrames {received buffer : Bytes} {decoded : List Frame}
    (hr : frameCode.Reassembled received decoded buffer) (hd : Declares (2 ^ 32 - 8) received)
    (hn : nextFrame buffer = none) : decoded = completeFrames received := by
  obtain ⟨fs, hfs, hfront⟩ := hd.exists_frames
  obtain ⟨hsplit, hdecoded⟩ := hr fs hfs hfront
  exact (framesWithin_eq hd hsplit (hfs.of_prefix hdecoded) hn le_rfl).symm

end PromiseDemo
