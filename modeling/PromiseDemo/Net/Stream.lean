import PromiseDemo.Net.Framing

/-!
# Reading frames from a chunked byte stream

Every reader of the demo appends what arrives to a read buffer and then takes off complete
frames.  Here this is a loop over a given list of chunks; what the loop obtains does not depend
on where the stream was cut.
-/

namespace PromiseDemo

open PrefixCode

/-- `while (try_decode_frame(buffer, id, payload))`, collecting the frames.  The fuel bounds the
number of evaluations of the test; `none` means that the loop has not ended by then. -/
def drainLoop : ℕ → DecodeArgs → Option (List Frame × DecodeArgs)
  | 0, _ => none
  | fuel + 1, args =>
      match tryDecodeFrame args with
      | (false, args) => some ([], args)
      | (true, args) =>
          (drainLoop fuel args).map fun q => (⟨args.id, args.payload⟩ :: q.1, q.2)

/-- Append each chunk to the read buffer and run the drain loop after it. -/
def readChunks (fuel : ℕ) : Bytes → List Bytes → Option (List Frame × Bytes)
  | buffer, [] => some ([], buffer)
  | buffer, chunk :: chunks =>
      (drainLoop fuel { buffer := buffer ++ chunk }).bind fun r =>
        (readChunks fuel r.2.buffer chunks).map fun q => (r.1 ++ q.1, q.2)

theorem tryDecodeFrame_of_nextFrame {args : DecodeArgs} {f : Frame} {r : Bytes}
    (h : nextFrame args.buffer = some (f, r)) :
    tryDecodeFrame args = (true, ⟨r, f.id, f.payload⟩) := by
  rw [nextFrame_eq_some] at h
  rw [← h]
  unfold tryDecodeFrame at h ⊢
  split at h
  · cases h
  · rename_i h8
    rw [if_neg h8, if_neg h8]
    dsimp only at h ⊢
    split at h
    · cases h
    · rename_i hl
      rw [if_neg hl, if_neg hl]

theorem tryDecodeFrame_of_nextFrame_none {args : DecodeArgs} (h : nextFrame args.buffer = none) :
    tryDecodeFrame args = (false, args) := by
  rw [nextFrame_eq] at h
  unfold tryDecodeFrame
  split
  · rfl
  · dsimp only
    split
    · rfl
    · rw [if_pos (by omega)] at h
      cases h

/-- The loop with its reference parameters is the drain loop of the framing code. -/
theorem drainLoop_eq_drain (fuel : ℕ) (args : DecodeArgs) :
    (drainLoop fuel args).map (fun q => (q.1, q.2.buffer)) = drain nextFrame fuel args.buffer := by
  induction fuel generalizing args with
  | zero => rfl
  | succ fuel ih =>
    cases hn : nextFrame args.buffer with
    | none =>
      simp only [drainLoop, drain, hn, tryDecodeFrame_of_nextFrame_none hn, Option.map_some]
    | some q =>
      obtain ⟨f, r⟩ := q
      have hrest := ih ⟨r, f.id, f.payload⟩
      simp only [drainLoop, drain, hn, tryDecodeFrame_of_nextFrame hn, Option.map_map, ← hrest]
      rfl

theorem readChunks_eq_feed (fuel : ℕ) (buffer : Bytes) (chunks : List Bytes) :
    readChunks fuel buffer chunks = feed nextFrame fuel buffer chunks := by
  induction chunks generalizing buffer with
  | nil => rfl
  | cons chunk chunks ih =>
    have hd := drainLoop_eq_drain fuel { buffer := buffer ++ chunk }
    rw [readChunks, feed, ← hd, Option.bind_map]
    congr 1
    funext q
    simp only [Function.comp_apply, ih]

/-- Chunk-independent framing.  However the bytes of `frames` and of an incomplete further frame
are cut into chunks, the loop ends and yields `frames`, each once and in order; after any number
of chunks it has yielded exactly the frames that lie wholly in them and keeps the other bytes. -/
theorem readChunks_frames (frames : List Frame) (last : Frame) (tail : Bytes)
    (chunks : List Bytes) (fuel : ℕ) (hframes : ∀ f ∈ frames, f.payload.length ≤ 2 ^ 32 - 9)
    (hlast : last.payload.length ≤ 2 ^ 32 - 9) (htail : tail <+: encodeFrame last.id last.payload)
    (hinc : tail ≠ encodeFrame last.id last.payload)
    (hcut : chunks.flatten = frameCode.encodeAll frames ++ tail) (hfuel : chunks.flatten.length < fuel) :
    readChunks fuel [] chunks = some (frames, tail) ∧
      ∀ j, ∃ k rest, readChunks fuel [] (chunks.take j) = some (frames.take k, rest) ∧
        (chunks.take j).flatten = frameCode.encodeAll (frames.take k) ++ rest ∧
        ∀ m, (frameCode.encodeAll (frames.take m)).length ≤ (chunks.take j).flatten.length →
          frames.take m <+: frames.take k := by
  have hv : frameCode.AllValid (frames ++ [last]) := by
    intro f hf
    rcases List.mem_append.mp hf with hf | hf
    · exact hframes f hf
    · rw [List.mem_singleton.mp hf]; exact hlast
  have hnone : nextFrame tail = none := frameCode.decode_short last tail hlast htail hinc
  have hstream : frameCode.encodeAll frames ++ tail <+: frameCode.encodeAll (frames ++ [last]) := by
    rw [PrefixCode.Code.encodeAll_append, List.prefix_append_right_inj]
    simpa using htail
  -- every front of the chunks yields a front of the frames that it wholly contains
  have front : ∀ cs : List Bytes, cs.flatten <+: chunks.flatten → ∃ ds rest,
      readChunks fuel [] cs = some (ds, rest) ∧ cs.flatten = frameCode.encodeAll ds ++ rest ∧
        ds <+: frames ∧ nextFrame rest = none := by
    intro cs hcs
    have hp : cs.flatten <+: frameCode.encodeAll (frames ++ [last]) :=
      (hcs.trans (hcut ▸ List.prefix_rfl)).trans hstream
    obtain ⟨ds, rest, hfeed, hbytes, hds, hrest⟩ :=
      feed_spec (b := []) hv hp frameCode.decode_nil (lt_of_le_of_lt hcs.length_le hfuel)
    refine ⟨ds, rest, by rw [readChunks_eq_feed]; exact hfeed, hbytes, ?_, hrest⟩
    rw [List.nil_append] at hbytes
    have hlen : (frameCode.encodeAll ds).length ≤ (frameCode.encodeAll frames ++ tail).length := by
      have := hcs.length_le
      rw [hbytes, hcut, List.length_append] at this
      omega
    exact drained_maximal hv hstream (List.prefix_append _ _) hnone hds hlen
  refine ⟨?_, ?_⟩
  · obtain ⟨ds, rest, hread, hbytes, hds, hrest⟩ := front chunks List.prefix_rfl
    rw [hcut] at hbytes
    have hall : frames <+: ds :=
      drained_maximal hv (hbytes ▸ hstream) (hds.trans (List.prefix_append _ _)) hrest
        (List.prefix_append _ _) (by rw [← hbytes, List.length_append]; omega)
    obtain rfl := hds.eq_of_length_le hall.length_le
    rw [List.append_cancel_left_eq] at hbytes
    rw [hread, hbytes]
  · intro j
    obtain ⟨ds, rest, hread, hbytes, hds, hrest⟩ :=
      front (chunks.take j) ((List.take_prefix j chunks).flatten)
    have htake : ds = frames.take ds.length := List.prefix_iff_eq_take.mp hds
    refine ⟨ds.length, rest, by rw [← htake]; exact hread, by rw [← htake]; exact hbytes, ?_⟩
    intro m hm
    have hp : frameCode.encodeAll ds ++ rest <+: frameCode.encodeAll (frames ++ [last]) := by
      rw [← hbytes]
      exact ((List.take_prefix j chunks).flatten.trans (hcut ▸ List.prefix_rfl)).trans hstream
    rw [← htake]
    exact drained_maximal hv hp (hds.trans (List.prefix_append _ _)) hrest
      ((List.take_prefix m frames).trans (List.prefix_append _ _)) (hbytes ▸ hm)

/-- Two frames, the second empty, and three bytes of a third, cut inside a header. -/
theorem readChunks_frames_cut :
    readChunks 100 [] [[0, 0, 0, 1, 0], [0, 0, 1, 7, 0, 0, 0, 2, 0, 0, 0, 0, 0], [0, 0]] =
      some ([⟨1, [7]⟩, ⟨2, []⟩], [0, 0, 0]) :=
  (readChunks_frames [⟨1, [7]⟩, ⟨2, []⟩] ⟨3, []⟩ [0, 0, 0]
    [[0, 0, 0, 1, 0], [0, 0, 1, 7, 0, 0, 0, 2, 0, 0, 0, 0, 0], [0, 0]] 100
    (by decide) (by decide) (by decide) (by decide) (by decide) (by decide)).1

end PromiseDemo
