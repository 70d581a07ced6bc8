import PromiseDemo.MsgPack.Accepted

/-!
# Reading a stream of objects

`unpacker` keeps what has arrived and not been parsed, and `next` takes one object off it.  Both
ends of a connection read theirs in a loop `while (pac_.next(result))` after every chunk that
the socket delivers.
-/

namespace PromiseDemo.MsgPack

open Resumable PrefixCode

/-- `unpacker`, with the bytes of its buffer between `m_off` and `m_used`. -/
structure Unpacker where
  context : Context
  unparsed : Bytes
  deriving Repr

/-- What a call of `next` does; `parseError` is the exception. -/
inductive Next
  | object (o : Object) (u : Unpacker)
  | incomplete (u : Unpacker)
  | parseError

namespace Unpacker

def init : Unpacker := ⟨.init, []⟩

/-- `buffer_consumed`: a chunk has been written behind the unparsed bytes. -/
def bufferConsumed (u : Unpacker) (chunk : Bytes) : Unpacker :=
  { u with unparsed := u.unparsed ++ chunk }

/-- `next`; after an object the context is reset. -/
def next (u : Unpacker) : Next :=
  match execute u.context u.unparsed with
  | .item o rest => .object o ⟨.init, rest⟩
  | .more context rest => .incomplete ⟨context, rest⟩
  | .fail => .parseError

/-- Does the next message open an array or a map?  Then the zone may refuse the block for its
slots, and `bad_alloc` leaves `next`.  A message that does not parse fails in either case. -/
def opens (u : Unpacker) : Bool :=
  match (machineIn fun _ => false).run u.context u.unparsed, execute u.context u.unparsed with
  | .fail, .fail => false
  | .fail, _ => true
  | _, _ => false

/-- `while (next(result))` on what the unpacker holds: the objects, and the unpacker unless the
loop has ended by the exception. -/
def nextAll (u : Unpacker) : List Object × Option Unpacker :=
  let d := machine.drain u.context u.unparsed
  (d.1, d.2.map fun st => ⟨st.1, st.2⟩)

/-- Read a stream that arrives in chunks. -/
def readChunks (chunks : List Bytes) : List Object × Option Unpacker :=
  let d := machine.feed chunks
  (d.1, d.2.map fun st => ⟨st.1, st.2⟩)

/-- The same with a zone that may refuse blocks; `bad_alloc` leaves `next` as a parse error does. -/
def readChunksIn (room : ℕ → Bool) (chunks : List Bytes) : List Object × Option Unpacker :=
  let d := (machineIn room).feed chunks
  (d.1, d.2.map fun st => ⟨st.1, st.2⟩)

theorem readChunksIn_eq_none {room : ℕ → Bool} {chunks : List Bytes} {os : List Object} :
    readChunksIn room chunks = (os, none) ↔
      (machineIn room).drain (machineIn room).start chunks.flatten = (os, none) := by
  rw [readChunksIn, Machine.feed_eq]
  simp [Prod.ext_iff]

theorem readChunksIn_eq_some {room : ℕ → Bool} {chunks : List Bytes} {os : List Object}
    {u : Unpacker} : readChunksIn room chunks = (os, some u) ↔
      (machineIn room).drain (machineIn room).start chunks.flatten =
        (os, some (u.context, u.unparsed)) := by
  rw [readChunksIn, Machine.feed_eq]
  obtain ⟨context, unparsed⟩ := u
  simp [Prod.ext_iff]

theorem nextAll_eq (u : Unpacker) :
    u.nextAll = match u.next with
      | .object o v => (o :: v.nextAll.1, v.nextAll.2)
      | .incomplete v => ([], some v)
      | .parseError => ([], none) := by
  rw [nextAll, next, execute]
  cases h : machine.run u.context u.unparsed with
  | more context rest => rw [Machine.drain_of_more h]; rfl
  | item o rest => rw [Machine.drain_of_item h]; rfl
  | fail => rw [Machine.drain_of_fail h]; rfl

/-- Reading in chunks is the loop on each chunk, with what the chunks before have left. -/
theorem readChunks_concat (chunks : List Bytes) (c : Bytes) :
    readChunks (chunks ++ [c]) = match (readChunks chunks).2 with
      | none => readChunks chunks
      | some u => ((readChunks chunks).1 ++ (u.bufferConsumed c).nextAll.1,
          (u.bufferConsumed c).nextAll.2) := by
  simp only [readChunks, Machine.feed, List.foldl_append, List.foldl_cons, List.foldl_nil]
  cases h : (chunks.foldl machine.extend ([], some (machine.start, []))).2 with
  | none => simp [Machine.extend, h]
  | some st => simp [Machine.extend, h, nextAll, bufferConsumed]

/-- Nothing more can be taken before more arrives. -/
def Idle (u : Unpacker) : Prop := u.nextAll = ([], some u)

theorem idle_init : Idle init := by
  rw [Idle, nextAll, Machine.drain_of_more (Machine.run_of_wait rfl)]
  rfl

theorem idle_of_incomplete {u v : Unpacker} (h : u.next = .incomplete v) : v.Idle := by
  rw [next] at h
  cases hrun : execute u.context u.unparsed with
  | more context rest =>
    rw [hrun] at h
    cases h
    have hstill : machine.run context rest = .more context rest :=
      Machine.run_of_wait (Machine.step_of_more hrun)
    rw [Idle, nextAll, Machine.drain_of_more hstill]
    rfl
  | item o rest =>
    rw [hrun] at h
    cases h
  | fail =>
    rw [hrun] at h
    cases h

/-- After these chunks a reader has taken these objects and holds this unpacker: it has parsed the
bytes before those that it holds. -/
def Holds (u : Unpacker) (chunks : List Bytes) (taken : List Object) : Prop :=
  ∃ parsed, chunks.flatten = parsed ++ u.unparsed ∧
    machine.drain .init parsed = (taken, some (u.context, []))

namespace Holds

variable {u v : Unpacker} {chunks : List Bytes} {taken : List Object} {o : Object}

theorem init : Holds .init [] [] := ⟨[], rfl, Machine.drain_start_nil⟩

theorem reads (h : u.Holds chunks taken) :
    readChunks chunks = (taken ++ u.nextAll.1, u.nextAll.2) := by
  obtain ⟨parsed, hflat, hdrain⟩ := h
  have hall : machine.drain machine.start (parsed ++ u.unparsed) =
      (taken ++ (machine.drain u.context u.unparsed).1,
        (machine.drain u.context u.unparsed).2) := by
    rw [Machine.drain_append, show machine.drain machine.start parsed = _ from hdrain]
    rfl
  rw [readChunks, Machine.feed_eq, hflat, hall]
  rfl

theorem receive (h : u.Holds chunks taken) (c : Bytes) :
    (u.bufferConsumed c).Holds (chunks ++ [c]) taken := by
  obtain ⟨parsed, hflat, hdrain⟩ := h
  refine ⟨parsed, ?_, hdrain⟩
  rw [List.flatten_append, hflat, List.flatten_singleton, List.append_assoc]
  rfl

theorem object (h : u.Holds chunks taken) (hnext : u.next = .object o v) :
    v.Holds chunks (taken ++ [o]) := by
  obtain ⟨parsed, hflat, hdrain⟩ := h
  rw [next] at hnext
  cases hrun : execute u.context u.unparsed with
  | item x rest =>
    rw [hrun] at hnext
    cases hnext
    obtain ⟨n, hn, -, hitem⟩ := Machine.taken_of_item hrun
    refine ⟨parsed ++ n, by rw [hflat, hn, List.append_assoc], ?_⟩
    have hitem' := hitem []
    rw [List.append_nil] at hitem'
    rw [Machine.drain_append, hdrain, Machine.extend]
    dsimp only
    rw [List.nil_append, Machine.drain_of_item hitem', Machine.drain_start_nil]
    rfl
  | more context rest =>
    rw [hrun] at hnext
    cases hnext
  | fail =>
    rw [hrun] at hnext
    cases hnext

theorem incomplete (h : u.Holds chunks taken) (hnext : u.next = .incomplete v) :
    v.Holds chunks taken := by
  obtain ⟨parsed, hflat, hdrain⟩ := h
  rw [next] at hnext
  cases hrun : execute u.context u.unparsed with
  | more context rest =>
    rw [hrun] at hnext
    cases hnext
    obtain ⟨n, hn, hmore⟩ := Machine.taken_of_more hrun
    refine ⟨parsed ++ n, by rw [hflat, hn, List.append_assoc], ?_⟩
    have hend : machine.run u.context n = .more context [] := by
      have hmore' := hmore []
      rwa [List.append_nil, Machine.run_of_wait (Machine.step_nil _)] at hmore'
    rw [Machine.drain_append, hdrain, Machine.extend]
    dsimp only
    rw [List.nil_append, Machine.drain_of_more hend, List.append_nil]
  | item x rest =>
    rw [hrun] at hnext
    cases hnext
  | fail =>
    rw [hrun] at hnext
    cases hnext

theorem fails (h : u.Holds chunks taken) (hnext : u.next = .parseError) :
    readChunks chunks = (taken, none) := by
  rw [h.reads, nextAll_eq, hnext, List.append_nil]

theorem front (h : u.Holds chunks taken) : taken <+: (readChunks chunks).1 := by
  rw [h.reads]
  exact List.prefix_append _ _

theorem all (h : u.Holds chunks taken) (hidle : u.Idle) :
    readChunks chunks = (taken, some u) := by
  rw [h.reads, hidle, List.append_nil]

end Holds

end Unpacker

namespace Unpacker

/-- After these objects the stream opens an array or a map. -/
def Opens (chunks : List Bytes) (taken : List Object) : Prop :=
  ∃ w q ctx, chunks.flatten = w ++ q ∧ readChunks [w] = (taken, some ⟨ctx, []⟩) ∧
    0 < ctx.blockAsked q

theorem Holds.opens {u : Unpacker} {chunks : List Bytes} {taken : List Object}
    (h : u.Holds chunks taken) (ho : u.opens = true) : Opens chunks taken := by
  obtain ⟨parsed, hflat, hdrain⟩ := h
  rw [Unpacker.opens] at ho
  cases hrefused : (machineIn fun _ => false).run u.context u.unparsed with
  | more | item =>
    rw [hrefused] at ho
    cases ho
  | fail =>
    rw [hrefused] at ho
    obtain ⟨n, q, ctx, hn, hmore, hfail⟩ := Machine.run_fail hrefused
    have hample : machine.run u.context n = .more ctx [] :=
      (run_ample (by simp [hmore])).trans hmore
    have hgo : machine.run u.context u.unparsed = machine.run ctx q := by
      rw [hn, Machine.run_append, hample]
      rfl
    refine ⟨parsed ++ n, q, ctx, by rw [hflat, hn, List.append_assoc], ?_, ?_⟩
    · rw [readChunks, Machine.feed_eq, List.flatten_singleton, Machine.drain_append,
        show machine.drain machine.start parsed = _ from hdrain, Machine.extend]
      dsimp only
      rw [List.nil_append, Machine.drain_of_more hample, List.append_nil]
      rfl
    · rcases iterate_fail_iff.mp hfail with hc1 | ⟨hasked, -⟩
      · have hends : machine.run ctx q = .fail :=
          Machine.run_of_fail (iterate_fail_iff.mpr (.inl hc1))
        rw [execute, hgo, hends] at ho
        cases ho
      · exact hasked

end Unpacker

/-- The stream that carries packed objects. -/
abbrev packedStream (os : List Object) : Bytes := os.flatMap pack

theorem encodeAll_eq (os : List Object) : reads_pack.code.encodeAll os = packedStream os := rfl

namespace Unpacker

variable {os ds : List Object} {chunks : List Bytes}

/-- A stream of packed objects is read object by object. -/
theorem readChunks_front (hos : ∀ o ∈ os, o.WellFormed)
    (hfront : chunks.flatten <+: packedStream os) :
    ∃ ds u, readChunks chunks = (ds, some u) ∧ ds <+: os := by
  obtain ⟨ds, ctx, rest, hdrain, hds⟩ := reads_pack.drain_front hos hfront
  refine ⟨ds, ⟨ctx, rest⟩, ?_, hds⟩
  rw [readChunks, Machine.feed_eq, hdrain]
  rfl

theorem readChunks_maximal (hos : ∀ o ∈ os, o.WellFormed)
    (hin : packedStream os <+: chunks.flatten) : os <+: (readChunks chunks).1 := by
  rw [readChunks, Machine.feed_eq]
  exact reads_pack.drain_maximal hos hin

theorem readChunks_whole (hos : ∀ o ∈ os, o.WellFormed) (hall : chunks.flatten = packedStream os) :
    readChunks chunks = (os, some .init) := by
  have hend := reads_pack.drain_encodeAll hos []
  rw [List.append_nil, encodeAll_eq, ← hall, Machine.drain_start_nil, List.append_nil] at hend
  rw [readChunks, Machine.feed_eq, hend]
  rfl

end Unpacker

/-- Whatever the chunks, the reader of a stream of packed objects obtains them in order, each as
soon as its last byte is there, and holds nothing back at the end. -/
theorem readChunks_packed {os : List Object} (hos : ∀ o ∈ os, o.WellFormed) {chunks : List Bytes}
    (hfront : chunks.flatten <+: packedStream os) :
    ∃ ds u, Unpacker.readChunks chunks = (ds, some u) ∧ ds <+: os ∧
      (∀ ds', ds' <+: os → packedStream ds' <+: chunks.flatten → ds' <+: ds) ∧
      (chunks.flatten = packedStream os → ds = os ∧ u = .init) := by
  obtain ⟨ds, u, hread, hds⟩ := Unpacker.readChunks_front hos hfront
  refine ⟨ds, u, hread, hds, ?_, ?_⟩
  · intro ds' hds' hin
    have hmax := Unpacker.readChunks_maximal (fun o ho => hos o (hds'.subset ho)) hin
    rw [hread] at hmax
    exact hmax
  · intro hall
    have hend := Unpacker.readChunks_whole hos hall
    rw [hread] at hend
    obtain ⟨rfl, hu⟩ := Prod.mk.inj hend
    exact ⟨rfl, Option.some.inj hu⟩

/-- A call and its only argument, cut inside the argument's string. -/
theorem readChunks_packed_call :
    ∃ ds u, Unpacker.readChunks [[0x92, 0x2a, 0xa2], [0x68, 0x69]] = (ds, some u) ∧
      ds <+: [.array [.positiveInteger 42, .str [0x68, 0x69]]] ∧
      (∀ ds', ds' <+: [.array [.positiveInteger 42, .str [0x68, 0x69]]] →
        packedStream ds' <+: [[0x92, 0x2a, 0xa2], [0x68, 0x69]].flatten → ds' <+: ds) ∧
      ([[0x92, 0x2a, 0xa2], [0x68, 0x69]].flatten =
          packedStream [.array [.positiveInteger 42, .str [0x68, 0x69]]] →
        ds = [.array [.positiveInteger 42, .str [0x68, 0x69]]] ∧ u = .init) := by
  apply readChunks_packed
  · simp only [List.mem_singleton, forall_eq]
    refine .array (by decide) ?_
    simp only [List.mem_cons, List.not_mem_nil, or_false, forall_eq_or_imp, forall_eq]
    exact ⟨.positiveInteger (by decide), .str (by decide)⟩
  · exact List.prefix_rfl

/-! ## Malformed streams -/

theorem execute_c1 (stack : List StackElem) (rest : Bytes) :
    execute ⟨none, stack⟩ (0xc1 :: rest) = .fail :=
  Machine.run_of_fail rfl

/-- The reader fails where a byte `0xc1` stands although a format byte is due, or where it is refused
the block for the slots of an array or a map, and only there, however the stream is cut; the
objects complete before it have been handed out.  A reader that does not fail reads what it reads
with all the memory that it wants. -/
theorem readChunksIn_fails_iff (room : ℕ → Bool) (chunks : List Bytes) :
    (∀ os, Unpacker.readChunksIn room chunks = (os, none) ↔
      ∃ w q ctx, chunks.flatten = w ++ q ∧
        Unpacker.readChunksIn room [w] = (os, some ⟨ctx, []⟩) ∧
        ((ctx.cs = none ∧ ∃ rest, q = 0xc1 :: rest) ∨
          0 < ctx.blockAsked q ∧ room (ctx.blockAsked q) = false)) ∧
      ((Unpacker.readChunksIn room chunks).2 ≠ none →
        Unpacker.readChunksIn room chunks = Unpacker.readChunks chunks) := by
  refine ⟨fun os => ⟨?_, ?_⟩, ?_⟩
  · intro h
    obtain ⟨w, q, ctx, hq, hdrain, hfail⟩ := Machine.drain_fail (Unpacker.readChunksIn_eq_none.mp h)
    exact ⟨w, q, ctx, hq, Unpacker.readChunksIn_eq_some.mpr (by simpa using hdrain),
      iterate_fail_iff.mp hfail⟩
  · rintro ⟨w, q, ctx, hflat, hw, hasked⟩
    rw [Unpacker.readChunksIn_eq_some, List.flatten_singleton] at hw
    have hfail : (machineIn room).drain ctx ([] ++ q) = ([], none) :=
      Machine.drain_of_fail (Machine.run_of_fail (iterate_fail_iff.mpr hasked))
    rw [Unpacker.readChunksIn_eq_none, hflat, Machine.drain_append, hw, Machine.extend]
    simp only [hfail, List.append_nil]
  · intro h
    rw [Unpacker.readChunksIn, Machine.feed_eq] at h ⊢
    have hsome : ((machineIn room).drain (machineIn room).start chunks.flatten).2 ≠ none := by
      intro hnone
      exact h (by simp [hnone])
    have hsame : machine.drain machine.start chunks.flatten =
        (machineIn room).drain (machineIn room).start chunks.flatten :=
      Machine.drain_agree (M := machineIn room) rfl (fun _ _ => iterate_ample) hsome
    rw [Unpacker.readChunks, Machine.feed_eq, hsame]

/-! ## What has been read, packed again -/

/-- Whatever the stream, the objects handed out are well formed, and packing them again takes no
more bytes than have been read: no bytes shorter than the packer's are read as the same
objects. -/
theorem readChunks_shortest (chunks : List Bytes) :
    (∀ o ∈ (Unpacker.readChunks chunks).1, o.WellFormed) ∧
      (packedStream (Unpacker.readChunks chunks).1).length ≤ chunks.flatten.length := by
  have hrule := Machine.drain_rule (M := machine) (P := Object.WellFormed)
    (I := fun os r => (packedStream os).length + r.length ≤ chunks.flatten.length)
    (b := chunks.flatten) ?_ [] (by simp) (by simp)
  · obtain ⟨hwf, c, hlen⟩ := hrule
    rw [List.nil_append] at hwf hlen
    rw [Unpacker.readChunks, Machine.feed_eq]
    exact ⟨hwf, by dsimp only; omega⟩
  · intro os b o r hI hrun
    obtain ⟨hwf, hlen⟩ := execute_sat init_ok hrun
    have hinit : Context.init.read = 0 := rfl
    refine ⟨hwf, ?_⟩
    simp only [packedStream, List.flatMap_append, List.length_append,
      List.flatMap_singleton] at hI ⊢
    rw [hinit] at hlen
    omega

end PromiseDemo.MsgPack
