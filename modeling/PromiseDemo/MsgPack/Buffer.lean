import PromiseDemo.Framework.Transition
import PromiseDemo.MsgPack.Unpacker

/-!
# The unpacker's buffer

The bytes that an unpacker holds lie in a block of memory that it manages by hand: the socket
writes behind `m_used`, the parser advances `m_off`, and `reserve_buffer` makes room by rewinding,
by growing the block in place or by moving what is not parsed to a new one.  Objects that have
been handed out keep pointing into the block, which is why it counts its references.
-/

namespace PromiseDemo.MsgPack

open Resumable Transition

/-- `COUNTER_SIZE`: the block begins with its reference count. -/
def counterSize : ℕ := 4

/-- `MSGPACK_UNPACKER_INIT_BUFFER_SIZE`. -/
def initialBufferSize : ℕ := 64 * 1024

/-- The members of `parser` that describe the block; `data` is what has been written to it behind
the count, up to `m_used`. -/
structure Buffer where
  data : Bytes
  off : ℕ
  free : ℕ
  count : ℕ
  referenced : Bool
  deriving DecidableEq, Repr

/-- The loop that doubles a size until it suffices.  Sizes are 64 bits wide, and a doubling that
wraps ends the loop with the size that is needed. -/
def growTo (nextSize need : ℕ) : ℕ :=
  if nextSize < need then
    let tmpNextSize := nextSize * 2 % 2 ^ 64
    if tmpNextSize ≤ nextSize then need else growTo tmpNextSize need
  else nextSize
termination_by need - nextSize

namespace Buffer

/-- The constructor of `parser`. -/
def init : Buffer := ⟨[], counterSize, initialBufferSize - counterSize, 1, false⟩

/-- `m_used`. -/
def used (b : Buffer) : ℕ := counterSize + b.data.length

/-- The bytes from `m_off` to `m_used`. -/
def unparsed (b : Buffer) : Bytes := b.data.drop (b.off - counterSize)

/-- Everything has been parsed and nothing points into the block. -/
def idle (b : Buffer) : Bool := b.used == b.off && b.count == 1 && !b.referenced

/-- The second half of `expand_buffer`: `realloc` where the block starts with bytes that are not
parsed, else a new block with the bytes that are not.  The heap may refuse a size. -/
def grow (heap : ℕ → Bool) (b : Buffer) (size : ℕ) : Option Buffer :=
  if b.off = counterSize then
    let nextSize := growTo ((b.used + b.free) * 2 % 2 ^ 64) ((size + b.used) % 2 ^ 64)
    if heap nextSize then some { b with free := nextSize - b.used } else none
  else
    let notParsed := b.used - b.off
    let nextSize := growTo initialBufferSize ((size + notParsed + counterSize) % 2 ^ 64)
    if heap nextSize then
      some ⟨b.unparsed, counterSize, nextSize - (notParsed + counterSize), 1, false⟩
    else none

/-- An idle block is used again from its start. -/
def rewind (b : Buffer) : Buffer :=
  { b with data := [], off := counterSize, free := b.free + (b.used - counterSize) }

/-- `expand_buffer`; `none` is `bad_alloc`. -/
def expandBuffer (heap : ℕ → Bool) (b : Buffer) (size : ℕ) : Option Buffer :=
  if b.idle then
    if size ≤ b.rewind.free then some b.rewind else grow heap b.rewind size
  else grow heap b size

/-- `reserve_buffer`. -/
def reserveBuffer (heap : ℕ → Bool) (b : Buffer) (size : ℕ) : Option Buffer :=
  if size ≤ b.free then some b else expandBuffer heap b size

/-- `buffer_consumed`, after the socket has written `chunk` behind `m_used`. -/
def bufferConsumed (b : Buffer) (chunk : Bytes) : Buffer :=
  { b with data := b.data ++ chunk, free := b.free - chunk.length }

/-- The block is well formed: nothing can point into it while its first byte is not parsed. -/
structure Ok (b : Buffer) : Prop where
  off_ge : counterSize ≤ b.off
  off_le : b.off ≤ b.used
  size_lt : b.used + b.free < 2 ^ 63
  count_pos : 1 ≤ b.count
  unshared : b.off = counterSize → b.count = 1 ∧ b.referenced = false

/-- What `malloc` and `realloc` guarantee: no block is as large as half the address space. -/
def Heap (heap : ℕ → Bool) : Prop := ∀ n, heap n = true → n < 2 ^ 63

theorem le_growTo (nextSize need : ℕ) : need ≤ growTo nextSize need := by
  induction hn : need - nextSize using Nat.strong_induction_on generalizing nextSize with
  | _ n ih =>
    rw [growTo]
    dsimp only
    split_ifs with hlt hwrap
    · exact le_rfl
    · exact ih (need - nextSize * 2 % 2 ^ 64) (by omega) _ rfl
    · omega

theorem unparsed_length {b : Buffer} (h : b.Ok) : b.unparsed.length = b.used - b.off := by
  have := h.off_ge
  rw [unparsed, List.length_drop, used]
  omega

theorem grow_spec {heap : ℕ → Bool} (hheap : Heap heap) {b b' : Buffer} {size : ℕ} (h : b.Ok)
    (hsize : size < 2 ^ 62) (hgrow : grow heap b size = some b') :
    b'.Ok ∧ size ≤ b'.free ∧ b'.unparsed = b.unparsed := by
  have hge := h.off_ge
  have hle := h.off_le
  have hlt := h.size_lt
  unfold grow at hgrow
  split_ifs at hgrow with hoff
  · rw [Option.ite_none_right_eq_some] at hgrow
    obtain ⟨hok, hb'⟩ := hgrow
    have hneed := le_growTo ((b.used + b.free) * 2 % 2 ^ 64) ((size + b.used) % 2 ^ 64)
    have hbound := hheap _ hok
    have hmod : (size + b.used) % 2 ^ 64 = size + b.used := Nat.mod_eq_of_lt (by omega)
    rw [hmod] at hneed hbound hb'
    cases hb'
    have hused : used { b with
        free := growTo ((b.used + b.free) * 2 % 2 ^ 64) (size + b.used) - b.used }
        = b.used := rfl
    refine ⟨⟨hge, hle, ?_, h.count_pos, h.unshared⟩, ?_, rfl⟩
    · rw [hused]
      dsimp only
      omega
    · dsimp only
      omega
  · rw [Option.ite_none_right_eq_some] at hgrow
    obtain ⟨hok, hb'⟩ := hgrow
    have hneed := le_growTo initialBufferSize ((size + (b.used - b.off) + counterSize) % 2 ^ 64)
    have hbound := hheap _ hok
    have hcounter : counterSize = 4 := rfl
    have hmod : (size + (b.used - b.off) + counterSize) % 2 ^ 64 =
        size + (b.used - b.off) + counterSize := Nat.mod_eq_of_lt (by omega)
    rw [hmod] at hneed hbound hb'
    cases hb'
    have hlen := unparsed_length h
    refine ⟨⟨le_rfl, ?_, ?_, le_rfl, fun _ => ⟨rfl, rfl⟩⟩, ?_, ?_⟩
    · simp [used]
    · simp only [used, hlen] at hbound ⊢
      simp only [used] at hneed
      omega
    · dsimp only
      omega
    · simp [unparsed]

theorem rewind_ok {b : Buffer} (h : b.Ok) (hidle : b.idle = true) :
    b.rewind.Ok ∧ b.rewind.unparsed = b.unparsed := by
  simp only [idle, Bool.and_eq_true, beq_iff_eq, Bool.not_eq_true'] at hidle
  obtain ⟨⟨hall, hcount⟩, href⟩ := hidle
  have hlen := unparsed_length h
  have hlt := h.size_lt
  refine ⟨⟨le_rfl, by simp [used, rewind], ?_, h.count_pos, fun _ => ⟨hcount, href⟩⟩, ?_⟩
  · simp only [rewind, used, List.length_nil] at hlt ⊢
    omega
  · have hnil : b.unparsed = [] := List.length_eq_zero_iff.mp (by omega)
    rw [hnil]
    simp [unparsed, rewind]

/-- `reserve_buffer` keeps the bytes that are not parsed and makes room. -/
theorem reserveBuffer_spec {heap : ℕ → Bool} (hheap : Heap heap) {b b' : Buffer} {size : ℕ}
    (h : b.Ok) (hsize : size < 2 ^ 62) (hreserve : reserveBuffer heap b size = some b') :
    b'.Ok ∧ size ≤ b'.free ∧ b'.unparsed = b.unparsed := by
  rw [reserveBuffer] at hreserve
  split_ifs at hreserve with hroom
  · cases hreserve
    exact ⟨h, hroom, rfl⟩
  · rw [expandBuffer] at hreserve
    split_ifs at hreserve with hidle hfits
    · cases hreserve
      obtain ⟨hok, hsame⟩ := rewind_ok h hidle
      exact ⟨hok, hfits, hsame⟩
    · obtain ⟨hok, hsame⟩ := rewind_ok h hidle
      obtain ⟨hok', hfree, hsame'⟩ := grow_spec hheap hok hsize hreserve
      exact ⟨hok', hfree, hsame'.trans hsame⟩
    · exact grow_spec hheap h hsize hreserve

end Buffer

/-! ## The reading loop -/

/-- `default_buffer_size`, which is also `max_read_bytes`. -/
def maxReadBytes : ℕ := 1024 * 1024

/-- Where the loop stands; `failed` is after a `parse_error`. -/
inductive ReaderPhase
  | reading
  | parsing
  | failed
  deriving DecidableEq, Repr

/-- A session's or a client's reader: the unpacker with its block, and the read handler. -/
structure Reader where
  buffer : Buffer
  context : Context
  phase : ReaderPhase

/-- `receive`: the socket delivers a chunk.  `next`: the handler calls `next`, which may meet a
string or a block that points into the buffer.  `release`: an object handed out is destroyed. -/
inductive ReaderAction
  | receive (chunk : Bytes)
  | next (refers : Bool)
  | release

inductive ReaderEvent
  | received (chunk : Bytes) (room : ℕ)
  | object (o : Object)
  | reallocated (count : ℕ) (referenced : Bool)

namespace Reader

/-- The constructor has reserved room for the first read. -/
def init (heap : ℕ → Bool) : Option Reader :=
  (Buffer.init.reserveBuffer heap maxReadBytes).map fun b => ⟨b, .init, .reading⟩

/-- `next` has taken the bytes up to `rest`; an object that points into the block counts as a
reference to it. -/
def parsed (b : Buffer) (rest : Bytes) (refers complete : Bool) : Buffer :=
  let referenced := b.referenced || refers
  { b with
    off := b.used - rest.length
    count := if complete && referenced then b.count + 1 else b.count
    referenced := referenced && !complete }

/-- Whether `reserve_buffer` hands the block to `realloc`. -/
def reallocates (b : Buffer) : Bool :=
  decide (b.free < maxReadBytes) &&
    if b.idle then decide (b.rewind.free < maxReadBytes) else decide (b.off = counterSize)

/-- The read handler; a failed allocation throws out of it, and so does a `parse_error`.  A call
of `next` that takes nothing meets no string. -/
def step (heap : ℕ → Bool) (r : Reader) : ReaderAction → Option (Reader × List ReaderEvent)
  | .receive chunk =>
      if r.phase = .reading ∧ chunk.length ≤ maxReadBytes then
        some ({ r with buffer := r.buffer.bufferConsumed chunk, phase := .parsing },
          [.received chunk r.buffer.free])
      else none
  | .next refers =>
      if r.phase = .parsing then
        match execute r.context r.buffer.unparsed with
        | .item o rest =>
            some ({ r with buffer := parsed r.buffer rest refers true, context := .init },
              [.object o])
        | .more context rest =>
            if refers ∧ rest.length = r.buffer.unparsed.length then none
            else
              let buffer := parsed r.buffer rest refers false
              (buffer.reserveBuffer heap maxReadBytes).map fun b =>
                (⟨b, context, .reading⟩,
                  if reallocates buffer then [.reallocated buffer.count buffer.referenced]
                  else [])
        | .fail => some ({ r with phase := .failed }, [])
      else none
  | .release =>
      if 1 < r.buffer.count then
        some ({ r with buffer := { r.buffer with count := r.buffer.count - 1 } }, [])
      else none

end Reader

/-- What the socket has delivered. -/
def deliveredChunks (h : List ReaderEvent) : List Bytes :=
  h.filterMap fun e => match e with
    | .received chunk _ => some chunk
    | _ => none

/-- The objects handed out. -/
def objectsOf (h : List ReaderEvent) : List Object :=
  h.filterMap fun e => match e with
    | .object o => some o
    | _ => none

/-- The reader's invariant: the block is well formed and has room for the read that is pending,
and what is left to parse makes of the bytes what the stream makes of them. -/
structure Reading (h : List ReaderEvent) (r : Reader) : Prop where
  ok : r.buffer.Ok
  room : r.phase = .reading → maxReadBytes ≤ r.buffer.free
  waiting : r.phase = .reading → iterate ample r.context r.buffer.unparsed = .wait
  failed : r.phase = .failed → execute r.context r.buffer.unparsed = .fail
  stream : machine.drain .init (deliveredChunks h).flatten =
    (objectsOf h ++ (machine.drain r.context r.buffer.unparsed).1,
      (machine.drain r.context r.buffer.unparsed).2)
  fits : ∀ chunk room, .received chunk room ∈ h → chunk.length ≤ room
  unshared : ∀ count referenced, .reallocated count referenced ∈ h →
    count = 1 ∧ referenced = false

@[simp] theorem deliveredChunks_append (h k : List ReaderEvent) :
    deliveredChunks (h ++ k) = deliveredChunks h ++ deliveredChunks k := List.filterMap_append

@[simp] theorem objectsOf_append (h k : List ReaderEvent) :
    objectsOf (h ++ k) = objectsOf h ++ objectsOf k := List.filterMap_append

theorem Reader.parsed_spec {b : Buffer} (h : b.Ok) {taken rest : Bytes} (refers complete : Bool)
    (hb : b.unparsed = taken ++ rest)
    (hnone : taken = [] → refers = false ∧ complete = false) :
    (Reader.parsed b rest refers complete).Ok ∧
      (Reader.parsed b rest refers complete).unparsed = rest := by
  have hge := h.off_ge
  have hle := h.off_le
  have hlen := Buffer.unparsed_length h
  rw [hb, List.length_append] at hlen
  have hoff : (Reader.parsed b rest refers complete).off = b.off + taken.length := by
    simp only [Reader.parsed]
    omega
  have hused : (Reader.parsed b rest refers complete).used = b.used := rfl
  refine ⟨⟨?_, ?_, h.size_lt, ?_, ?_⟩, ?_⟩
  · rw [hoff]
    omega
  · rw [hoff, hused]
    omega
  · have := h.count_pos
    simp only [Reader.parsed]
    split_ifs <;> omega
  · intro hstart
    rw [hoff] at hstart
    have htaken : taken = [] := List.length_eq_zero_iff.mp (by omega)
    obtain ⟨rfl, rfl⟩ := hnone htaken
    obtain ⟨hcount, href⟩ := h.unshared (by omega)
    simp [Reader.parsed, hcount, href]
  · rw [Buffer.unparsed, hoff]
    have hsplit : b.off + taken.length - counterSize = b.off - counterSize + taken.length := by
      omega
    rw [hsplit, ← List.drop_drop]
    change (b.unparsed).drop taken.length = rest
    rw [hb, List.drop_left]

theorem Buffer.bufferConsumed_spec {b : Buffer} (h : b.Ok) {chunk : Bytes}
    (hfits : chunk.length ≤ b.free) :
    (b.bufferConsumed chunk).Ok ∧ (b.bufferConsumed chunk).unparsed = b.unparsed ++ chunk := by
  have hge := h.off_ge
  have hle := h.off_le
  have hlt := h.size_lt
  simp only [Buffer.used] at hle hlt
  refine ⟨⟨hge, ?_, ?_, h.count_pos, h.unshared⟩, ?_⟩
  · simp only [Buffer.used, Buffer.bufferConsumed, List.length_append]
    omega
  · simp only [Buffer.used, Buffer.bufferConsumed, List.length_append]
    omega
  · simp only [Buffer.unparsed, Buffer.bufferConsumed]
    rw [List.drop_append_of_le_length (by omega)]

theorem Buffer.reallocates_unshared {b : Buffer} (h : b.Ok) (hmoves : Reader.reallocates b = true) :
    b.count = 1 ∧ b.referenced = false := by
  simp only [Reader.reallocates, Bool.and_eq_true] at hmoves
  split_ifs at hmoves with hidle
  · simp only [Buffer.idle, Bool.and_eq_true, beq_iff_eq, Bool.not_eq_true'] at hidle
    exact ⟨hidle.1.2, hidle.2⟩
  · exact h.unshared (of_decide_eq_true hmoves.2)

theorem Buffer.init_ok : Buffer.init.Ok :=
  ⟨by decide, by decide, by decide, by decide, fun _ => ⟨rfl, rfl⟩⟩

namespace Reading

variable {h : List ReaderEvent} {r r' : Reader} {heap : ℕ → Bool}

theorem init (hheap : Buffer.Heap heap) (hinit : Reader.init heap = some r) : Reading [] r := by
  obtain ⟨b, hb, rfl⟩ := Option.map_eq_some_iff.mp hinit
  obtain ⟨hok, hroom, hsame⟩ :=
    Buffer.reserveBuffer_spec hheap Buffer.init_ok (by decide) hb
  have hnil : b.unparsed = [] := hsame
  refine ⟨hok, fun _ => hroom, fun _ => by rw [hnil]; rfl, nofun, ?_, by simp, by simp⟩
  rw [hnil]
  rfl

theorem drain_of_wait {ctx : Context} {b : Bytes} (hwait : iterate ample ctx b = .wait) :
    machine.drain ctx b = ([], some (ctx, b)) :=
  Machine.drain_of_more (Machine.run_of_wait hwait)

theorem receive (hr : Reading h r) (hphase : r.phase = .reading) {chunk : Bytes}
    (hchunk : chunk.length ≤ maxReadBytes) :
    Reading (h ++ [.received chunk r.buffer.free])
      { r with buffer := r.buffer.bufferConsumed chunk, phase := .parsing } := by
  have hfits : chunk.length ≤ r.buffer.free := hchunk.trans (hr.room hphase)
  obtain ⟨hok, hunparsed⟩ := Buffer.bufferConsumed_spec hr.ok hfits
  refine ⟨hok, nofun, nofun, nofun, ?_, ?_, ?_⟩
  · have hstream := hr.stream
    rw [drain_of_wait (hr.waiting hphase), List.append_nil] at hstream
    have hflat : (deliveredChunks (h ++ [.received chunk r.buffer.free])).flatten =
        (deliveredChunks h).flatten ++ chunk := by simp [deliveredChunks]
    have hobjects : objectsOf (h ++ [.received chunk r.buffer.free]) = objectsOf h := by
      simp [objectsOf]
    rw [hflat, hobjects, Machine.drain_append, hstream, Machine.extend]
    simp only [hunparsed]
  · intro c room hmem
    rcases List.mem_append.mp hmem with hold | hnew
    · exact hr.fits c room hold
    · cases List.mem_singleton.mp hnew
      exact hfits
  · intro count referenced hmem
    rcases List.mem_append.mp hmem with hold | hnew
    · exact hr.unshared count referenced hold
    · cases List.mem_singleton.mp hnew

theorem nextObject (hr : Reading h r) {refers : Bool} {o : Object} {rest : Bytes}
    (hphase : r.phase = .parsing) (hrun : execute r.context r.buffer.unparsed = .item o rest) :
    Reading (h ++ [.object o])
      { r with buffer := Reader.parsed r.buffer rest refers true, context := .init } := by
  obtain ⟨taken, hb, hne, -⟩ := Machine.taken_of_item hrun
  obtain ⟨hok, hunparsed⟩ := Reader.parsed_spec hr.ok refers true hb
    (fun h => absurd h hne)
  refine ⟨hok, ?_, ?_, ?_, ?_, ?_, ?_⟩
  · intro hreading
    cases hphase.symm.trans hreading
  · intro hreading
    cases hphase.symm.trans hreading
  · intro hfailed
    cases hphase.symm.trans hfailed
  · have hstream := hr.stream
    rw [Machine.drain_of_item hrun] at hstream
    have hdelivered : deliveredChunks (h ++ [.object o]) = deliveredChunks h := by
      simp [deliveredChunks]
    have hobjects : objectsOf (h ++ [.object o]) = objectsOf h ++ [o] := by simp [objectsOf]
    rw [hdelivered, hobjects, hstream, hunparsed, List.append_assoc, List.singleton_append]
    rfl
  · intro c room hmem
    rcases List.mem_append.mp hmem with hold | hnew
    · exact hr.fits c room hold
    · cases List.mem_singleton.mp hnew
  · intro count referenced hmem
    rcases List.mem_append.mp hmem with hold | hnew
    · exact hr.unshared count referenced hold
    · cases List.mem_singleton.mp hnew

theorem nextIncomplete (hheap : Buffer.Heap heap) (hr : Reading h r) {refers : Bool}
    {context : Context} {rest : Bytes} {b : Buffer}
    (hrun : execute r.context r.buffer.unparsed = .more context rest)
    (hrefers : ¬(refers ∧ rest.length = r.buffer.unparsed.length))
    (hreserve : (Reader.parsed r.buffer rest refers false).reserveBuffer heap maxReadBytes =
      some b) :
    Reading (h ++ if Reader.reallocates (Reader.parsed r.buffer rest refers false) then
      [.reallocated (Reader.parsed r.buffer rest refers false).count
        (Reader.parsed r.buffer rest refers false).referenced] else [])
      ⟨b, context, .reading⟩ := by
  obtain ⟨taken, hb, -⟩ := Machine.taken_of_more hrun
  have hnone : taken = [] → refers = false ∧ false = false := by
    rintro rfl
    refine ⟨?_, rfl⟩
    by_contra htrue
    exact hrefers ⟨by simpa using htrue, by rw [hb]; rfl⟩
  obtain ⟨hok, hunparsed⟩ := Reader.parsed_spec hr.ok refers false hb hnone
  obtain ⟨hok', hroom, hsame⟩ := Buffer.reserveBuffer_spec hheap hok (by decide) hreserve
  have hwait : iterate ample context b.unparsed = .wait := by
    rw [hsame, hunparsed]
    exact Machine.step_of_more hrun
  refine ⟨hok', fun _ => hroom, fun _ => hwait, nofun, ?_, ?_, ?_⟩
  · have hstream := hr.stream
    rw [Machine.drain_of_more hrun] at hstream
    have hdelivered : ∀ es, (∀ e ∈ es, ∃ n b, e = .reallocated n b) →
        deliveredChunks (h ++ es) = deliveredChunks h ∧ objectsOf (h ++ es) = objectsOf h := by
      intro es hes
      rw [deliveredChunks_append, objectsOf_append]
      have hnil : deliveredChunks es = [] ∧ objectsOf es = [] := by
        constructor <;> refine List.filterMap_eq_nil_iff.mpr fun e he => ?_ <;>
          obtain ⟨n, b, rfl⟩ := hes e he <;> rfl
      rw [hnil.1, hnil.2, List.append_nil, List.append_nil]
      exact ⟨rfl, rfl⟩
    obtain ⟨hd, ho⟩ := hdelivered (if Reader.reallocates (Reader.parsed r.buffer rest refers false)
      then [.reallocated (Reader.parsed r.buffer rest refers false).count
        (Reader.parsed r.buffer rest refers false).referenced] else []) (by
        split_ifs
        · exact fun e he => ⟨_, _, List.mem_singleton.mp he⟩
        · exact List.forall_mem_nil _)
    rw [hd, ho, hstream, drain_of_wait hwait, hsame, hunparsed]
  · intro c room hmem
    rcases List.mem_append.mp hmem with hold | hnew
    · exact hr.fits c room hold
    · split_ifs at hnew <;> simp at hnew
  · intro count referenced hmem
    rcases List.mem_append.mp hmem with hold | hnew
    · exact hr.unshared count referenced hold
    · split_ifs at hnew with hmoves
      · cases List.mem_singleton.mp hnew
        exact Buffer.reallocates_unshared hok hmoves
      · cases hnew

theorem step (hheap : Buffer.Heap heap) (hr : Reading h r) {a : ReaderAction}
    {es : List ReaderEvent} (hs : Reader.step heap r a = some (r', es)) :
    Reading (h ++ es) r' := by
  cases a with
  | receive chunk =>
    rw [Reader.step, Option.ite_none_right_eq_some] at hs
    obtain ⟨⟨hphase, hchunk⟩, hs⟩ := hs
    cases hs
    exact hr.receive hphase hchunk
  | next refers =>
    rw [Reader.step, Option.ite_none_right_eq_some] at hs
    obtain ⟨hphase, hs⟩ := hs
    cases hrun : execute r.context r.buffer.unparsed with
    | item o rest =>
      rw [hrun] at hs
      cases hs
      exact hr.nextObject hphase hrun
    | more context rest =>
      rw [hrun, Option.ite_none_left_eq_some] at hs
      obtain ⟨hrefers, hs⟩ := hs
      obtain ⟨b, hreserve, hb⟩ := Option.map_eq_some_iff.mp hs
      cases hb
      exact hr.nextIncomplete hheap hrun hrefers hreserve
    | fail =>
      rw [hrun] at hs
      cases hs
      rw [List.append_nil]
      exact ⟨hr.ok, nofun, nofun, fun _ => hrun, hr.stream, hr.fits, hr.unshared⟩
  | release =>
    rw [Reader.step, Option.ite_none_right_eq_some] at hs
    obtain ⟨hcount, hs⟩ := hs
    cases hs
    rw [List.append_nil]
    refine ⟨⟨hr.ok.off_ge, hr.ok.off_le, hr.ok.size_lt, ?_, ?_⟩, hr.room, hr.waiting, hr.failed,
      hr.stream, hr.fits, hr.unshared⟩
    · dsimp only
      omega
    · intro hoff
      have := (hr.ok.unshared hoff).1
      omega

theorem of_run (hheap : Buffer.Heap heap) {r₀ : Reader} (hinit : Reader.init heap = some r₀)
    (hrun : Run (Reader.step heap) anyAction r₀ h r) : Reading h r :=
  hrun.invariant (init hheap hinit) fun hr _ hs => hr.step hheap hs

end Reading

/-! ## Every run of a reader -/

private def heap63 (n : ℕ) : Bool := decide (n < 2 ^ 63)

private theorem heap63_heap : Buffer.Heap heap63 := fun _ h => of_decide_eq_true h

private def reservedReader : Reader := ⟨⟨[], 4, 2097148, 1, false⟩, .init, .reading⟩

private theorem init_heap63 : Reader.init heap63 = some reservedReader := by
  have hgrow : growTo 131072 1048580 = 2097152 := by
    simp [growTo]
  have hexpand : Buffer.init.reserveBuffer heap63 maxReadBytes =
      if heap63 (growTo 131072 1048580) then
        some { Buffer.init.rewind with free := growTo 131072 1048580 - 4 } else none := rfl
  rw [Reader.init, hexpand, hgrow]
  rfl

private theorem run_nil : Run (Reader.step heap63) anyAction reservedReader
    ([.received [0xc0] 2097148] ++ [.object .nil])
    ⟨⟨[0xc0], 5, 2097147, 1, false⟩, .init, .parsing⟩ := by
  have hreceive : Reader.step heap63 reservedReader (.receive [0xc0]) =
      some (⟨⟨[0xc0], 4, 2097147, 1, false⟩, .init, .parsing⟩, [.received [0xc0] 2097148]) := rfl
  have hnil : execute .init [0xc0] = .item .nil [] := Machine.run_of_done rfl
  have hnext : Reader.step heap63 ⟨⟨[0xc0], 4, 2097147, 1, false⟩, .init, .parsing⟩ (.next false) =
      some (⟨⟨[0xc0], 5, 2097147, 1, false⟩, .init, .parsing⟩, [.object .nil]) := by
    have hunparsed : Buffer.unparsed ⟨[0xc0], 4, 2097147, 1, false⟩ = [0xc0] := rfl
    simp only [Reader.step, hunparsed, hnil]
    rfl
  exact (Run.single trivial hreceive).tail trivial hnext

/-- In every run of a reader, whatever the socket delivers, whatever the parser finds and whenever
objects are destroyed: each read fits behind the bytes that the block holds, room for a whole read
is there before the next one starts, and a block that other objects point into, or the object that
is being parsed, is never handed to `realloc`. -/
theorem reader_memory_safe {heap : ℕ → Bool} (hheap : Buffer.Heap heap) {r₀ r : Reader}
    {h : List ReaderEvent} (hinit : Reader.init heap = some r₀)
    (hrun : Run (Reader.step heap) anyAction r₀ h r) :
    (∀ chunk room, .received chunk room ∈ h → chunk.length ≤ room) ∧
      (r.phase = .reading → maxReadBytes ≤ r.buffer.free) ∧
      ∀ count referenced, .reallocated count referenced ∈ h → count = 1 ∧ referenced = false :=
  have hr := Reading.of_run hheap hinit hrun
  ⟨hr.fits, hr.room, hr.unshared⟩

theorem reader_memory_safe_nil :
    (∀ chunk room, .received chunk room ∈ [ReaderEvent.received [0xc0] 2097148] ++ [.object .nil] →
      chunk.length ≤ room) ∧
      (ReaderPhase.parsing = .reading → maxReadBytes ≤ 2097147) ∧
      ∀ count referenced,
        .reallocated count referenced ∈ [ReaderEvent.received [0xc0] 2097148] ++ [.object .nil] →
          count = 1 ∧ referenced = false :=
  reader_memory_safe heap63_heap init_heap63 run_nil

/-- The reader with its block refines the reader of a stream: between two reads it has handed out
the objects of the bytes delivered and holds the bytes that are not parsed, and it fails where
the stream does. -/
theorem reader_refines {heap : ℕ → Bool} (hheap : Buffer.Heap heap) {r₀ r : Reader}
    {h : List ReaderEvent} (hinit : Reader.init heap = some r₀)
    (hrun : Run (Reader.step heap) anyAction r₀ h r) :
    objectsOf h <+: (Unpacker.readChunks (deliveredChunks h)).1 ∧
      (r.phase = .reading → Unpacker.readChunks (deliveredChunks h) =
        (objectsOf h, some ⟨r.context, r.buffer.unparsed⟩)) ∧
      (r.phase = .failed → Unpacker.readChunks (deliveredChunks h) = (objectsOf h, none)) := by
  have hr := Reading.of_run hheap hinit hrun
  have hread : Unpacker.readChunks (deliveredChunks h) =
      (objectsOf h ++ (machine.drain r.context r.buffer.unparsed).1,
        (machine.drain r.context r.buffer.unparsed).2.map fun st => ⟨st.1, st.2⟩) := by
    rw [Unpacker.readChunks, Machine.feed_eq]
    rw [show machine.drain machine.start (deliveredChunks h).flatten = _ from hr.stream]
  rw [hread]
  refine ⟨List.prefix_append _ _, ?_, ?_⟩
  · intro hphase
    rw [Reading.drain_of_wait (hr.waiting hphase), List.append_nil]
    rfl
  · intro hphase
    rw [Machine.drain_of_fail (hr.failed hphase), List.append_nil]
    rfl

theorem reader_refines_nil :
    objectsOf ([.received [0xc0] 2097148] ++ [.object .nil]) <+:
        (Unpacker.readChunks (deliveredChunks ([.received [0xc0] 2097148] ++ [.object .nil]))).1 ∧
      (ReaderPhase.parsing = .reading →
        Unpacker.readChunks (deliveredChunks ([.received [0xc0] 2097148] ++ [.object .nil])) =
          (objectsOf ([.received [0xc0] 2097148] ++ [.object .nil]), some ⟨.init, []⟩)) ∧
      (ReaderPhase.parsing = .failed →
        Unpacker.readChunks (deliveredChunks ([.received [0xc0] 2097148] ++ [.object .nil])) =
          (objectsOf ([.received [0xc0] 2097148] ++ [.object .nil]), none)) :=
  reader_refines heap63_heap init_heap63 run_nil

end PromiseDemo.MsgPack
