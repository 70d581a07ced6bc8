import PromiseDemo.Server.SingleWriter

/-!
# One read at a time

A session has one `async_read_some` outstanding, or its handler waits or runs, until a read ends
with an error or eof; it is outstanding only when no complete frame is buffered.  Together with the
read buffer the chunk that waits holds all bytes that have been received and not decoded.
-/

namespace PromiseDemo

open Transition PrefixCode

variable {h es : List ServerEvent} {s t : Session} {a : SessionAction}

/-- The bytes that have arrived and not been decoded. -/
def Session.buffered (s : Session) : Bytes :=
  match s.reads with
  | [.completed (some n)] => s.readBuffer ++ s.chunk.take n
  | _ => s.readBuffer

/-- The read side of a session after history `h`. -/
inductive Reader (h : List ServerEvent) (s : Session) : Prop
  | outstanding (hr : s.reads = [.outstanding]) (hrun : s.running = false)
      (hn : nextFrame s.readBuffer = none)
      (hin : frameCode.Reassembled (receivedBytes h) (requestsOf h) s.readBuffer)
  | arrived {n : ℕ} (hr : s.reads = [.completed (some n)]) (hrun : s.running = false)
      (hin : frameCode.Reassembled (receivedBytes h) (requestsOf h)
        (s.readBuffer ++ s.chunk.take n))
  | handling (hr : s.reads = []) (hrun : s.running = true)
      (hin : frameCode.Reassembled (receivedBytes h) (requestsOf h) s.readBuffer)
  | ended (hr : s.reads = [.completed none] ∨ s.reads = []) (hrun : s.running = false)
      (hd : .disconnected ∈ h)
      (hin : frameCode.Reassembled (receivedBytes h) (requestsOf h) s.readBuffer)

theorem Reader.start : Reader [] Session.start := .outstanding rfl rfl rfl .nil

/-- The one read there is. -/
theorem only_read {reads : List ReadOp} {op op' : ReadOp} {k : ℕ} (hr : reads = [op])
    (hk : reads[k]? = some op') : k = 0 ∧ op' = op := by
  subst hr
  cases k with
  | zero => exact ⟨rfl, (Option.some.inj hk).symm⟩
  | succ k => simp at hk

theorem no_read {reads : List ReadOp} {op : ReadOp} {k : ℕ} (hr : reads = [])
    (hk : reads[k]? = some op) : False := by
  subst hr
  simp at hk

theorem Reader.congr (hr : Reader h s) (hreads : t.reads = s.reads)
    (hrunning : t.running = s.running) (hbuffer : t.readBuffer = s.readBuffer)
    (hchunk : t.chunk = s.chunk) (hrec : receivedBytes es = []) (hreq : requestsOf es = []) :
    Reader (h ++ es) t := by
  have hrec' : receivedBytes (h ++ es) = receivedBytes h := by simp [hrec]
  have hreq' : requestsOf (h ++ es) = requestsOf h := by simp [hreq]
  cases hr with
  | outstanding hr hrun hn hin =>
    exact .outstanding (hreads.trans hr) (hrunning.trans hrun) (by rwa [hbuffer])
      (by rwa [hrec', hreq', hbuffer])
  | arrived hr hrun hin =>
    exact .arrived (hreads.trans hr) (hrunning.trans hrun)
      (by rwa [hrec', hreq', hbuffer, hchunk])
  | handling hr hrun hin =>
    exact .handling (hreads.trans hr) (hrunning.trans hrun) (by rwa [hrec', hreq', hbuffer])
  | ended hr hrun hd hin =>
    exact .ended (by rwa [hreads]) (hrunning.trans hrun) (by simp [hd])
      (by rwa [hrec', hreq', hbuffer])

theorem Reader.of_running (hr : Reader h s) (hrun : s.running = true) :
    s.reads = [] ∧ frameCode.Reassembled (receivedBytes h) (requestsOf h) s.readBuffer := by
  cases hr with
  | handling hr _ hin => exact ⟨hr, hin⟩
  | outstanding _ hrun' => cases hrun'.symm.trans hrun
  | arrived _ hrun' => cases hrun'.symm.trans hrun
  | ended _ hrun' => cases hrun'.symm.trans hrun

theorem Reader.step (hr : Reader h s) (hstep : SessionStep s a t es) : Reader (h ++ es) t := by
  cases hstep with
  | @readData k chunk hk hp =>
    cases hr with
    | outstanding hr hrun hn hin =>
      obtain ⟨rfl, -⟩ := only_read hr hk
      refine .arrived (n := chunk.length) (by simp [hr]) hrun ?_
      simpa using hin.receive chunk
    | arrived hr => cases (only_read hr hk).2
    | handling hr => exact (no_read hr hk).elim
    | ended hr =>
      rcases hr with hr | hr
      · cases (only_read hr hk).2
      · exact (no_read hr hk).elim
  | @readFailed k hk =>
    cases hr with
    | outstanding hr hrun hn hin =>
      obtain ⟨rfl, -⟩ := only_read hr hk
      exact .ended (.inl (by simp [hr])) hrun (by simp) (by simpa using hin)
    | arrived hr => cases (only_read hr hk).2
    | handling hr => exact (no_read hr hk).elim
    | ended hr =>
      rcases hr with hr | hr
      · cases (only_read hr hk).2
      · exact (no_read hr hk).elim
  | @readBegins k n _ hk =>
    cases hr with
    | outstanding hr => cases (only_read hr hk).2
    | arrived hr hrun hin =>
      obtain ⟨rfl, he⟩ := only_read hr hk
      cases he
      exact .handling (by simp [hr]) rfl (by simpa using hin)
    | handling hr => exact (no_read hr hk).elim
    | ended hr =>
      rcases hr with hr | hr
      · cases (only_read hr hk).2
      · exact (no_read hr hk).elim
  | @readEnds k _ hk =>
    cases hr with
    | outstanding hr => cases (only_read hr hk).2
    | arrived hr => cases (only_read hr hk).2
    | handling hr => exact (no_read hr hk).elim
    | ended hr hrun hd hin =>
      rcases hr with hr | hr
      · obtain ⟨rfl, -⟩ := only_read hr hk
        exact .ended (.inr (by simp [hr])) hrun (by simpa using hd) (by simpa using hin)
      · exact (no_read hr hk).elim
  | answeredIdle hrun hn hq =>
    obtain ⟨hreads, hin⟩ := hr.of_running hrun
    exact .handling hreads hrun (by simpa using hin.decode hn)
  | answered hrun hn hq =>
    obtain ⟨hreads, hin⟩ := hr.of_running hrun
    exact .handling hreads hrun (by simpa using hin.decode hn)
  | rearmed hrun hn =>
    obtain ⟨hreads, hin⟩ := hr.of_running hrun
    exact .outstanding (by simp [hreads]) rfl hn (by simpa using hin)
  | wrote hk ho hopen hn hle => exact hr.congr rfl rfl rfl rfl rfl rfl
  | writeDone hk ho hsent => exact hr.congr rfl rfl rfl rfl rfl rfl
  | writeFailed hk ho => exact hr.congr rfl rfl rfl rfl rfl rfl
  | poppedLast _ hk ho hq => exact hr.congr rfl rfl rfl rfl rfl rfl
  | popped _ hk ho hq => exact hr.congr rfl rfl rfl rfl rfl rfl
  | closed _ hk ho => exact hr.congr rfl rfl rfl rfl rfl rfl

theorem Reader.inflow (hr : Reader h s) :
    frameCode.Reassembled (receivedBytes h) (requestsOf h) s.buffered := by
  cases hr with
  | outstanding hr hrun hn hin => simpa [Session.buffered, hr] using hin
  | arrived hr hrun hin => simpa [Session.buffered, hr] using hin
  | handling hr hrun hin => simpa [Session.buffered, hr] using hin
  | ended hr hrun hd hin => rcases hr with hr | hr <;> simpa [Session.buffered, hr] using hin

theorem Reader.single (hr : Reader h s) (hd : .disconnected ∉ h) :
    s.reads.length + (if s.running then 1 else 0) = 1 := by
  cases hr with
  | outstanding hr hrun hn hin => simp [hr, hrun]
  | arrived hr hrun hin => simp [hr, hrun]
  | handling hr hrun hin => simp [hr, hrun]
  | ended hr hrun hd' hin => exact absurd hd' hd

/-- Once a read has ended, none is started and no complete frame is left behind. -/
structure ReadOver (s : Session) : Prop where
  reads : s.reads = [.completed none] ∨ s.reads = []
  stopped : s.running = false
  drained : nextFrame s.readBuffer = none

theorem ReadOver.no_op (ho : ReadOver s) {op : ReadOp} {k : ℕ} (hk : s.reads[k]? = some op) :
    op = .completed none := by
  rcases ho.reads with hr | hr
  · exact (only_read hr hk).2
  · exact (no_read hr hk).elim

theorem ReadOver.step (ho : ReadOver s) (hstep : SessionStep s a t es) : ReadOver t := by
  cases hstep with
  | readData hk hp => cases ho.no_op hk
  | readFailed hk => cases ho.no_op hk
  | readBegins hr hk => cases ho.no_op hk
  | readEnds hr hk =>
    refine ⟨.inr ?_, hr, ho.drained⟩
    rcases ho.reads with hreads | hreads
    · obtain ⟨rfl, -⟩ := only_read hreads hk
      simp [hreads]
    · exact (no_read hreads hk).elim
  | answeredIdle hr => cases ho.stopped.symm.trans hr
  | answered hr => cases ho.stopped.symm.trans hr
  | rearmed hr => cases ho.stopped.symm.trans hr
  | _ => exact ⟨ho.reads, ho.stopped, ho.drained⟩

theorem Reader.over (hr : Reader h s) (ho : .disconnected ∈ h → ReadOver s)
    (hstep : SessionStep s a t es) (hmem : .disconnected ∈ h ++ es) : ReadOver t := by
  by_cases hd : .disconnected ∈ h
  · exact (ho hd).step hstep
  have hnew : .disconnected ∈ es := (List.mem_append.mp hmem).resolve_left hd
  cases hstep with
  | @readFailed k hk =>
    cases hr with
    | outstanding hr hrun hn hin =>
      obtain ⟨rfl, -⟩ := only_read hr hk
      exact ⟨.inl (by simp [hr]), hrun, hn⟩
    | arrived hr => cases (only_read hr hk).2
    | handling hr => exact (no_read hr hk).elim
    | ended _ _ hd' => exact absurd hd' hd
  | _ => simp at hnew

end PromiseDemo
