import PromiseDemo.Server.AsioSession

/-!
# One write at a time

The idle test of `queue_write`, the pop in the handler of a write and the restart after it keep
at most one `async_write` outstanding, on the front of `write_queue_`, until a write fails.
-/

namespace PromiseDemo

open Transition

variable {h es : List ServerEvent} {s t : Session} {a : SessionAction}

/-- What is still to be sent of the write in progress and of the replies behind it. -/
def Session.unsent (s : Session) : Bytes :=
  (s.writes.map fun op => op.data.drop op.sent).flatten ++ s.writeQueue.tail.flatten

/-- The write side of a session after history `h`. -/
inductive Writer (h : List ServerEvent) (s : Session) : Prop
  | idle (hw : s.writes = []) (hq : s.writeQueue = []) (hf : .writeFailed ∉ h)
      (hsent : sentBytes h = replies (requestsOf h))
  | busy {op : WriteOp} {rest : List Bytes} (hw : s.writes = [op])
      (hq : s.writeQueue = op.data :: rest) (hle : op.sent ≤ op.data.length)
      (hall : op.outcome = some true → op.sent = op.data.length)
      (hf : op.outcome = some false ↔ .writeFailed ∈ h)
      (hsent : sentBytes h ++ (op.data.drop op.sent ++ rest.flatten) = replies (requestsOf h))
  | failed {front lost : Bytes} {rest : List Bytes} (hw : s.writes = [])
      (hq : s.writeQueue = front :: rest) (hf : .writeFailed ∈ h)
      (hsent : sentBytes h ++ (lost ++ rest.flatten) = replies (requestsOf h))

/-- After a failed write no write is started. -/
def NoRestart (h : List ServerEvent) : Prop :=
  ∀ before after, h = before ++ .writeFailed :: after → ∀ data, .started data ∉ after

theorem NoRestart.append (hn : NoRestart h) (hold : .writeFailed ∈ h → ∀ data, .started data ∉ es)
    (hnew : NoRestart es) : NoRestart (h ++ es) := by
  intro before after heq data hmem
  rcases split_event heq with ⟨rest, rfl, rfl⟩ | ⟨front, -, hes⟩
  · rcases List.mem_append.mp hmem with hmem | hmem
    · exact hn before rest rfl data hmem
    · exact hold (by simp) data hmem
  · exact hnew front after hes data hmem

theorem Writer.start : Writer [] Session.start := .idle rfl rfl (by simp) rfl

theorem Writer.congr (hw : Writer h s) (hwrites : t.writes = s.writes)
    (hqueue : t.writeQueue = s.writeQueue) (hsent : sentBytes es = []) (hreq : requestsOf es = [])
    (hfail : ServerEvent.writeFailed ∉ es) : Writer (h ++ es) t := by
  have hmem : ServerEvent.writeFailed ∈ h ++ es ↔ .writeFailed ∈ h := by simp [hfail]
  have hs : sentBytes (h ++ es) = sentBytes h := by simp [hsent]
  have hr : requestsOf (h ++ es) = requestsOf h := by simp [hreq]
  cases hw with
  | idle hw hq hf hsent =>
    exact .idle (hwrites.trans hw) (hqueue.trans hq) (mt hmem.mp hf) (by rw [hs, hr, hsent])
  | busy hw hq hle hall hf hsent =>
    exact .busy (hwrites.trans hw) (hqueue.trans hq) hle hall (hf.trans hmem.symm)
      (by rw [hs, hr, hsent])
  | failed hw hq hf hsent =>
    exact .failed (hwrites.trans hw) (hqueue.trans hq) (hmem.mpr hf) (by rw [hs, hr, hsent])

/-- The only operation there is. -/
theorem only_op {ops : List WriteOp} {op op' : WriteOp} {k : ℕ} (hw : ops = [op])
    (hk : ops[k]? = some op') : k = 0 ∧ op' = op := by
  subst hw
  cases k with
  | zero => exact ⟨rfl, (Option.some.inj hk).symm⟩
  | succ k => simp at hk

theorem no_op {ops : List WriteOp} {op : WriteOp} {k : ℕ} (hw : ops = [])
    (hk : ops[k]? = some op) : False := by
  subst hw
  simp at hk

theorem Writer.step (hw : Writer h s) (hstep : SessionStep s a t es) : Writer (h ++ es) t := by
  cases hstep with
  | readData hk hp => exact hw.congr rfl rfl rfl rfl (by simp)
  | readFailed hk => exact hw.congr rfl rfl rfl rfl (by simp)
  | readBegins hr hk => exact hw.congr rfl rfl rfl rfl (by simp)
  | readEnds hr hk => exact hw.congr rfl rfl rfl rfl (by simp)
  | rearmed hr hn => exact hw.congr rfl rfl rfl rfl (by simp)
  | @answeredIdle request rest hr hn hq =>
    cases hw with
    | idle hw _ hf hsent =>
      refine @Writer.busy _ _ { data := reply request } [] (by simp [hw]) rfl
        (Nat.zero_le _) (fun ho => nomatch ho) (by simpa using hf) ?_
      simp [hsent]
    | busy _ hq' => simp [hq] at hq'
    | failed _ hq' => simp [hq] at hq'
  | @answered request rest hr hn hq =>
    cases hw with
    | idle _ hq' => exact absurd hq' hq
    | @busy op queue hw hq' hle hall hf hsent =>
      refine @Writer.busy _ _ op (queue ++ [reply request]) hw (by simp [hq']) hle hall
        (by simpa using hf) ?_
      simp [← hsent]
    | @failed front lost queue hw hq' hf hsent =>
      refine @Writer.failed _ _ front lost (queue ++ [reply request]) hw
        (by simp [hq']) (by simpa using hf) ?_
      simp [← hsent]
  | @wrote k n op hk ho hopen hn hle =>
    cases hw with
    | idle hw => exact (no_op hw hk).elim
    | @busy op' queue hw hq hle' hall hf hsent =>
      obtain ⟨rfl, rfl⟩ := only_op hw hk
      refine @Writer.busy _ _ { op with sent := op.sent + n } _ (by simp [hw]) hq (by simp; omega)
        (fun ho' => nomatch ho.symm.trans ho') (by simpa using hf) ?_
      simpa using accepted_stream n hsent
    | failed hw => exact (no_op hw hk).elim
  | @writeDone k op hk ho hall =>
    cases hw with
    | idle hw => exact (no_op hw hk).elim
    | @busy op' queue hw hq hle _ hf hsent =>
      obtain ⟨rfl, rfl⟩ := only_op hw hk
      refine @Writer.busy _ _ { op with outcome := some true } _ (by simp [hw]) hq hle (fun _ => hall)
        ?_ (by simpa using hsent)
      simpa [ho] using hf
    | failed hw => exact (no_op hw hk).elim
  | @writeFailed k op hk ho =>
    cases hw with
    | idle hw => exact (no_op hw hk).elim
    | @busy op' queue hw hq hle _ hf hsent =>
      obtain ⟨rfl, rfl⟩ := only_op hw hk
      exact @Writer.busy _ _ { op with outcome := some false } _ (by simp [hw]) hq hle
        (fun ho' => nomatch ho') (by simp) (by simpa using hsent)
    | failed hw => exact (no_op hw hk).elim
  | @poppedLast k op front hr hk ho hq =>
    cases hw with
    | idle hw => exact (no_op hw hk).elim
    | @busy op' queue hw hq' hle hall hf hsent =>
      obtain ⟨rfl, rfl⟩ := only_op hw hk
      obtain ⟨rfl, rfl⟩ := List.cons.inj (hq'.symm.trans hq)
      refine .idle (by simp [hw]) rfl ?_ ?_
      · simpa [ho] using hf
      · simpa [hall ho] using hsent
    | failed hw => exact (no_op hw hk).elim
  | @popped k op front next rest hr hk ho hq =>
    cases hw with
    | idle hw => exact (no_op hw hk).elim
    | @busy op' queue hw hq' hle hall hf hsent =>
      obtain ⟨rfl, rfl⟩ := only_op hw hk
      obtain ⟨rfl, rfl⟩ := List.cons.inj (hq'.symm.trans hq)
      refine @Writer.busy _ _ { data := next } _ (by simp [hw]) rfl (Nat.zero_le _)
        (fun ho' => nomatch ho') ?_ ?_
      · simpa [ho] using hf
      · simpa [hall ho] using hsent
    | failed hw => exact (no_op hw hk).elim
  | @closed k op hr hk ho =>
    cases hw with
    | idle hw => exact (no_op hw hk).elim
    | @busy op' queue hw hq hle hall hf hsent =>
      obtain ⟨rfl, rfl⟩ := only_op hw hk
      exact @Writer.failed _ _ _ (op.data.drop op.sent) _ (by simp [hw]) hq (by simpa using hf.mp ho)
        (by simpa using hsent)
    | failed hw => exact (no_op hw hk).elim

theorem NoRestart.step (hn : NoRestart h) (hw : Writer h s) (hstep : SessionStep s a t es) :
    NoRestart (h ++ es) := by
  apply hn.append
  · intro hf data
    cases hstep with
    | answeredIdle hr hn hq =>
      -- an empty queue means that no write has failed
      cases hw with
      | idle _ _ hnf => exact absurd hf hnf
      | busy _ hq' => simp [hq] at hq'
      | failed _ hq' => simp [hq] at hq'
    | popped hr hk ho hq =>
      cases hw with
      | idle hw => exact (no_op hw hk).elim
      | busy hw _ _ _ hf' =>
        obtain ⟨-, rfl⟩ := only_op hw hk
        cases ho.symm.trans (hf'.mpr hf)
      | failed hw => exact (no_op hw hk).elim
    | _ => simp
  · intro before after heq data hmem
    have hstart : ServerEvent.started data ∈ es := by simp [heq, hmem]
    have hfail : ServerEvent.writeFailed ∈ es := by simp [heq]
    cases hstep <;> simp at hstart hfail

/-- The writes of a session.  In every run, with read completions of any kind and write completions
after any part of the data: at most one write is outstanding; until a write fails, one is
outstanding exactly when the queue is not empty, on the front of the queue, and nothing of the
replies is lost or repeated; what has been sent always begins the replies to the requests decoded;
and after a failed write no write is started. -/
theorem session_single_writer (hrun : Run Session.step anyAction Session.start h s) :
    s.writes.length ≤ 1 ∧
    (.writeFailed ∉ h → (s.writes ≠ [] ↔ s.writeQueue ≠ []) ∧
      (∀ op ∈ s.writes, s.writeQueue.head? = some op.data) ∧
      sentBytes h ++ s.unsent = replies (requestsOf h)) ∧
    sentBytes h <+: replies (requestsOf h) ∧
    ∀ before after, h = before ++ .writeFailed :: after → ∀ data, .started data ∉ after := by
  have hinv : Writer h s ∧ NoRestart h := by
    apply hrun.invariant (I := fun h s => Writer h s ∧ NoRestart h)
    · exact ⟨.start, fun before after heq => by simp at heq⟩
    · intro h s t a es hI _ hs
      have hstep := SessionStep.of_step hs
      exact ⟨hI.1.step hstep, hI.2.step hI.1 hstep⟩
  obtain ⟨hw, hn⟩ := hinv
  refine ⟨?_, ?_, ?_, hn⟩
  · cases hw with
    | idle hw => simp [hw]
    | busy hw => simp [hw]
    | failed hw => simp [hw]
  · intro hnf
    cases hw with
    | idle hw hq _ hsent => simp [hw, hq, Session.unsent, hsent]
    | busy hw hq _ _ _ hsent => simp [hw, hq, Session.unsent, hsent]
    | failed _ _ hf => exact absurd hf hnf
  · cases hw with
    | idle _ _ _ hsent => rw [hsent]
    | busy _ _ _ _ _ hsent => exact ⟨_, hsent⟩
    | failed _ _ _ hsent => exact ⟨_, hsent⟩

/-- Two requests arrive in one chunk; the first reply fails after five bytes. -/
theorem session_single_writer_failed :
    let q := afterAll Session.step anyAction Session.start
      [.readCompletes 0 (.data (encodeFrame 1 [7] ++ encodeFrame 2 [8])), .runRead 0, .drain,
        .drain, .drain, .writeSome 0 5, .writeCompletes 0 false, .runWrite 0]
    q.1.writeQueue.length = 2 ∧ q.1.writes.length ≤ 1 ∧
      sentBytes q.2 <+: replies (requestsOf q.2) := by
  intro q
  have h := session_single_writer (Run.of_actions Session.step anyAction Session.start
    [.readCompletes 0 (.data (encodeFrame 1 [7] ++ encodeFrame 2 [8])), .runRead 0, .drain,
      .drain, .drain, .writeSome 0 5, .writeCompletes 0 false, .runWrite 0] (by decide))
  exact ⟨by decide, h.1, h.2.2.1⟩

end PromiseDemo
