import PromiseDemo.Framework.Transition
import PromiseDemo.Net.Framing

/-!
# The write queue of a connection

`async_writer` is the writing half of `rpclib`'s client and of each session of its server.  A
message stays at the front of the queue until the `async_write` that sends it has ended; a write
that fails leaves it there, and nothing starts the queue again.
-/

namespace PromiseDemo.Rpc

open Transition

/-- `async_writer`.  `writing` counts the bytes of the front message that the `async_write` under
way has handed to the socket. -/
structure AsyncWriter where
  exit : Bool := false
  writeQueue : List Bytes := []
  writing : Option ℕ := none
  deriving DecidableEq, Repr

/-- What happens to a queue.  `transfer` and the two ends of an `async_write` are the doing of
the socket, the other two are calls. -/
inductive WriterAction
  | write (data : Bytes)
  | transfer (count : ℕ)
  | written
  | failed
  | close
  deriving DecidableEq, Repr

inductive WriterEvent
  | queued (data : Bytes)
  | sent (bytes : Bytes)
  | writeFailed
  deriving DecidableEq, Repr

namespace AsyncWriter

/-- `do_write`. -/
def doWrite (w : AsyncWriter) : AsyncWriter :=
  if w.exit then w else { w with writing := some 0 }

/-- `write`. -/
def write (w : AsyncWriter) (data : Bytes) : AsyncWriter :=
  let queue := w.writeQueue ++ [data]
  if 1 < queue.length then { w with writeQueue := queue }
  else doWrite { w with writeQueue := queue }

/-- The handler of an `async_write` that has sent all of its message. -/
def writeDone (w : AsyncWriter) : AsyncWriter :=
  let rest := { w with writeQueue := w.writeQueue.tail, writing := none }
  if rest.writeQueue.length > 0 then
    if rest.exit then rest else doWrite rest
  else rest

def step (w : AsyncWriter) : WriterAction → Option (AsyncWriter × List WriterEvent)
  | .write data => some (w.write data, [.queued data])
  | .transfer count =>
      match w.writing, w.writeQueue with
      | some done, item :: _ =>
          if 0 < count ∧ done + count ≤ item.length then
            some ({ w with writing := some (done + count) },
              [.sent ((item.drop done).take count)])
          else none
      | _, _ => none
  | .written =>
      match w.writing, w.writeQueue with
      | some done, item :: _ => if done = item.length then some (w.writeDone, []) else none
      | _, _ => none
  | .failed => if w.writing.isSome then some ({ w with writing := none }, [.writeFailed]) else none
  | .close => some ({ w with exit := true }, [])

end AsyncWriter

/-- The messages that have been queued. -/
def queuedOf (h : List WriterEvent) : List Bytes :=
  h.filterMap fun e => match e with
    | .queued data => some data
    | _ => none

/-- The bytes that the socket has taken. -/
def sentOfWriter (h : List WriterEvent) : Bytes :=
  h.flatMap fun e => match e with
    | .sent bytes => bytes
    | _ => []

@[simp] theorem queuedOf_append (h k : List WriterEvent) :
    queuedOf (h ++ k) = queuedOf h ++ queuedOf k := List.filterMap_append

@[simp] theorem sentOfWriter_append (h k : List WriterEvent) :
    sentOfWriter (h ++ k) = sentOfWriter h ++ sentOfWriter k := List.flatMap_append

theorem doWrite_exit (w : AsyncWriter) : w.doWrite.exit = w.exit := by
  unfold AsyncWriter.doWrite
  split_ifs <;> rfl

theorem write_exit (w : AsyncWriter) (data : Bytes) : (w.write data).exit = w.exit := by
  unfold AsyncWriter.write
  dsimp only
  split_ifs
  · rfl
  · rw [doWrite_exit]

theorem step_exit {w w' : AsyncWriter} {a : WriterAction} {es : List WriterEvent}
    (ha : a ≠ .close) (hs : w.step a = some (w', es)) : w'.exit = w.exit := by
  cases a with
  | close => exact absurd rfl ha
  | write data =>
    cases hs
    exact write_exit w data
  | transfer count =>
    rw [AsyncWriter.step] at hs
    split at hs
    · rw [Option.ite_none_right_eq_some] at hs
      cases hs.2
      rfl
    · cases hs
  | written =>
    rw [AsyncWriter.step] at hs
    split at hs
    · rw [Option.ite_none_right_eq_some] at hs
      cases hs.2
      unfold AsyncWriter.writeDone
      dsimp only
      split_ifs
      · rfl
      · rw [doWrite_exit]
      · rfl
    · cases hs
  | failed =>
    rw [AsyncWriter.step, Option.ite_none_right_eq_some] at hs
    cases hs.2
    rfl

theorem queuedOf_io {w w' : AsyncWriter} {a : WriterAction} {es : List WriterEvent}
    (ha : ∀ data, a ≠ .write data) (hs : w.step a = some (w', es)) : queuedOf es = [] := by
  cases a with
  | write data => exact absurd rfl (ha data)
  | transfer count =>
    rw [AsyncWriter.step] at hs
    split at hs
    · rw [Option.ite_none_right_eq_some] at hs
      cases hs.2
      rfl
    · cases hs
  | written =>
    rw [AsyncWriter.step] at hs
    split at hs
    · rw [Option.ite_none_right_eq_some] at hs
      cases hs.2
      rfl
    · cases hs
  | failed =>
    rw [AsyncWriter.step, Option.ite_none_right_eq_some] at hs
    cases hs.2
    rfl
  | close =>
    cases hs
    rfl

@[simp] theorem doWrite_writeQueue (w : AsyncWriter) : w.doWrite.writeQueue = w.writeQueue := by
  unfold AsyncWriter.doWrite
  split_ifs <;> rfl

theorem write_writeQueue (w : AsyncWriter) (data : Bytes) :
    (w.write data).writeQueue = w.writeQueue ++ [data] := by
  unfold AsyncWriter.write
  dsimp only
  split_ifs
  · rfl
  · exact doWrite_writeQueue _

theorem writeDone_writeQueue (w : AsyncWriter) : w.writeDone.writeQueue = w.writeQueue.tail := by
  unfold AsyncWriter.writeDone
  dsimp only
  split_ifs
  · rfl
  · exact doWrite_writeQueue _
  · rfl

theorem transfer_events {w w' : AsyncWriter} {count : ℕ} {es : List WriterEvent}
    (hs : w.step (.transfer count) = some (w', es)) :
    (sentOfWriter es).length = count ∧ 0 < count ∧ w'.writeQueue = w.writeQueue := by
  rw [AsyncWriter.step] at hs
  split at hs
  · rw [Option.ite_none_right_eq_some] at hs
    obtain ⟨⟨hpos, hle⟩, heq⟩ := hs
    cases heq
    refine ⟨?_, hpos, rfl⟩
    simp only [sentOfWriter, List.flatMap_cons, List.flatMap_nil, List.append_nil,
      List.length_take, List.length_drop]
    omega
  · cases hs

theorem written_events {w w' : AsyncWriter} {es : List WriterEvent}
    (hs : w.step .written = some (w', es)) :
    es = [] ∧ w'.writeQueue.length + 1 = w.writeQueue.length := by
  rw [AsyncWriter.step] at hs
  split at hs
  · next done item rest _ hqueue =>
    rw [Option.ite_none_right_eq_some] at hs
    cases hs.2
    rw [writeDone_writeQueue, hqueue]
    exact ⟨rfl, rfl⟩
  · cases hs

/-- What a queue has done after history `h`: the messages gone are sent whole, and of the front
message what the write under way has handed over. -/
structure Queue (h : List WriterEvent) (w : AsyncWriter) : Prop where
  sent : ∃ gone part, queuedOf h = gone ++ w.writeQueue ∧ sentOfWriter h = gone.flatten ++ part ∧
    part <+: w.writeQueue.headD [] ∧ ∀ done, w.writing = some done → part.length = done
  front : w.writing.isSome = true → w.writeQueue ≠ []
  busy : w.exit = false → .writeFailed ∉ h → w.writeQueue ≠ [] → w.writing.isSome = true
  stalled : .writeFailed ∈ h → w.writing = none ∧ w.writeQueue ≠ []

namespace Queue

variable {h : List WriterEvent} {w w' : AsyncWriter}

theorem init : Queue [] {} :=
  ⟨⟨[], [], rfl, rfl, List.nil_prefix, nofun⟩, nofun, by simp, by simp⟩

theorem write (hq : Queue h w) (data : Bytes) : Queue (h ++ [.queued data]) (w.write data) := by
  obtain ⟨gone, part, hqueued, hsent, hpart, hdone⟩ := hq.sent
  have hqueued' : queuedOf (h ++ [.queued data]) = gone ++ (w.writeQueue ++ [data]) := by
    rw [queuedOf_append, hqueued, List.append_assoc]
    rfl
  have hsent' : sentOfWriter (h ++ [.queued data]) = gone.flatten ++ part := by
    rw [sentOfWriter_append, hsent]
    simp [sentOfWriter]
  have hfailed : .writeFailed ∈ h ++ [WriterEvent.queued data] ↔ .writeFailed ∈ h := by simp
  cases hqueue : w.writeQueue with
  | nil =>
    have hnone : w.writing = none := by
      by_contra hsome
      exact hq.front (Option.isSome_iff_ne_none.mpr hsome) hqueue
    rw [hqueue] at hpart hqueued'
    have hnil : part = [] := List.prefix_nil.mp hpart
    have hwrite : w.write data = AsyncWriter.doWrite { w with writeQueue := [data] } := by
      simp [AsyncWriter.write, hqueue]
    rw [hwrite, AsyncWriter.doWrite]
    have hok : .writeFailed ∉ h := fun hf => (hq.stalled hf).2 hqueue
    subst hnil
    split_ifs with hexit
    · refine ⟨⟨gone, [], hqueued', hsent', List.nil_prefix, ?_⟩, ?_, ?_, ?_⟩
      · intro done hd
        cases hnone.symm.trans hd
      · intro hsome
        simp
      · intro hno
        cases hexit.symm.trans hno
      · intro hf
        exact absurd (hfailed.mp hf) hok
    · refine ⟨⟨gone, [], hqueued', hsent', List.nil_prefix, ?_⟩, ?_, ?_, ?_⟩
      · intro done hd
        cases hd
        rfl
      · intro _
        simp
      · intro _ _ _
        rfl
      · intro hf
        exact absurd (hfailed.mp hf) hok
  | cons item rest =>
    have hwrite : w.write data = { w with writeQueue := w.writeQueue ++ [data] } := by
      simp [AsyncWriter.write, hqueue]
    rw [hqueue] at hpart
    rw [hwrite]
    refine ⟨⟨gone, part, hqueued', hsent', ?_, hdone⟩, ?_, ?_, ?_⟩
    · rw [hqueue]
      exact hpart
    · intro _
      simp
    · intro hexit hok _
      exact hq.busy hexit (fun hf => hok (hfailed.mpr hf)) (by simp [hqueue])
    · intro hf
      exact ⟨(hq.stalled (hfailed.mp hf)).1, by simp⟩

theorem step (hq : Queue h w) {a : WriterAction} {es : List WriterEvent}
    (hs : w.step a = some (w', es)) : Queue (h ++ es) w' := by
  obtain ⟨gone, part, hqueued, hsent, hpart, hdone⟩ := hq.sent
  cases a with
  | write data =>
    cases hs
    exact hq.write data
  | transfer count =>
    rw [AsyncWriter.step] at hs
    split at hs
    · next done item rest hwriting hqueue =>
      rw [Option.ite_none_right_eq_some] at hs
      obtain ⟨⟨hpos, hle⟩, hs⟩ := hs
      cases hs
      have hlen : part.length = done := hdone done hwriting
      rw [hqueue, List.headD_cons, List.prefix_iff_eq_take, hlen] at hpart
      have hok : .writeFailed ∉ h := by
        intro hf
        rw [(hq.stalled hf).1] at hwriting
        cases hwriting
      refine ⟨⟨gone, part ++ (item.drop done).take count, ?_, ?_, ?_, ?_⟩, ?_, ?_, ?_⟩
      · simpa [queuedOf] using hqueued
      · rw [sentOfWriter_append, hsent, List.append_assoc]
        simp [sentOfWriter]
      · rw [hqueue, List.headD_cons, hpart, ← List.take_add]
        exact List.take_prefix _ _
      · intro d hd
        cases hd
        rw [List.length_append, List.length_take, List.length_drop, hlen]
        omega
      · intro _
        simp [hqueue]
      · intro _ _ _
        rfl
      · intro hf
        simp at hf
        exact absurd hf hok
    · cases hs
  | written =>
    rw [AsyncWriter.step] at hs
    split at hs
    · next done item rest hwriting hqueue =>
      rw [Option.ite_none_right_eq_some] at hs
      obtain ⟨hall, hs⟩ := hs
      cases hs
      have hlen : part.length = done := hdone done hwriting
      rw [hqueue, List.headD_cons] at hpart
      have hpartall : part = item := hpart.eq_of_length (hlen.trans hall)
      have hok : .writeFailed ∉ h := by
        intro hf
        rw [(hq.stalled hf).1] at hwriting
        cases hwriting
      rw [List.append_nil]
      have hqueued' : queuedOf h = gone ++ [item] ++ rest := by
        rw [hqueued, hqueue, List.append_assoc, List.singleton_append]
      have hsent' : sentOfWriter h = (gone ++ [item]).flatten ++ [] := by
        rw [hsent, hpartall]
        simp
      have hdef : w.writeDone = if 0 < rest.length then
          if w.exit then { w with writeQueue := rest, writing := none }
          else { w with writeQueue := rest, writing := some 0 }
          else { w with writeQueue := rest, writing := none } := by
        simp only [AsyncWriter.writeDone, hqueue, List.tail_cons, AsyncWriter.doWrite]
        split_ifs <;> rfl
      rw [hdef]
      split_ifs with hmore hexit
      · refine ⟨⟨gone ++ [item], [], hqueued', hsent', List.nil_prefix, nofun⟩, nofun, ?_, ?_⟩
        · intro hno
          cases hexit.symm.trans hno
        · intro hf
          exact absurd hf hok
      · refine ⟨⟨gone ++ [item], [], hqueued', hsent', List.nil_prefix, ?_⟩, ?_, ?_, ?_⟩
        · intro d hd
          cases hd
          rfl
        · intro _
          exact List.ne_nil_of_length_pos hmore
        · intro _ _ _
          rfl
        · intro hf
          exact absurd hf hok
      · have hnil : rest = [] := List.length_eq_zero_iff.mp (by omega)
        refine ⟨⟨gone ++ [item], [], hqueued', hsent', List.nil_prefix, nofun⟩, nofun, ?_, ?_⟩
        · intro _ _ hne
          exact absurd hnil hne
        · intro hf
          exact absurd hf hok
    · cases hs
  | failed =>
    rw [AsyncWriter.step, Option.ite_none_right_eq_some] at hs
    obtain ⟨hwriting, hs⟩ := hs
    cases hs
    refine ⟨⟨gone, part, ?_, ?_, hpart, nofun⟩, nofun, ?_, ?_⟩
    · simpa [queuedOf] using hqueued
    · simpa [sentOfWriter] using hsent
    · intro _ hok
      simp at hok
    · intro _
      exact ⟨rfl, hq.front hwriting⟩
  | close =>
    cases hs
    rw [List.append_nil]
    exact ⟨⟨gone, part, hqueued, hsent, hpart, hdone⟩, hq.front, nofun, hq.stalled⟩

/-- What is sent is a front of the messages in the order of their queuing. -/
theorem sent_prefix (hq : Queue h w) : sentOfWriter h <+: (queuedOf h).flatten := by
  obtain ⟨gone, part, hqueued, hsent, hpart, -⟩ := hq.sent
  rw [hqueued, hsent, List.flatten_append, List.prefix_append_right_inj]
  cases hqueue : w.writeQueue with
  | nil =>
    rw [hqueue] at hpart
    rw [List.prefix_nil.mp hpart]
    exact List.nil_prefix
  | cons item rest =>
    rw [hqueue, List.headD_cons] at hpart
    exact hpart.trans (List.prefix_append _ _)

theorem sent_all (hq : Queue h w) (hrest : w.writing = none) (hexit : w.exit = false)
    (hok : .writeFailed ∉ h) : sentOfWriter h = (queuedOf h).flatten := by
  have hempty : w.writeQueue = [] := by
    by_contra hne
    have hbusy := hq.busy hexit hok hne
    rw [hrest] at hbusy
    cases hbusy
  obtain ⟨gone, part, hqueued, hsent, hpart, -⟩ := hq.sent
  rw [hempty] at hpart hqueued
  rw [hsent, hqueued, List.prefix_nil.mp hpart, List.append_nil, List.append_nil]

theorem idle (hq : Queue h w) (htransfer : w.step (.transfer 1) = none)
    (hwritten : w.step .written = none) : w.writing = none := by
  by_contra hbusy
  obtain ⟨done, hdone⟩ := Option.ne_none_iff_exists'.mp hbusy
  obtain ⟨item, rest, hqueue⟩ := List.exists_cons_of_ne_nil (hq.front (by rw [hdone]; rfl))
  obtain ⟨gone, part, -, -, hpart, hlen⟩ := hq.sent
  have hle : done ≤ item.length := by
    rw [hqueue, List.headD_cons] at hpart
    rw [← hlen done hdone]
    exact hpart.length_le
  rcases hle.lt_or_eq with hlt | heq
  · rw [AsyncWriter.step, hdone, hqueue] at htransfer
    simp only [if_pos (⟨by omega, by omega⟩ : 0 < 1 ∧ done + 1 ≤ item.length)] at htransfer
    cases htransfer
  · rw [AsyncWriter.step, hdone, hqueue] at hwritten
    simp only [if_pos heq] at hwritten
    cases hwritten

end Queue

theorem stalled_step {w w' : AsyncWriter} {a : WriterAction} {es : List WriterEvent}
    (hstall : w.writing = none ∧ w.writeQueue ≠ []) (hs : w.step a = some (w', es)) :
    (w'.writing = none ∧ w'.writeQueue = w.writeQueue ++ queuedOf es) ∧ sentOfWriter es = [] := by
  obtain ⟨hnone, hne⟩ := hstall
  cases a with
  | write data =>
    cases hs
    have hlong : 1 < (w.writeQueue ++ [data]).length := by
      have := List.length_pos_of_ne_nil hne
      rw [List.length_append, List.length_singleton]
      omega
    rw [AsyncWriter.write, if_pos hlong]
    exact ⟨⟨hnone, rfl⟩, rfl⟩
  | transfer count => simp [AsyncWriter.step, hnone] at hs
  | written => simp [AsyncWriter.step, hnone] at hs
  | failed => simp [AsyncWriter.step, hnone] at hs
  | close =>
    cases hs
    exact ⟨⟨hnone, (List.append_nil _).symm⟩, rfl⟩

theorem stalled_run {w w' : AsyncWriter} {h : List WriterEvent}
    (hstall : w.writing = none ∧ w.writeQueue ≠ [])
    (hrun : Run AsyncWriter.step anyAction w h w') :
    (w'.writing = none ∧ w'.writeQueue = w.writeQueue ++ queuedOf h) ∧ sentOfWriter h = [] := by
  induction hrun with
  | refl => exact ⟨⟨hstall.1, (List.append_nil _).symm⟩, rfl⟩
  | @tail h t u a es _ _ hs ih =>
    obtain ⟨⟨hnone, hqueue⟩, hsent⟩ := ih
    have hne : t.writeQueue ≠ [] := hqueue ▸ List.append_ne_nil_of_left_ne_nil hstall.2 _
    obtain ⟨⟨hnone', hqueue'⟩, hsent'⟩ := stalled_step ⟨hnone, hne⟩ hs
    refine ⟨⟨hnone', ?_⟩, ?_⟩
    · rw [hqueue', hqueue, queuedOf_append, List.append_assoc]
    · rw [sentOfWriter_append, hsent, hsent', List.append_nil]

theorem failed_event {w w' : AsyncWriter} {a : WriterAction} {es₁ es₂ : List WriterEvent}
    (hs : w.step a = some (w', es₁ ++ .writeFailed :: es₂)) : a = .failed ∧ es₂ = [] := by
  cases a with
  | failed =>
    rw [AsyncWriter.step, Option.ite_none_right_eq_some] at hs
    obtain ⟨-, heq⟩ := hs
    exact ⟨rfl, (single_event (Prod.mk.inj (Option.some.inj heq)).2).2⟩
  | write data =>
    have hes := (Prod.mk.inj (Option.some.inj hs)).2
    obtain ⟨rfl, -⟩ := single_event hes
    cases hes
  | transfer count =>
    rw [AsyncWriter.step] at hs
    split at hs
    · rw [Option.ite_none_right_eq_some] at hs
      have hes := (Prod.mk.inj (Option.some.inj hs.2)).2
      obtain ⟨rfl, -⟩ := single_event hes
      cases hes
    · cases hs
  | written =>
    rw [AsyncWriter.step] at hs
    split at hs
    · rw [Option.ite_none_right_eq_some] at hs
      have hes := (Prod.mk.inj (Option.some.inj hs.2)).2
      simp at hes
    · cases hs
  | close =>
    have hes := (Prod.mk.inj (Option.some.inj hs)).2
    simp at hes

theorem queue_of_run {h : List WriterEvent} {w : AsyncWriter}
    (hrun : Run AsyncWriter.step anyAction {} h w) : Queue h w :=
  hrun.invariant .init fun hq _ hs => hq.step hs

/-- After a failure the queue is what it was then and what has been queued since. -/
structure Stalled (before after : List WriterEvent) (w : AsyncWriter) : Prop where
  sent : sentOfWriter after = []
  queue : ∃ gone kept part, queuedOf before = gone ++ kept ∧ kept ≠ [] ∧
    sentOfWriter before = gone.flatten ++ part ∧ part <+: kept.headD [] ∧
    w.writeQueue = kept ++ queuedOf after

theorem stalled_of_failed {h before after : List WriterEvent} {w : AsyncWriter}
    (hrun : Run AsyncWriter.step anyAction {} h w) (heq : h = before ++ .writeFailed :: after) :
    Stalled before after w := by
  obtain ⟨h₁, t, a, es₁, es₂, t', h₂, hrun₁, hs, hrun₂, rfl, rfl⟩ := hrun.split heq
  obtain ⟨rfl, rfl⟩ := failed_event hs
  rw [AsyncWriter.step, Option.ite_none_right_eq_some] at hs
  obtain ⟨hwriting, hs⟩ := hs
  obtain ⟨ht', hes⟩ := Prod.mk.inj (Option.some.inj hs)
  obtain rfl : es₁ = [] := (single_event hes).1
  have hqueue := queue_of_run hrun₁
  have hne : t.writeQueue ≠ [] := hqueue.front hwriting
  obtain ⟨⟨-, hqueued⟩, hsent⟩ := stalled_run (w := t') ⟨by rw [← ht'], by rwa [← ht']⟩ hrun₂
  rw [← ht'] at hqueued
  obtain ⟨gone, part, hgone, hpart, hfront, -⟩ := hqueue.sent
  rw [List.append_nil, List.nil_append]
  exact ⟨hsent, gone, t.writeQueue, part, hgone, hne, hpart, hfront, hqueued⟩

/-- Whole messages reach the socket in the order in which they are queued.  A write that fails is
the end of it: nothing is sent after it, and the message that it was about, those behind it and
those queued later stay in the queue for good. -/
theorem writer_order {h : List WriterEvent} {w : AsyncWriter}
    (hrun : Run AsyncWriter.step anyAction {} h w) :
    sentOfWriter h <+: (queuedOf h).flatten ∧
      (w.writing = none → w.exit = false → .writeFailed ∉ h →
        sentOfWriter h = (queuedOf h).flatten) ∧
      ∀ before after, h = before ++ .writeFailed :: after → Stalled before after w := by
  have hqueue := queue_of_run hrun
  refine ⟨hqueue.sent_prefix, fun hrest hexit hok => hqueue.sent_all hrest hexit hok, ?_⟩
  intro before after heq
  exact stalled_of_failed hrun heq

/-- Two messages; the write of the first one fails after its first byte. -/
theorem writer_order_failed :
    sentOfWriter [.queued [1, 2], .sent [1], .writeFailed, .queued [3]] <+:
        (queuedOf [.queued [1, 2], .sent [1], .writeFailed, .queued [3]]).flatten ∧
      ((⟨false, [[1, 2], [3]], none⟩ : AsyncWriter).writing = none →
        (⟨false, [[1, 2], [3]], none⟩ : AsyncWriter).exit = false →
        .writeFailed ∉ [.queued [1, 2], .sent [1], .writeFailed, WriterEvent.queued [3]] →
        sentOfWriter [.queued [1, 2], .sent [1], .writeFailed, .queued [3]] =
          (queuedOf [.queued [1, 2], .sent [1], .writeFailed, .queued [3]]).flatten) ∧
      ∀ before after,
        [.queued [1, 2], .sent [1], .writeFailed, .queued [3]] = before ++ .writeFailed :: after →
        Stalled before after ⟨false, [[1, 2], [3]], none⟩ :=
  writer_order (Run.of_actions AsyncWriter.step anyAction {}
    [.write [1, 2], .transfer 1, .failed, .write [3]] rfl)

end PromiseDemo.Rpc
