import PromiseDemo.Net.FrameGrammar
import PromiseDemo.Net.Stream
import PromiseDemo.Server.AsioSession
import PromiseDemo.Server.SelectConnection
import Mathlib.Logic.Relation

/-!
# The drain loops of the servers end

The loop `while (try_decode_frame(read_buffer, id, request))` has no bound of its own: it ends
because every decode takes at least the eight bytes of a header off the buffer.
-/

namespace PromiseDemo

open Transition PrefixCode

/-- One successful evaluation of the loop test. -/
def Decodes (args args' : DecodeArgs) : Prop := tryDecodeFrame args = (true, args')

/-- Steps taken while the read handler of a session runs. -/
def whileRunning (s : Session) (_ : SessionAction) : Prop := s.running = true

instance (s : Session) (a : SessionAction) : Decidable (whileRunning s a) :=
  inferInstanceAs (Decidable (s.running = true))

/-- Steps of the loop body of a connection, without the return to it. -/
def sameVisit (_ : SelectConnection) (a : SelectAction) : Prop := ∀ ready, a ≠ .visit ready

instance (c : SelectConnection) (a : SelectAction) : Decidable (sameVisit c a) :=
  inferInstanceAs (Decidable (∀ ready, a ≠ .visit ready))

/-- Both servers are done with a read buffer after at most as many decodes as it has headers. -/
structure EndsInTime (args : DecodeArgs) : Prop where
  consumes : ∀ a b, Relation.ReflTransGen Decodes args a → Decodes a b →
    b.buffer.length + 8 ≤ a.buffer.length
  iterations : ∃ requests out,
    drainLoop (args.buffer.length / 8 + 1) args = some (requests, out)
  /-- The handler runs to its end, whatever completes meanwhile. -/
  handler : ∀ s : Session, s.running = true → s.readBuffer = args.buffer → ∀ as t es,
    exec Session.step whileRunning s as = some (t, es) →
      as.countP (· == .drain) ≤ args.buffer.length / 8 + 1 ∧
      (t.running = true → (t.step .drain).isSome = true)
  /-- The thread leaves the connection, whatever `::send` returns. -/
  visit : ∀ as c es,
    exec SelectConnection.step sameVisit ⟨args.buffer, .drain⟩ as = some (c, es) →
      as.length ≤ 3 * args.buffer.length + 1 ∧
      (c.phase = .elsewhere ∨ ∃ a, sameVisit c a ∧ (c.step a).isSome = true)

variable {args args' : DecodeArgs}

theorem Decodes.next (hd : Decodes args args') :
    nextFrame args.buffer = some (⟨args'.id, args'.payload⟩, args'.buffer) := by
  cases hn : nextFrame args.buffer with
  | none =>
    rw [Decodes, tryDecodeFrame_of_nextFrame_none hn] at hd
    cases hd
  | some q =>
    rw [Decodes, tryDecodeFrame_of_nextFrame hn] at hd
    cases hd
    rfl

theorem Decodes.declares (hsteps : Relation.ReflTransGen Decodes args args')
    (hd : Declares (2 ^ 32 - 8) args.buffer) : Declares (2 ^ 32 - 8) args'.buffer := by
  induction hsteps with
  | refl => exact hd
  | tail _ hstep ih => exact (ih.next le_rfl (Decodes.next hstep)).1

theorem drainLoop_ends {n : ℕ} (hd : Declares (2 ^ 32 - 8) args.buffer)
    (hn : args.buffer.length / 8 ≤ n) : ∃ requests out, drainLoop (n + 1) args = some (requests, out) := by
  induction n generalizing args with
  | zero =>
    have hnone : nextFrame args.buffer = none := nextFrame_waits (.inl (by omega)) (.inr (by omega))
    exact ⟨[], args, by rw [drainLoop, tryDecodeFrame_of_nextFrame_none hnone]⟩
  | succ n ih =>
    cases hnext : nextFrame args.buffer with
    | none => exact ⟨[], args, by rw [drainLoop, tryDecodeFrame_of_nextFrame_none hnext]⟩
    | some q =>
      obtain ⟨f, r⟩ := q
      obtain ⟨hr, -, hlen⟩ := hd.next le_rfl hnext
      obtain ⟨requests, out, hloop⟩ := @ih ⟨r, f.id, f.payload⟩ hr (by dsimp only; omega)
      refine ⟨f :: requests, out, ?_⟩
      rw [drainLoop, tryDecodeFrame_of_nextFrame hnext]
      simp only [hloop, Option.map_some]

/-! ## The read handler -/

/-- The evaluations of the loop test that the running handler has still to make. -/
def Session.testsLeft (s : Session) : ℕ :=
  if s.running then s.readBuffer.length / 8 + 1 else 0

theorem Session.testsLeft_running {s : Session} (h : s.running = true) :
    s.testsLeft = s.readBuffer.length / 8 + 1 := if_pos h

theorem testsLeft_step {s t : Session} {a : SessionAction} {es : List ServerEvent}
    (hd : Declares (2 ^ 32 - 8) s.readBuffer) (hrun : s.running = true)
    (hstep : SessionStep s a t es) :
    Declares (2 ^ 32 - 8) t.readBuffer ∧
      t.testsLeft + (if a == .drain then 1 else 0) ≤ s.testsLeft := by
  have stopped : s.running ≠ false := by simp [hrun]
  cases hstep with
  | readBegins hr => exact absurd hr stopped
  | readEnds hr => exact absurd hr stopped
  | poppedLast hr => exact absurd hr stopped
  | popped hr => exact absurd hr stopped
  | closed hr => exact absurd hr stopped
  | answeredIdle _ hn hq =>
    obtain ⟨hr, -, hlen⟩ := hd.next le_rfl hn
    refine ⟨hr, ?_⟩
    simp only [Session.testsLeft, hrun, if_true, beq_self_eq_true]
    omega
  | answered _ hn hq =>
    obtain ⟨hr, -, hlen⟩ := hd.next le_rfl hn
    refine ⟨hr, ?_⟩
    simp only [Session.testsLeft, hrun, if_true, beq_self_eq_true]
    omega
  | rearmed _ hn => exact ⟨hd, by simp [Session.testsLeft, hrun]⟩
  | readData hk hp => exact ⟨hd, le_rfl⟩
  | readFailed hk => exact ⟨hd, le_rfl⟩
  | wrote hk ho hopen hn hle => exact ⟨hd, le_rfl⟩
  | writeDone hk ho hsent => exact ⟨hd, le_rfl⟩
  | writeFailed hk ho => exact ⟨hd, le_rfl⟩

theorem drain_isSome {s : Session} (hrun : s.running = true) : (s.step .drain).isSome = true := by
  cases hn : nextFrame s.readBuffer with
  | none => rw [drain_rearms hrun hn, Option.isSome_some]
  | some q =>
    obtain ⟨t, rs, hstep, -⟩ := drain_decodes hrun hn
    rw [hstep, Option.isSome_some]

/-! ## The loop body of a connection -/

/-- A bound on the steps that the thread has still to take at a connection. -/
def SelectConnection.stepsLeft (c : SelectConnection) : ℕ :=
  match c.phase with
  | .drain => 3 * c.readBuffer.length + 1
  | .echo request sent =>
      (echoFrame request).length - sent + (endFrame request).length + 3 * c.readBuffer.length + 3
  | .finish request sent => (endFrame request).length - sent + 3 * c.readBuffer.length + 2
  | _ => 0

/-- At a connection, past its `recv`. -/
def SelectConnection.Answering (c : SelectConnection) : Prop :=
  Declares (2 ^ 32 - 8) c.readBuffer ∧ c.phase ≠ .recv ∧ c.phase ≠ .erased

theorem echoFrame_length (request : Frame) :
    (echoFrame request).length = 8 + request.payload.length := encodeFrame_length _ _

theorem endFrame_length (request : Frame) : (endFrame request).length = 11 :=
  encodeFrame_length _ _

theorem accepted_pos {n remaining : ℕ}
    (h : (SendResult.accepted n).possible remaining = true) : 0 < n := by
  simp only [SendResult.possible, Bool.and_eq_true, decide_eq_true_eq] at h
  exact h.1.1

theorem stepsLeft_step {c d : SelectConnection} {a : SelectAction} {es : List ServerEvent}
    (hc : c.Answering) (ha : sameVisit c a) (hstep : SelectStep c a d es) :
    d.Answering ∧ d.stepsLeft + 1 ≤ c.stepsLeft := by
  obtain ⟨hd, hrecv, herased⟩ := hc
  cases hstep with
  | visited => exact absurd rfl (ha _)
  | received hp => exact absurd rfl hrecv
  | disconnected => exact absurd rfl hrecv
  | @decoded buffer rest request hn =>
    obtain ⟨hr, -, hlen⟩ := hd.next le_rfl hn
    dsimp only at hlen
    refine ⟨⟨hr, by simp, by simp⟩, ?_⟩
    simp only [SelectConnection.stepsLeft, echoFrame_length, endFrame_length]
    omega
  | drained hn => exact ⟨⟨hd, by simp, by simp⟩, by simp [SelectConnection.stepsLeft]⟩
  | echoed hs =>
    refine ⟨⟨hd, by simp, by simp⟩, ?_⟩
    simp only [SelectConnection.stepsLeft]
    omega
  | echoSome hs hp =>
    have hpos := accepted_pos hp
    refine ⟨⟨hd, by simp, by simp⟩, ?_⟩
    simp only [SelectConnection.stepsLeft]
    omega
  | echoFailed hs =>
    refine ⟨⟨hd, by simp, by simp⟩, ?_⟩
    simp only [SelectConnection.stepsLeft]
    omega
  | finished hs =>
    refine ⟨⟨hd, by simp, by simp⟩, ?_⟩
    simp only [SelectConnection.stepsLeft]
    omega
  | finishSome hs hp =>
    have hpos := accepted_pos hp
    refine ⟨⟨hd, by simp, by simp⟩, ?_⟩
    simp only [SelectConnection.stepsLeft]
    omega
  | finishFailed hs =>
    refine ⟨⟨hd, by simp, by simp⟩, ?_⟩
    simp only [SelectConnection.stepsLeft]
    omega

theorem answering_steps {c : SelectConnection} (hc : c.Answering) :
    c.phase = .elsewhere ∨ ∃ a, sameVisit c a ∧ (c.step a).isSome = true := by
  obtain ⟨buffer, phase⟩ := c
  obtain ⟨-, hrecv, herased⟩ := hc
  cases phase with
  | elsewhere => exact .inl rfl
  | recv => exact absurd rfl hrecv
  | erased => exact absurd rfl herased
  | drain =>
    refine .inr ⟨.internal, by simp [sameVisit], ?_⟩
    cases hn : nextFrame buffer <;> simp [SelectConnection.step, hn]
  | echo request sent =>
    by_cases hs : sent < (echoFrame request).length
    · refine .inr ⟨.send .failed, by simp [sameVisit], ?_⟩
      simp [SelectConnection.step, SelectConnection.sendStep, hs, SendResult.possible, sendCall]
    · refine .inr ⟨.internal, by simp [sameVisit], ?_⟩
      simp [SelectConnection.step, hs]
  | finish request sent =>
    by_cases hs : sent < (endFrame request).length
    · refine .inr ⟨.send .failed, by simp [sameVisit], ?_⟩
      simp [SelectConnection.step, SelectConnection.sendStep, hs, SendResult.possible, sendCall]
    · refine .inr ⟨.internal, by simp [sameVisit], ?_⟩
      simp [SelectConnection.step, hs]

/-! ## When the loops end -/

theorem declares_of_consumes {n : ℕ} (hn : args.buffer.length ≤ n)
    (hconsumes : ∀ a b, Relation.ReflTransGen Decodes args a → Decodes a b →
      b.buffer.length + 8 ≤ a.buffer.length) : Declares (2 ^ 32 - 8) args.buffer := by
  induction n generalizing args with
  | zero => exact .header (by omega)
  | succ n ih =>
    by_cases h8 : args.buffer.length < 8
    · exact .header h8
    by_cases hlarge : 2 ^ 32 - 8 ≤ declaredLength args.buffer
    · obtain ⟨out, hdecode, hleft⟩ := tryDecodeFrame_wraps (by omega) hlarge
      have htaken := hconsumes args out .refl hdecode
      omega
    by_cases hlen : args.buffer.length < 8 + declaredLength args.buffer
    · exact .incomplete (by omega) (by omega) hlen
    -- the buffer begins with a complete frame
    obtain ⟨args', hdecode, hrest⟩ : ∃ args', Decodes args args' ∧
        args'.buffer = args.buffer.drop (8 + declaredLength args.buffer) :=
      ⟨_, tryDecodeFrame_complete (by omega) (by omega) (by omega), rfl⟩
    have hshort : args'.buffer.length ≤ n := by
      rw [hrest, List.length_drop]
      omega
    refine .frame (by omega) (by omega) (by omega) (hrest ▸ ih hshort ?_)
    intro a b hsteps hstep
    exact hconsumes a b (.head hdecode hsteps) hstep

/-- The drain loops of both servers end in time, with all that follows, exactly when every header
met at the front of the buffer declares fewer than `2^32 - 8` bytes. -/
theorem drain_loops_end_iff (args : DecodeArgs) :
    EndsInTime args ↔ Declares (2 ^ 32 - 8) args.buffer := by
  constructor
  · intro hends
    exact declares_of_consumes le_rfl hends.consumes
  · intro hd
    refine ⟨?_, drainLoop_ends hd le_rfl, ?_, ?_⟩
    · intro a b hsteps hstep
      obtain ⟨-, -, hlen⟩ := (Decodes.declares hsteps hd).next le_rfl (Decodes.next hstep)
      omega
    · intro s hrun hbuffer as t es hexec
      have hstep : ∀ {s t : Session} {a es}, Declares (2 ^ 32 - 8) s.readBuffer →
          whileRunning s a → s.step a = some (t, es) → Declares (2 ^ 32 - 8) t.readBuffer ∧
            t.testsLeft + (if a == .drain then 1 else 0) ≤ s.testsLeft :=
        fun hd hrun hs => testsLeft_step hd hrun (SessionStep.of_step hs)
      obtain ⟨-, hcount⟩ := exec_countP_le Session.testsLeft (· == .drain) hstep
        (hbuffer ▸ hd) hexec
      rw [Session.testsLeft_running hrun, hbuffer] at hcount
      exact ⟨by omega, drain_isSome⟩
    · intro as c es hexec
      have hstep : ∀ {c d : SelectConnection} {a es}, c.Answering → sameVisit c a →
          c.step a = some (d, es) → d.Answering ∧ d.stepsLeft + (if true then 1 else 0) ≤ c.stepsLeft :=
        fun hc ha hs => stepsLeft_step hc ha (SelectStep.of_step hs)
      have hstart : SelectConnection.Answering ⟨args.buffer, .drain⟩ := ⟨hd, by simp, by simp⟩
      obtain ⟨hc, hcount⟩ := exec_countP_le SelectConnection.stepsLeft (fun _ => true) hstep
        hstart hexec
      rw [List.countP_true] at hcount
      have hbound : SelectConnection.stepsLeft ⟨args.buffer, .drain⟩ =
        3 * args.buffer.length + 1 := rfl
      exact ⟨by omega, answering_steps hc⟩

/-- A header that declares `2^32 - 8` bytes is decoded again and again. -/
theorem header_decodes_forever (fuel : ℕ) (id : UInt32) (payload : Bytes) :
    drainLoop fuel ⟨[0, 0, 0, 1, 0xFF, 0xFF, 0xFF, 0xF8], id, payload⟩ = none := by
  induction fuel generalizing id payload with
  | zero => rfl
  | succ fuel ih =>
    have hdecode : tryDecodeFrame ⟨[0, 0, 0, 1, 0xFF, 0xFF, 0xFF, 0xF8], id, payload⟩ =
        (true, ⟨[0, 0, 0, 1, 0xFF, 0xFF, 0xFF, 0xF8], 1, []⟩) := by
      simp [tryDecodeFrame, getU32]
    rw [drainLoop, hdecode]
    simp only [ih, Option.map_none]

theorem drain_loop_forever : ¬∀ args, EndsInTime args := by
  intro hall
  obtain ⟨requests, out, hloop⟩ :=
    (hall ⟨[0, 0, 0, 1, 0xFF, 0xFF, 0xFF, 0xF8], 0, []⟩).iterations
  rw [header_decodes_forever] at hloop
  cases hloop

end PromiseDemo
