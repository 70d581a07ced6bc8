import PromiseDemo.Server.Server
import PromiseDemo.Net.FrameGrammar

/-!
# The two servers answer alike

Each server has answered every complete frame of a connection once it has seen the end of it, so
what they send there is the same function of what they receive.
-/

namespace PromiseDemo

open Transition PrefixCode

theorem select_answers {h : List ServerEvent} {c : SelectConnection}
    (hrun : Run SelectConnection.step anyAction {} h c) (hrest : c.phase.atRest = true)
    (hf : .writeFailed ∉ h) (hd : Declares (2 ^ 32 - 8) (receivedBytes h)) :
    sentBytes h = replies (completeFrames (receivedBytes h)) := by
  have he := Echoing.run hrun
  have hall := he.exact hf
  rw [SelectConnection.owed_atRest hrest, List.append_nil] at hall
  rw [hall, decoded_eq_completeFrames he.inflow hd (SelectConnection.Drained.run hrun hrest)]

theorem session_answers {h : List ServerEvent} {s : Session}
    (hrun : Run Session.step anyAction Session.start h s) (heof : .disconnected ∈ h)
    (hwrites : s.writes = []) (hf : .writeFailed ∉ h)
    (hd : Declares (2 ^ 32 - 8) (receivedBytes h)) :
    sentBytes h = replies (completeFrames (receivedBytes h)) := by
  have hinv : Writer h s ∧ Reader h s ∧ (.disconnected ∈ h → ReadOver s) := by
    apply hrun.invariant (I := fun h s => Writer h s ∧ Reader h s ∧ (.disconnected ∈ h → ReadOver s))
    · exact ⟨.start, .start, fun hmem => by simp at hmem⟩
    · intro h s t a es hI _ hs
      have hstep := SessionStep.of_step hs
      exact ⟨hI.1.step hstep, hI.2.1.step hstep, hI.2.1.over hI.2.2 hstep⟩
  obtain ⟨hw, hr, hover⟩ := hinv
  have ho := hover heof
  have hbuffered : s.buffered = s.readBuffer := by
    rcases ho.reads with hreads | hreads <;> simp [Session.buffered, hreads]
  have hin := hr.inflow
  rw [hbuffered] at hin
  rw [← decoded_eq_completeFrames hin hd ho.drained]
  cases hw with
  | idle _ _ _ hsent => exact hsent
  | busy hw => simp [hw] at hwrites
  | failed _ _ hfail => exact absurd hfail hf

/-- One byte string, ended by the client and read in any chunks, gets the same bytes back from both
servers: from `promise_server` once its `recv` has returned 0, whatever `::send` accepts at a
time, and from `promise_server_asio` once a read has ended and no write is outstanding, whatever
the order of the completions.  They are the replies to the complete frames of the string. -/
theorem servers_equivalent {h k : List ServerEvent} {c : SelectConnection} {s : Session}
    (hselect : Run SelectConnection.step anyAction {} h c) (herased : c.phase = .erased)
    (hf : .writeFailed ∉ h) (hasio : Run Session.step anyAction Session.start k s)
    (heof : .disconnected ∈ k) (hwrites : s.writes = []) (hf' : .writeFailed ∉ k)
    (hsame : receivedBytes h = receivedBytes k)
    (hd : Declares (2 ^ 31 - 8) (receivedBytes h)) :
    sentBytes h = sentBytes k ∧ sentBytes h = replies (completeFrames (receivedBytes h)) := by
  have hd' := hd.mono (show 2 ^ 31 - 8 ≤ 2 ^ 32 - 8 by decide)
  have hrest : c.phase.atRest = true := by rw [herased]; rfl
  have hfirst := select_answers hselect hrest hf hd'
  have hsecond := session_answers hasio heof hwrites hf' (hsame ▸ hd')
  exact ⟨by rw [hfirst, hsecond, hsame], hfirst⟩

/-- A request and three bytes of another one, in one chunk and in two. -/
private def selectServed : List SelectAction :=
  [.visit true, .recv (.data (encodeFrame 1 [7] ++ [0, 0, 0])), .internal,
    .send (.accepted 4), .send (.accepted 5), .internal, .send (.accepted 11), .internal,
    .internal, .visit true, .recv .failed]

private def asioServed : List SessionAction :=
  [.readCompletes 0 (.data ((encodeFrame 1 [7]).take 5)), .runRead 0, .drain,
    .readCompletes 0 (.data ((encodeFrame 1 [7]).drop 5 ++ [0, 0, 0])), .runRead 0, .drain, .drain,
    .readCompletes 0 .failed, .writeSome 0 20, .runRead 0, .writeCompletes 0 true, .runWrite 0]

theorem servers_equivalent_chunks :
    sentBytes (afterAll SelectConnection.step anyAction {} selectServed).2 =
      sentBytes (afterAll Session.step anyAction Session.start asioServed).2 ∧
    sentBytes (afterAll SelectConnection.step anyAction {} selectServed).2 =
      replies (completeFrames
        (receivedBytes (afterAll SelectConnection.step anyAction {} selectServed).2)) := by
  have hselect := Run.of_actions SelectConnection.step anyAction {} selectServed (by decide)
  have hasio := Run.of_actions Session.step anyAction Session.start asioServed (by decide)
  refine servers_equivalent hselect (by decide) (by decide) hasio (by decide) (by decide)
    (by decide) (by decide) ?_
  exact .frame (by decide) (by decide) (by decide) (.header (by decide))

end PromiseDemo
