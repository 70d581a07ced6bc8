import PromiseDemo.Server.SelectConnection
import PromiseDemo.Server.SingleReader

/-!
# A connection of either server

What both servers guarantee of one connection, whichever serves it: the requests decoded are those
of the bytes received, and the bytes sent answer them in order.
-/

namespace PromiseDemo

open Transition PrefixCode

inductive Server
  | select (c : SelectConnection)
  | asio (s : Session)

inductive ServerAction
  | select (a : SelectAction)
  | asio (a : SessionAction)
  deriving DecidableEq, Repr

inductive ServerKind
  | select
  | asio
  deriving DecidableEq, Repr

namespace Server

/-- A connection that the server has just accepted. -/
def start : ServerKind → Server
  | .select => .select {}
  | .asio => .asio Session.start

def step : StepFn Server ServerAction ServerEvent
  | .select c, .select a => (c.step a).map fun q => (.select q.1, q.2)
  | .asio s, .asio a => (s.step a).map fun q => (.asio q.1, q.2)
  | _, _ => none

/-- What is still to be sent of the replies to the requests decoded. -/
def owed : Server → Bytes
  | .select c => c.owed
  | .asio s => s.unsent

/-- The bytes received and not decoded. -/
def buffered : Server → Bytes
  | .select c => c.readBuffer
  | .asio s => s.buffered

end Server

/-- The steps of either server. -/
inductive ServerStep : Server → ServerAction → Server → List ServerEvent → Prop
  | select {c d : SelectConnection} {a : SelectAction} {es : List ServerEvent}
      (h : SelectStep c a d es) : ServerStep (.select c) (.select a) (.select d) es
  | asio {s t : Session} {a : SessionAction} {es : List ServerEvent} (h : SessionStep s a t es) :
      ServerStep (.asio s) (.asio a) (.asio t) es

theorem ServerStep.of_step {s t : Server} {a : ServerAction} {es : List ServerEvent}
    (h : s.step a = some (t, es)) : ServerStep s a t es := by
  cases s with
  | select c =>
    cases a with
    | select a =>
      obtain ⟨q, hq, hv⟩ := Option.map_eq_some_iff.mp h
      cases hv
      exact .select (SelectStep.of_step hq)
    | asio a => cases h
  | asio s =>
    cases a with
    | select a => cases h
    | asio a =>
      obtain ⟨q, hq, hv⟩ := Option.map_eq_some_iff.mp h
      cases hv
      exact .asio (SessionStep.of_step hq)

/-- A connection of either server after history `h`. -/
inductive Serving (h : List ServerEvent) : Server → Prop
  | select {c : SelectConnection} (he : Echoing h c) : Serving h (.select c)
  | asio {s : Session} (hw : Writer h s) (hr : Reader h s) : Serving h (.asio s)

namespace Serving

variable {h es : List ServerEvent} {s t : Server} {a : ServerAction}

theorem start : ∀ kind, Serving [] (Server.start kind)
  | .select => .select Echoing.start
  | .asio => .asio Writer.start Reader.start

theorem step (hs : Serving h s) (hstep : s.step a = some (t, es)) : Serving (h ++ es) t := by
  cases ServerStep.of_step hstep with
  | select hstep =>
    cases hs with
    | select he => exact .select (he.step hstep)
  | asio hstep =>
    cases hs with
    | asio hw hr => exact .asio (hw.step hstep) (hr.step hstep)

theorem inflow (hs : Serving h s) :
    frameCode.Reassembled (receivedBytes h) (requestsOf h) s.buffered := by
  cases hs with
  | select he => exact he.inflow
  | asio hw hr => exact hr.inflow

theorem exact (hs : Serving h s) (hf : .writeFailed ∉ h) :
    sentBytes h ++ s.owed = replies (requestsOf h) := by
  cases hs with
  | select he => exact he.exact hf
  | asio hw hr =>
    cases hw with
    | idle hw hq _ hsent => simp [Server.owed, Session.unsent, hw, hq, hsent]
    | busy hw hq _ _ _ hsent => simp [Server.owed, Session.unsent, hw, hq, hsent]
    | failed _ _ hf' => exact absurd hf' hf

theorem front (hs : Serving h s) (hf : (∃ c, s = .select c) → .writeFailed ∉ h) :
    sentBytes h <+: replies (requestsOf h) := by
  cases hs with
  | select he => exact ⟨_, he.exact (hf ⟨_, rfl⟩)⟩
  | asio hw hr =>
    cases hw with
    | idle _ _ _ hsent => rw [hsent]
    | busy _ _ _ _ _ hsent => exact ⟨_, hsent⟩
    | failed _ _ _ hsent => exact ⟨_, hsent⟩

end Serving

end PromiseDemo
