import PromiseDemo.Client.Streams
import PromiseDemo.Framework.Duplex
import PromiseDemo.Server.Server

/-!
# The client and a server joined by sockets

A link is a connection of the client, the server's end of it and the bytes in flight.  The system
is the loop of `process_connections` over links: the I/O thread works on one link at a time, user
threads and servers on any.

The connections of `promise_server` move independently of each other here, although one thread
serves them all; that thread's schedules are among the ones considered.
-/

namespace PromiseDemo

open Transition PromiseStore PrefixCode Duplex

abbrev Link := Pair View Server UInt8

abbrev LinkAction := Action ⊕ ServerAction

abbrev LinkEvent := Event ⊕ ServerEvent

def clientEnd : Endpoint View Action Event UInt8 where
  step := View.step
  reads := Event.reads
  writes := Event.writes

def serverEnd : Endpoint Server ServerAction ServerEvent UInt8 where
  step := Server.step
  reads := ServerEvent.reads
  writes := ServerEvent.writes

/-- A new connection to a server of this kind, over channels of these capacities. -/
def Link.start (kind : ServerKind) (forthCap backCap : Option ℕ) : Link where
  left := View.init
  right := Server.start kind
  forth := []
  back := []
  forthCap := forthCap
  backCap := backCap

/-- `process_connections` over connections whose sockets are joined to servers. -/
def linkBody : LoopBody Link LinkAction LinkEvent where
  step := Duplex.step clientEnd serverEnd
  kind
    | .inl a => clientBody.kind a
    | .inr _ => .other
  enter := .inl .enter
  leave := .inl .leave
  closed link := clientBody.closed link.left
  threw link := clientBody.threw link.left
  home link := clientBody.home link.left

abbrev System (n : ℕ) := Loop n Link

abbrev SystemAction (n : ℕ) := LoopAction n LinkAction

/-- The client, its servers and the channels between them. -/
def system {n : ℕ} : StepFn (System n) (SystemAction n) (Fin n × LinkEvent) := linkBody.loopStep

/-- Every connection has been made, to a server and over channels of its own. -/
def System.init {n : ℕ} (kind : Fin n → ServerKind) (forthCap backCap : Fin n → Option ℕ) :
    System n := { parts := fun c => Link.start (kind c) (forthCap c) (backCap c) }

/-- Allow an action on a link where `allowed` does, and all that the loop does by itself. -/
def onLinks {n : ℕ} (allowed : Link → LinkAction → Bool) (s : System n) : SystemAction n → Bool
  | .part c a => allowed (s.parts c) a
  | _ => true

/-- An action of the client on the only link of a system. -/
abbrev byClient (a : Action) : SystemAction 1 := .part ⟨0, Nat.one_pos⟩ (.inl a)

/-- An action of the server of the only link of a system. -/
abbrev byServer (a : ServerAction) : SystemAction 1 := .part ⟨0, Nat.one_pos⟩ (.inr a)

/-- The I/O thread is inside `send_all` with bytes left, and the channel to the server is full. -/
def Link.clientBlocked (link : Link) : Bool :=
  match link.left.phase with
  | .sending data sent => sent < data.length && full link.forthCap link.forth.length
  | _ => false

/-- The steps of a link: one end acts, and the channels give and take what it reads and writes. -/
inductive LinkStep (link : Link) : LinkAction → Link → List LinkEvent → Prop
  | client {a : Action} {v : View} {es : List Event} {back : Bytes}
      (hv : View.step link.left a = some (v, es)) (hback : link.back = receivedOf es ++ back)
      (hfits : sentOf es = [] ∨ fits link.forthCap (link.forth ++ sentOf es).length = true) :
      LinkStep link (.inl a)
        { link with left := v, back := back, forth := link.forth ++ sentOf es } (es.map .inl)
  | server {a : ServerAction} {t : Server} {es : List ServerEvent} {forth : Bytes}
      (ht : link.right.step a = some (t, es)) (hforth : link.forth = receivedBytes es ++ forth)
      (hfits : sentBytes es = [] ∨ fits link.backCap (link.back ++ sentBytes es).length = true) :
      LinkStep link (.inr a)
        { link with right := t, forth := forth, back := link.back ++ sentBytes es } (es.map .inr)

theorem linkStep_iff {link link' : Link} {a : LinkAction} {es : List LinkEvent} :
    linkBody.step link a = some (link', es) ↔ LinkStep link a link' es := by
  have hstep : linkBody.step = Duplex.step clientEnd serverEnd := rfl
  rw [hstep]
  constructor
  · intro h
    cases a with
    | inl a =>
      obtain ⟨v, ls, hv, hback, hfits, rfl, hq⟩ := step_inl.mp h
      rw [hq] at hfits ⊢
      exact .client hv hback hfits
    | inr a =>
      obtain ⟨t, rs, ht, hforth, hfits, rfl, hq⟩ := step_inr.mp h
      rw [hq] at hfits ⊢
      exact .server ht hforth hfits
  · intro h
    cases h with
    | client hv hback hfits => exact step_inl.mpr ⟨_, _, hv, hback, hfits, rfl, rfl⟩
    | server ht hforth hfits => exact step_inr.mpr ⟨_, _, ht, hforth, hfits, rfl, rfl⟩

theorem linkBody_lawful : linkBody.Lawful where
  enter h := by
    cases linkStep_iff.mp h with
    | client hv => exact clientBody_lawful.enter hv
  leave h := by
    cases linkStep_iff.mp h with
    | client hv => exact clientBody_lawful.leave hv
  thread ha h := by
    cases linkStep_iff.mp h with
    | client hv => exact clientBody_lawful.thread ha hv
    | server => cases ha
  other ha h := by
    cases linkStep_iff.mp h with
    | client hv => exact clientBody_lawful.other ha hv
    | server => rfl

/-- A link after history `h`: the channels lose nothing, and each end keeps its own invariant. -/
structure Connected (h : List LinkEvent) (link : Link) : Prop where
  conserved : Conserved clientEnd serverEnd h link
  sound : Sound (lefts h) link.left
  streams : Streams (lefts h) link.left
  serving : Serving (rights h) link.right

namespace Connected

variable {h es : List LinkEvent} {link link' : Link} {a : LinkAction}

theorem start (kind : ServerKind) (forthCap backCap : Option ℕ) :
    Connected [] (Link.start kind forthCap backCap) where
  conserved := .init rfl rfl
  sound := .init
  streams := .init
  serving := .start kind

theorem step (hc : Connected h link) (hstep : linkBody.step link a = some (link', es)) :
    Connected (h ++ es) link' := by
  have hconserved := hc.conserved.step hstep
  cases linkStep_iff.mp hstep with
  | client hv =>
    refine ⟨hconserved, ?_, ?_, ?_⟩
    · simpa using hc.sound.step hv
    · simpa using hc.streams.step hc.sound hv
    · simpa using hc.serving
  | server ht =>
    refine ⟨hconserved, ?_, ?_, ?_⟩
    · simpa using hc.sound
    · simpa using hc.streams
    · simpa using hc.serving.step ht

theorem received_front (hc : Connected h link) :
    receivedBytes (rights h) <+: sentOf (lefts h) := ⟨_, hc.conserved.forth.symm⟩

/-- What the client has received begins what the server has sent. -/
theorem answers_front (hc : Connected h link) :
    receivedOf (lefts h) <+: sentBytes (rights h) := ⟨_, hc.conserved.back.symm⟩

theorem requests (hc : Connected h link) (hv : frameCode.AllValid (queuedOf (lefts h))) :
    receivedBytes (rights h) =
      frameCode.encodeAll (requestsOf (rights h)) ++ link.right.buffered ∧
    requestsOf (rights h) <+: queuedOf (lefts h) :=
  hc.serving.inflow _ hv (hc.received_front.trans hc.streams.front)

theorem valid_replyFrames {fs : List Frame} (hv : frameCode.AllValid fs) :
    frameCode.AllValid (replyFrames fs) := by
  intro f hf
  obtain ⟨request, hr, hf⟩ := List.mem_flatMap.mp hf
  simp only [List.mem_cons, List.not_mem_nil, or_false] at hf
  rcases hf with rfl | rfl
  · exact hv f hr
  · simp [frameCode, endPayload]

theorem answers (hc : Connected h link) (hv : frameCode.AllValid (queuedOf (lefts h)))
    (hfront : sentBytes (rights h) <+: replies (requestsOf (rights h))) :
    receivedOf (lefts h) =
      frameCode.encodeAll (decodedOf (lefts h)) ++ link.left.conn.readBuffer ∧
    decodedOf (lefts h) <+: replyFrames (requestsOf (rights h)) := by
  have hvalid := valid_replyFrames (hv.of_prefix (hc.requests hv).2)
  apply hc.streams.inflow _ hvalid
  rw [encodeAll_replyFrames]
  exact hc.answers_front.trans hfront

end Connected

end PromiseDemo
