import PromiseDemo.Client.Futures

/-!
# The byte streams of a connection

What the client has put on a connection is the encoding of the requests in the order in which
they were queued, up to what is still being sent or waits; what it has taken off is the frames
it has decoded and the read buffer.
-/

namespace PromiseDemo

open Transition PromiseStore PrefixCode

namespace Event

@[simp] def reads : Event → Bytes
  | .received chunk => chunk
  | _ => []

@[simp] def writes : Event → Bytes
  | .sent bytes => bytes
  | _ => []

@[simp] def queues : Event → List Frame
  | .queued packet => [packet]
  | _ => []

@[simp] def decodes : Event → List Frame
  | .decoded data => [data]
  | _ => []

end Event

/-- The bytes taken off a connection. -/
def receivedOf (h : List Event) : Bytes := h.flatMap Event.reads

/-- The bytes put on a connection. -/
def sentOf (h : List Event) : Bytes := h.flatMap Event.writes

/-- The requests accepted by `send_request`, in the order of their ids. -/
def queuedOf (h : List Event) : List Frame := h.flatMap Event.queues

/-- The frames decoded, in order. -/
def decodedOf (h : List Event) : List Frame := h.flatMap Event.decodes

@[simp] theorem receivedOf_append (h k : List Event) :
    receivedOf (h ++ k) = receivedOf h ++ receivedOf k := List.flatMap_append

@[simp] theorem sentOf_append (h k : List Event) : sentOf (h ++ k) = sentOf h ++ sentOf k :=
  List.flatMap_append

@[simp] theorem queuedOf_append (h k : List Event) :
    queuedOf (h ++ k) = queuedOf h ++ queuedOf k := List.flatMap_append

@[simp] theorem decodedOf_append (h k : List Event) :
    decodedOf (h ++ k) = decodedOf h ++ decodedOf k := List.flatMap_append

@[simp] theorem receivedOf_cons (e : Event) (h : List Event) :
    receivedOf (e :: h) = e.reads ++ receivedOf h := rfl

@[simp] theorem sentOf_cons (e : Event) (h : List Event) :
    sentOf (e :: h) = e.writes ++ sentOf h := rfl

@[simp] theorem queuedOf_cons (e : Event) (h : List Event) :
    queuedOf (e :: h) = e.queues ++ queuedOf h := rfl

@[simp] theorem decodedOf_cons (e : Event) (h : List Event) :
    decodedOf (e :: h) = e.decodes ++ decodedOf h := rfl

@[simp] theorem receivedOf_nil : receivedOf [] = [] := rfl

@[simp] theorem sentOf_nil : sentOf [] = [] := rfl

@[simp] theorem queuedOf_nil : queuedOf [] = [] := rfl

@[simp] theorem decodedOf_nil : decodedOf [] = [] := rfl

theorem mem_queuedOf {f : Frame} {h : List Event} : f ∈ queuedOf h ↔ .queued f ∈ h := by
  rw [queuedOf, List.mem_flatMap]
  constructor
  · rintro ⟨e, he, hf⟩
    cases e with
    | queued packet =>
      obtain rfl : f = packet := by simpa using hf
      exact he
    | _ => simp at hf
  · intro hf
    exact ⟨_, hf, by simp⟩

/-- The rest of the frame that is being sent. -/
def Phase.rest : Phase → Bytes
  | .sending data sent => data.drop sent
  | _ => []

/-- The rest of the frame that is being sent and the frames that wait in `outgoing_`. -/
def View.unsent (v : View) : Bytes := v.phase.rest ++ frameCode.encodeAll v.conn.outgoing

/-- The streams of a connection after history `h`. -/
structure Streams (h : List Event) (v : View) : Prop where
  exact : v.conn.closed = false → v.phase ≠ .closeWrite →
    sentOf h ++ v.unsent = frameCode.encodeAll (queuedOf h)
  front : sentOf h <+: frameCode.encodeAll (queuedOf h)
  inflow : frameCode.Reassembled (receivedOf h) (decodedOf h) v.conn.readBuffer

variable {h es : List Event} {v v' : View} {a : Action}

theorem View.step_queued {f : Frame} (hstep : View.step v a = some (v', es)) (hmem : .queued f ∈ es) :
    ∃ payload, a = .sendRequest payload ∧ v.conn.closed = false ∧
      f = ⟨v.conn.nextId, payload⟩ := by
  cases ViewStep.of_step hstep with
  | sendRequest hp =>
    rcases mem_sendEvents hmem with ⟨hopen, he⟩ | ⟨p, he⟩ | ⟨x, he⟩
    · cases he
      exact ⟨_, rfl, hopen, rfl⟩
    · cases he
    · cases he
  | io hio =>
    cases hio with
    | lost hv => rcases Connection.mem_closeStep hv hmem with ⟨q, he⟩ | he <;> cases he
    | broken hv => rcases Connection.mem_closeStep hv hmem with ⟨q, he⟩ | he <;> cases he
    | _ => simp at hmem
  | enter => simp at hmem
  | leave => simp at hmem

theorem receivedOf_sendEvents (c : Connection) (payload : Bytes) :
    receivedOf (c.sendEvents payload) = [] :=
  Connection.flatMap_sendEvents (fun _ => rfl) (fun _ _ _ => rfl) (fun _ => rfl) c payload

theorem sentOf_sendEvents (c : Connection) (payload : Bytes) :
    sentOf (c.sendEvents payload) = [] :=
  Connection.flatMap_sendEvents (fun _ => rfl) (fun _ _ _ => rfl) (fun _ => rfl) c payload

theorem streams_closeStep {c : Connection} {what : String} {next : Phase}
    (hv : c.closeStep what next = (v', es)) :
    sentOf es = [] ∧ receivedOf es = [] ∧ queuedOf es = [] ∧ decodedOf es = [] :=
  ⟨Connection.flatMap_closeStep (fun _ _ => rfl) (fun _ => rfl) hv,
    Connection.flatMap_closeStep (fun _ _ => rfl) (fun _ => rfl) hv,
    Connection.flatMap_closeStep (fun _ _ => rfl) (fun _ => rfl) hv,
    Connection.flatMap_closeStep (fun _ _ => rfl) (fun _ => rfl) hv⟩

theorem View.step_sending {v v' : View} {a : Action} {es : List Event} {data : Bytes} {sent : ℕ}
    (hstep : View.step v a = some (v', es)) (hphase : v'.phase = .sending data sent) :
    receivedOf es = [] ∧
    ((∃ sent', v.phase = .sending data sent' ∧ sentOf es ++ data.drop sent = data.drop sent') ∨
      (a = .io .internal ∧ v.phase = .popOutgoing ∧ sentOf es = [] ∧ sent = 0 ∧
        ∃ packet rest, v.conn.outgoing = packet :: rest ∧
          data = encodeFrame packet.id packet.payload)) := by
  cases ViewStep.of_step hstep with
  | @sendRequest v payload hp =>
    exact ⟨receivedOf_sendEvents v.conn payload,
      .inl ⟨sent, hphase, by rw [sentOf_sendEvents]; rfl⟩⟩
  | io hio =>
    cases hio with
    | received hp hc =>
      dsimp only at hphase
      split at hphase <;> cases hphase
    | pushed hr =>
      dsimp only at hphase
      split at hphase <;> cases hphase
    | lost hv => cases Connection.closeStep_next hv hphase rfl
    | broken hv => cases Connection.closeStep_next hv hphase rfl
    | popped ho =>
      cases hphase
      exact ⟨rfl, .inr ⟨rfl, rfl, rfl, rfl, _, _, ho, rfl⟩⟩
    | @sentSome c data sent' n hlt hp =>
      cases hphase
      refine ⟨rfl, .inl ⟨sent', rfl, ?_⟩⟩
      simp only [sentOf_cons, Event.writes, sentOf_nil, List.append_nil]
      rw [← List.drop_drop, List.take_append_drop]
    | _ => cases hphase
  | enter => cases hphase
  | leave => cases hphase

theorem Streams.init : Streams [] View.init where
  exact _ _ := rfl
  front := List.nil_prefix
  inflow := .nil

theorem Streams.sendRequest (hs : Sound h v) (hst : Streams h v) (payload : Bytes) :
    Streams (h ++ v.conn.sendEvents payload) ⟨(v.conn.sendRequest payload).1, v.phase⟩ := by
  obtain ⟨hex, hfront, hin⟩ := hst
  -- an open connection queues the request, whether or not its future can be returned
  have queue : ∀ {c : Connection} {es : List Event}, sentOf es = [] → receivedOf es = [] →
      queuedOf es = [] → decodedOf es = [] →
      c.outgoing = v.conn.outgoing ++ [⟨v.conn.nextId, payload⟩] → v.conn.closed = false →
      c.readBuffer = v.conn.readBuffer →
      Streams (h ++ .queued ⟨v.conn.nextId, payload⟩ :: es) ⟨c, v.phase⟩ := by
    intro c es hw hr hq hd hout hopen hbuf
    refine ⟨fun _ hphase => ?_, ?_, ?_⟩
    · have hall := hex hopen hphase
      simp only [View.unsent] at hall ⊢
      simp [hw, hq, hout, ← hall]
    · simp only [sentOf_append, sentOf_cons, Event.writes, hw, List.append_nil, queuedOf_append,
        Code.encodeAll_append]
      exact hfront.trans (List.prefix_append _ _)
    · simpa [hr, hd, hbuf] using hin
  rcases hs.ledger.sendRequest_cases payload with ⟨-, hv, he⟩ | ⟨hopen, -, hv, he⟩ |
    ⟨hopen, -, hv, he⟩
  · rw [hv, he]
    exact ⟨by simpa using hex, by simpa using hfront, by simpa using hin⟩
  · rw [hv, he]
    exact queue rfl rfl rfl rfl rfl hopen rfl
  · rw [hv, he]
    exact queue rfl rfl rfl rfl rfl hopen rfl

theorem Streams.congr (hst : Streams h v) (hunsent : v'.unsent = v.unsent)
    (hphase : v.phase ≠ .closeWrite) (hclosed : v'.conn.closed = v.conn.closed)
    (hbuffer : v'.conn.readBuffer = v.conn.readBuffer) (hs : sentOf es = [])
    (hr : receivedOf es = []) (hq : queuedOf es = []) (hd : decodedOf es = []) :
    Streams (h ++ es) v' := by
  obtain ⟨hex, hfront, hin⟩ := hst
  refine ⟨fun hopen _ => ?_, by simpa [hs, hq] using hfront, by simpa [hr, hd, hbuffer] using hin⟩
  simpa [hs, hq, hunsent] using hex (hclosed.symm.trans hopen) hphase

theorem Streams.close (hs : Sound h v) (hst : Streams h v) {what : String} {next : Phase}
    (hserved : v.phase.served = none) (hv : v.conn.closeStep what next = (v', es)) :
    Streams (h ++ es) v' := by
  obtain ⟨hsent, hreceived, hqueued, hdecoded⟩ := streams_closeStep hv
  obtain ⟨promises, rfl, -, -⟩ := (hserved ▸ hs.ledger).of_closeStep hv
  refine ⟨fun hopen => (nomatch hopen), ?_, ?_⟩
  · rw [sentOf_append, queuedOf_append, hsent, hqueued, List.append_nil, List.append_nil]
    exact hst.front
  · rw [receivedOf_append, decodedOf_append, hreceived, hdecoded, List.append_nil, List.append_nil]
    exact hst.inflow

theorem Streams.ioStep {op : IoOp} (hs : Sound h v) (hst : Streams h v)
    (hstep : IoStep v op v' es) : Streams (h ++ es) v' := by
  cases hstep with
  | received hp hc =>
    subst hc
    refine ⟨fun hopen _ => ?_, by simpa using hst.front, by simpa using hst.inflow.receive _⟩
    have hall := hst.exact hopen (by simp)
    split <;> simpa [View.unsent, Phase.rest] using hall
  | lost hv => exact hst.close hs rfl hv
  | @decoded c c' data hd =>
    obtain ⟨f, r, hn⟩ := (Connection.frameReady_iff c).mp hs.point
    rw [Connection.incoming_of_nextFrame hn] at hd
    cases hd
    refine ⟨fun hopen _ => ?_, by simpa using hst.front, by simpa using hst.inflow.decode hn⟩
    simpa [View.unsent, Phase.rest] using hst.exact hopen (by simp)
  | pushed hr =>
    refine hst.congr ?_ (by simp) rfl rfl rfl rfl rfl rfl
    simp only [View.unsent, Connection.updateRequest]
    split <;> rfl
  | popped ho =>
    refine hst.congr ?_ (by simp) rfl rfl rfl rfl rfl rfl
    simp [View.unsent, Phase.rest, ho]
  | @sentSome c data sent n hlt hp =>
    have hopen : c.closed = false := hs.point
    have hall := hst.exact hopen (by simp)
    simp only [View.unsent, Phase.rest] at hall
    have hmore := accepted_stream n hall
    refine ⟨fun _ _ => by simpa [View.unsent, Phase.rest] using hmore, ?_,
      by simpa using hst.inflow⟩
    rw [queuedOf_append, sentOf_append]
    exact ⟨_, by simpa using hmore⟩
  | sendFailed hlt =>
    exact ⟨fun _ hphase => absurd rfl hphase, by simpa using hst.front, by simpa using hst.inflow⟩
  | sentAll hle =>
    refine hst.congr ?_ (by simp) rfl rfl rfl rfl rfl rfl
    simp [View.unsent, Phase.rest, List.drop_of_length_le hle]
  | broken hv => exact hst.close hs rfl hv
  | _ => exact hst.congr rfl (by simp) rfl rfl rfl rfl rfl rfl

theorem Streams.step (hs : Sound h v) (hst : Streams h v)
    (hstep : View.step v a = some (v', es)) : Streams (h ++ es) v' := by
  cases ViewStep.of_step hstep with
  | sendRequest hp => exact hst.sendRequest hs _
  | io hio => exact hst.ioStep hs hio
  | enter => exact hst.congr rfl (by simp) rfl rfl rfl rfl rfl rfl
  | leave => exact hst.congr rfl (by simp) rfl rfl rfl rfl rfl rfl

theorem streams_run {allowed : View → Action → Prop}
    (hrun : Run View.step allowed View.init h v) : Sound h v ∧ Streams h v := by
  apply hrun.invariant (I := fun h v => Sound h v ∧ Streams h v)
  · exact ⟨.init, .init⟩
  · rintro h v v' a es ⟨hs, hst⟩ _ hstep
    exact ⟨hs.step hstep, hst.step hs hstep⟩

end PromiseDemo
