import PromiseDemo.Client.Numbering
import PromiseDemo.Client.Closing

/-!
# The request stream of a connection

A request is numbered and queued under the mutex, taken off the queue under the mutex and written
without it.  Between the last two it is in none of the containers: the I/O thread holds it.
-/

namespace PromiseDemo

open Transition PromiseStore PrefixCode

/-- Payloads are shorter than `2^31 - 8` bytes. -/
def shortRequests {n : ℕ} (_ : Client n) : ClientAction n → Bool
  | .part _ (.sendRequest payload) => payload.length < 2 ^ 31 - 8
  | _ => true

@[simp] def Event.accepts : Event → List Frame
  | .issued _ id payload => [⟨id, payload⟩]
  | _ => []

/-- The requests that `send_request` has accepted, in the order in which the calls held the
mutex. -/
def acceptedOf (h : List Event) : List Frame := h.flatMap Event.accepts

@[simp] theorem acceptedOf_append (h k : List Event) :
    acceptedOf (h ++ k) = acceptedOf h ++ acceptedOf k := List.flatMap_append

/-- The frame that is being sent. -/
def Phase.inFlight : Phase → List Bytes
  | .sending data _ => [data]
  | _ => []

/-- What has been sent of it. -/
def Phase.sentPart : Phase → Bytes
  | .sending data sent => data.take sent
  | _ => []

/-- Each of these requests is sent, being sent or queued, in this order. -/
def InTransit (requests : List Frame) (h : List Event) (v : View) : Prop :=
  ∃ done current, requests = done ++ current ++ v.conn.outgoing ∧
    current.map frameCode.encode = v.phase.inFlight ∧
    sentOf h = frameCode.encodeAll done ++ v.phase.sentPart

/-- The write side of a connection after history `h`. -/
structure Writing (h : List Event) (v : View) : Prop where
  transit : .sendFailed ∉ h → v.conn.closed = false → InTransit (queuedOf h) h v
  /-- After a failed send the connection is closed next. -/
  stopped : .sendFailed ∈ h → v.phase = .closeWrite ∨ v.conn.closed = true
  silent : ∀ before after, h = before ++ .sendFailed :: after → sentOf after = []
  accepted : (queuedOf h).length < 2 ^ 32 → acceptedOf h = queuedOf h

variable {h es : List Event} {v v' : View} {a : Action}

theorem Sound.accepted_step (hs : Sound h v) (hn : Numbered h v)
    (hstep : View.step v a = some (v', es)) (hlt : (queuedOf (h ++ es)).length < 2 ^ 32) :
    acceptedOf es = queuedOf es := by
  have closing : ∀ {c : Connection} {what : String} {next : Phase},
      c.closeStep what next = (v', es) → acceptedOf es = queuedOf es := by
    intro c what next hv
    rw [(streams_closeStep hv).2.2.1]
    exact Connection.flatMap_closeStep (fun _ _ => rfl) (fun _ => rfl) hv
  cases ViewStep.of_step hstep with
  | @sendRequest _ payload hp =>
    rcases hs.ledger.sendRequest_cases payload with ⟨-, -, he⟩ | ⟨-, ⟨r, hr⟩, -, he⟩ | ⟨-, -, -, he⟩
    · rw [he]
      rfl
    · rw [he, queuedOf_append, List.length_append] at hlt
      cases (hn.fresh hlt).symm.trans hr
    · rw [he]
      rfl
  | io hio =>
    cases hio with
    | lost hv => exact closing hv
    | broken hv => exact closing hv
    | _ => rfl
  | enter => rfl
  | leave => rfl

theorem InTransit.queue {packet : Frame} (ht : InTransit (queuedOf h) h v)
    (hqueued : queuedOf es = [packet]) (hout : v'.conn.outgoing = v.conn.outgoing ++ [packet])
    (hphase : v'.phase = v.phase) (hsent : sentOf es = []) :
    InTransit (queuedOf (h ++ es)) (h ++ es) v' := by
  obtain ⟨done, current, hall, hcurrent, hbytes⟩ := ht
  refine ⟨done, current, ?_, by rw [hphase, hcurrent], ?_⟩
  · rw [queuedOf_append, hqueued, hall, hout, List.append_assoc _ v.conn.outgoing]
  · rw [sentOf_append, hsent, List.append_nil, hbytes, hphase]

theorem InTransit.congr (ht : InTransit (queuedOf h) h v) (hqueued : queuedOf es = [])
    (hsent : sentOf es = []) (hout : v'.conn.outgoing = v.conn.outgoing)
    (hflight : v'.phase.inFlight = v.phase.inFlight)
    (hpart : v'.phase.sentPart = v.phase.sentPart) :
    InTransit (queuedOf (h ++ es)) (h ++ es) v' := by
  obtain ⟨done, current, hall, hcurrent, hbytes⟩ := ht
  refine ⟨done, current, ?_, by rw [hflight, hcurrent], ?_⟩
  · rw [queuedOf_append, hqueued, List.append_nil, hall, hout]
  · rw [sentOf_append, hsent, List.append_nil, hbytes, hpart]

theorem Writing.transit_io {op : IoOp} (hw : Writing h v) (hstep : IoStep v op v' es)
    (hfail : .sendFailed ∉ h ++ es) (hopen : v.conn.closed = false)
    (hopen' : v'.conn.closed = false) : InTransit (queuedOf (h ++ es)) (h ++ es) v' := by
  have ht := hw.transit (fun hmem => hfail (List.mem_append_left _ hmem)) hopen
  have closing : ∀ {c : Connection} {what : String} {next : Phase},
      c.closeStep what next = (v', es) → InTransit (queuedOf (h ++ es)) (h ++ es) v' := by
    intro c what next hv
    exact Connection.not_closed hopen' (Connection.closeStep_closed hv)
  cases hstep with
  | lost hv => exact closing hv
  | broken hv => exact closing hv
  | received hp hc =>
    subst hc
    refine ht.congr rfl rfl rfl ?_ ?_
    · dsimp only
      split <;> rfl
    · dsimp only
      split <;> rfl
  | decoded hd =>
    cases hd
    exact ht.congr rfl rfl rfl rfl rfl
  | pushed hr =>
    refine ht.congr rfl rfl rfl ?_ ?_
    · dsimp only
      split <;> rfl
    · dsimp only
      split <;> rfl
  | @popped c packet rest ho =>
    -- the packet leaves the queue and is in flight
    obtain ⟨done, current, hall, hcurrent, hbytes⟩ := ht
    obtain rfl : current = [] := List.map_eq_nil_iff.mp hcurrent
    refine ⟨done, [packet], ?_, rfl, ?_⟩
    · rw [List.append_nil, hall, List.append_nil, List.append_assoc]
      exact congrArg (done ++ ·) ho
    · rw [List.append_nil, hbytes]
      rfl
  | @sentSome c data sent n hlt hp =>
    obtain ⟨done, current, hall, hcurrent, hbytes⟩ := ht
    refine ⟨done, current, by simpa using hall, hcurrent, ?_⟩
    have hmore : data.take sent ++ (data.drop sent).take n = data.take (sent + n) :=
      List.take_add.symm
    rw [sentOf_append, hbytes]
    simp [Phase.sentPart, hmore]
  | sendFailed hlt => exact absurd (List.mem_append_right _ (List.mem_singleton_self _)) hfail
  | @sentAll c data sent hle =>
    -- the frame in flight has been sent
    obtain ⟨done, current, hall, hcurrent, hbytes⟩ := ht
    have hframe : frameCode.encodeAll current = data := by
      rw [Code.encodeAll, List.flatMap_def, hcurrent]
      exact List.append_nil data
    refine ⟨done ++ current, [], by simpa using hall, rfl, ?_⟩
    simp only [Phase.sentPart, List.take_of_length_le hle] at hbytes
    simp [Phase.sentPart, hbytes, hframe]
  | _ => exact ht.congr rfl rfl rfl rfl rfl

theorem View.step_sendFailed (hstep : View.step v a = some (v', es)) (hmem : .sendFailed ∈ es) :
    es = [.sendFailed] ∧ v'.phase = .closeWrite := by
  cases ViewStep.of_step hstep with
  | sendRequest hp =>
    rcases mem_sendEvents hmem with ⟨-, he⟩ | ⟨p, he⟩ | ⟨x, he⟩ <;> cases he
  | io hio =>
    cases hio with
    | lost hv => rcases Connection.mem_closeStep hv hmem with ⟨q, he⟩ | he <;> cases he
    | broken hv => rcases Connection.mem_closeStep hv hmem with ⟨q, he⟩ | he <;> cases he
    | sendFailed hlt => exact ⟨rfl, rfl⟩
    | _ => simp at hmem
  | enter => simp at hmem
  | leave => simp at hmem

namespace Writing

theorem init : Writing [] View.init where
  transit _ _ := ⟨[], [], rfl, rfl, rfl⟩
  stopped hmem := by simp at hmem
  silent before after heq := by simp at heq
  accepted _ := rfl

theorem no_send (hw : Writing h v) (hs : Sound h v) (hfail : .sendFailed ∈ h)
    (hstep : View.step v a = some (v', es)) :
    sentOf es = [] ∧ (v'.phase = .closeWrite ∨ v'.conn.closed = true) := by
  rcases hw.stopped hfail with hphase | hclosed
  · obtain ⟨c, phase⟩ := v
    obtain rfl : phase = .closeWrite := hphase
    cases ViewStep.of_step hstep with
    | sendRequest hp => exact ⟨sentOf_sendEvents c _, .inl rfl⟩
    | io hio =>
      cases hio with
      | broken hv => exact ⟨(streams_closeStep hv).1, .inr (Connection.closeStep_closed hv)⟩
  · have hclosed' := View.closed_mono hclosed hstep
    refine ⟨?_, .inr hclosed'⟩
    cases ViewStep.of_step hstep with
    | @sendRequest v payload hp => exact sentOf_sendEvents v.conn payload
    | io hio =>
      cases hio with
      | lost hv => exact (streams_closeStep hv).1
      | broken hv => exact (streams_closeStep hv).1
      | sentSome hlt hp => cases hs.point.symm.trans hclosed
      | _ => rfl
    | enter => rfl
    | leave => rfl

theorem step (hw : Writing h v) (hs : Sound h v) (hn : Numbered h v)
    (hstep : View.step v a = some (v', es)) : Writing (h ++ es) v' := by
  refine ⟨?_, ?_, ?_, ?_⟩
  · intro hfail hopen'
    have hopen : v.conn.closed = false := by
      by_contra hclosed
      rw [Bool.not_eq_false] at hclosed
      cases hopen'.symm.trans (View.closed_mono hclosed hstep)
    have ht := hw.transit (fun hmem => hfail (List.mem_append_left _ hmem)) hopen
    cases ViewStep.of_step hstep with
    | @sendRequest _ payload hp =>
      rcases hs.ledger.sendRequest_cases payload with ⟨hc, -⟩ | ⟨-, -, hv, he⟩ | ⟨-, -, hv, he⟩
      · exact Connection.not_closed hopen hc
      · rw [hv, he]
        exact ht.queue rfl rfl rfl rfl
      · rw [hv, he]
        exact ht.queue rfl rfl rfl rfl
    | io hio => exact hw.transit_io hio hfail hopen hopen'
    | enter => exact ht.congr rfl rfl rfl rfl rfl
    | leave => exact ht.congr rfl rfl rfl rfl rfl
  · intro hfail
    by_cases hold : .sendFailed ∈ h
    · exact (hw.no_send hs hold hstep).2
    have hnew := (List.mem_append.mp hfail).resolve_left hold
    exact .inl (View.step_sendFailed hstep hnew).2
  · intro before after heq
    rcases split_event heq with ⟨rest, hold, rfl⟩ | ⟨front, -, hnew⟩
    · have hfail : .sendFailed ∈ h := by simp [hold]
      rw [sentOf_append, hw.silent before rest hold, (hw.no_send hs hfail hstep).1]
      rfl
    · rw [(View.step_sendFailed hstep (by simp [hnew])).1] at hnew
      rw [(single_event hnew).2, sentOf_nil]
  · intro hlt
    have hle : (queuedOf h).length < 2 ^ 32 := by
      rw [queuedOf_append, List.length_append] at hlt
      omega
    rw [acceptedOf_append, queuedOf_append, hw.accepted hle, hs.accepted_step hn hstep hlt]

theorem run {allowed : View → Action → Prop} (hrun : Run View.step allowed View.init h v) :
    Sound h v ∧ Numbered h v ∧ Writing h v := by
  apply hrun.invariant (I := fun h v => Sound h v ∧ Numbered h v ∧ Writing h v)
  · exact ⟨.init, .init, .init⟩
  · rintro h v v' a es ⟨hs, hn, hw⟩ _ hstep
    exact ⟨hs.step hstep, hn.step hs hstep, hw.step hs hn hstep⟩

end Writing

/-- For every interleaving and all results of the system calls, with fewer than `2^32` requests on a
connection: the accepted requests have the numbers 1, 2, 3 and so on, and the bytes sent begin their
encodings; while no send has failed and the connection has not been closed, they are the requests
sent, the one being sent and those queued; and after a failed send not one more byte is sent. -/
theorem request_stream_intact {n : ℕ} {h : List (Fin n × Event)} {s : Client n}
    (hrun : Run processConnections (fun s a => shortRequests s a = true) Client.init h s)
    (c : Fin n) (hcount : (queuedOf (onPart c h)).length < 2 ^ 32) :
    (acceptedOf (onPart c h)).map (fun f => f.id.toNat) =
      List.range' 1 (acceptedOf (onPart c h)).length ∧
    sentOf (onPart c h) <+: frameCode.encodeAll (acceptedOf (onPart c h)) ∧
    (.sendFailed ∉ onPart c h → (s.parts c).conn.closed = false →
      InTransit (acceptedOf (onPart c h)) (onPart c h) (s.parts c)) ∧
    ∀ before after, onPart c h = before ++ .sendFailed :: after → sentOf after = [] := by
  obtain ⟨hs, hn, -⟩ := Client.numbered hrun c
  have hst := (streams_run (Client.part_run hrun c)).2
  have hw := (Writing.run (Client.part_run hrun c)).2.2
  rw [hw.accepted hcount]
  refine ⟨?_, hst.front, hw.transit, hw.silent⟩
  have hids := congrArg (List.map UInt32.toNat) hn.ids
  rw [List.map_map, List.map_map] at hids
  rw [List.range'_eq_map_range]
  refine hids.trans (List.map_congr_left fun k hk => ?_)
  rw [List.mem_range] at hk
  rw [Function.comp_apply, UInt32.toNat_ofNat', Nat.mod_eq_of_lt (by omega), Nat.add_comm]

/-- Two requests; the first is being sent. -/
private def requestsOnTheWay (c : Fin 1) : List (ClientAction 1) :=
  [.part c (.sendRequest [7]), .part c (.sendRequest [8]), .test,
    .part c (.io (.waitReadable false)), .part c (.io .internal), .part c (.io .internal),
    .part c (.io (.send (.accepted 4)))]

theorem request_stream_intact_two :
    let q := afterAll processConnections (fun s a => shortRequests s a = true)
      (Client.init (n := 1)) (requestsOnTheWay 0)
    (sentOf (onPart 0 q.2)).length = 4 ∧
      InTransit (acceptedOf (onPart 0 q.2)) (onPart 0 q.2) (q.1.parts 0) := by
  intro q
  have hrun := Run.of_actions processConnections (fun s a => shortRequests s a = true)
    (Client.init (n := 1)) (requestsOnTheWay 0) (by decide)
  exact ⟨by decide, (request_stream_intact hrun 0 (by decide)).2.2.1 (by decide) (by decide)⟩

/-- A request is queued, and the connection is lost before it is sent. -/
private def lostRequest (c : Fin 1) : List (ClientAction 1) :=
  [.part c (.sendRequest [7]), .test, .part c (.io (.waitReadable true)),
    .part c (.io (.recv .failed)), .part c (.io .internal)]

/-- A failed `recv` empties the queue although no send has failed. -/
theorem queue_lost_without_failed_send :
    ¬ ∀ (h : List (Fin 1 × Event)) (s : Client 1),
      Run processConnections (fun s a => shortRequests s a = true) Client.init h s →
      ∀ c, (queuedOf (onPart c h)).length < 2 ^ 32 → .sendFailed ∉ onPart c h →
        InTransit (acceptedOf (onPart c h)) (onPart c h) (s.parts c) := by
  intro hall
  have hrun := Run.of_actions processConnections (fun s a => shortRequests s a = true)
    (Client.init (n := 1)) (lostRequest 0) (by decide)
  obtain ⟨done, current, hrequests, hcurrent, hbytes⟩ := hall _ _ hrun 0 (by decide) (by decide)
  have hnone : current = [] := List.map_eq_nil_iff.mp hcurrent
  have hdone : done = [⟨1, [7]⟩] := by
    rw [hnone, List.append_nil] at hrequests
    exact (List.append_nil done).symm.trans hrequests.symm
  rw [hdone] at hbytes
  exact absurd hbytes (by decide)

end PromiseDemo
