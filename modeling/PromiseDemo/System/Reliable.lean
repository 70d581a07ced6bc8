import PromiseDemo.System.Delivery
import PromiseDemo.Client.Numbering

/-!
# Reliable channels

When no system call fails and fewer than `2^32` requests are made on a connection, their ids are
distinct and the connection stays open, so the agreement on replies needs no further condition.
-/

namespace PromiseDemo

open Transition PromiseStore PrefixCode Duplex

/-- Requests are shorter than `2^31 - 8` bytes and not `"END"`, and no system call fails. -/
def calm (_ : Link) : LinkAction → Bool
  | .inl (.sendRequest payload) => payload.length < 2 ^ 31 - 8 && payload ≠ endPayload
  | .inl (.io (.recv .failed)) | .inl (.io (.send .failed)) => false
  | .inr (.select (.recv .failed)) | .inr (.select (.send .failed)) => false
  | .inr (.asio (.readCompletes _ .failed)) | .inr (.asio (.writeCompletes _ false)) => false
  | _ => true

/-- A link in a calm run, after history `h`. -/
structure Reliable (h : List LinkEvent) (link : Link) : Prop where
  delivering : Delivering h link
  numbered : Numbered (lefts h) link.left
  opened : link.left.conn.closed = false
  unbroken : link.left.phase ≠ .closeRead ∧ link.left.phase ≠ .closeWrite
  written : .writeFailed ∉ rights h
  joined : .disconnected ∉ rights h

namespace Reliable

variable {h es : List LinkEvent} {link link' : Link} {a : LinkAction}

theorem start (kind : ServerKind) (forthCap backCap : Option ℕ) :
    Reliable [] (Link.start kind forthCap backCap) where
  delivering := .start kind forthCap backCap
  numbered := .init
  opened := rfl
  unbroken := ⟨Phase.noConfusion, Phase.noConfusion⟩
  written hf := nomatch hf
  joined hf := nomatch hf

theorem careful (hr : Reliable h link) (ha : calm link a = true)
    (hstep : linkBody.step link a = some (link', es))
    (hcount : (queuedOf (lefts (h ++ es))).length < 2 ^ 32) : link.careful a = true := by
  cases a with
  | inl a =>
    cases a with
    | sendRequest payload =>
      simp only [calm, Bool.and_eq_true, decide_eq_true_eq] at ha
      have hfresh : link.left.conn.pending.lookup link.left.conn.nextId = none := by
        apply hr.numbered.fresh
        cases linkStep_iff.mp hstep with
        | client hv =>
          obtain ⟨-, -, rfl⟩ := View.step_sendRequest.mp hv
          rw [lefts_append, lefts_map_inl, queuedOf_append, Connection.sendEvents, hr.opened] at hcount
          simp only [List.length_append, Bool.false_eq_true, if_false, queuedOf_append,
            queuedOf_cons, Event.queues, List.length_cons, List.length_nil] at hcount
          omega
      have hlen : payload.length ≤ 2 ^ 32 - 9 := by omega
      simp only [Link.careful, View.careful, Bool.or_eq_true, Bool.and_eq_true, decide_eq_true_eq,
        Option.isNone_iff_eq_none]
      exact .inr ⟨⟨hlen, ha.2⟩, hfresh⟩
    | io op =>
      cases op with
      | send result =>
        cases result with
        | accepted n => rfl
        | failed => cases ha
      | _ => rfl
    | _ => rfl
  | inr a =>
    cases a with
    | select a =>
      cases a with
      | send result =>
        cases result with
        | accepted n => rfl
        | failed => cases ha
      | _ => rfl
    | asio a => rfl

theorem clientStep {v v' : View} {b : Action} {ls : List Event} (hopen : v.conn.closed = false)
    (hphase : v.phase ≠ .closeRead ∧ v.phase ≠ .closeWrite) (ha : calm link (.inl b) = true)
    (hv : View.step v b = some (v', ls)) :
    v'.conn.closed = false ∧ v'.phase ≠ .closeRead ∧ v'.phase ≠ .closeWrite := by
  cases ViewStep.of_step hv with
  | sendRequest hp => exact ⟨by simpa using hopen, hphase⟩
  | io hio =>
    cases hio with
    | received hp hc =>
      subst hc
      refine ⟨hopen, ?_⟩
      dsimp only
      split <;> exact ⟨Phase.noConfusion, Phase.noConfusion⟩
    | recvFailed => cases ha
    | sendFailed => cases ha
    | lost hc => exact absurd rfl hphase.1
    | broken hc => exact absurd rfl hphase.2
    | decoded hd => cases hd; exact ⟨hopen, Phase.noConfusion, Phase.noConfusion⟩
    | pushed hr =>
      refine ⟨hopen, ?_⟩
      dsimp only
      split <;> exact ⟨Phase.noConfusion, Phase.noConfusion⟩
    | _ => exact ⟨hopen, Phase.noConfusion, Phase.noConfusion⟩
  | enter => exact ⟨hopen, Phase.noConfusion, Phase.noConfusion⟩
  | leave => exact ⟨hopen, Phase.noConfusion, Phase.noConfusion⟩

theorem serverStep {s t : Server} {b : ServerAction} {rs : List ServerEvent}
    (ha : calm link (.inr b) = true) (hs : s.step b = some (t, rs)) :
    .writeFailed ∉ rs ∧ .disconnected ∉ rs := by
  cases ServerStep.of_step hs with
  | select hs =>
    cases hs with
    | disconnected => cases ha
    | echoFailed => cases ha
    | finishFailed => cases ha
    | _ => simp
  | asio hs =>
    cases hs with
    | readFailed => cases ha
    | writeFailed => cases ha
    | _ => simp

theorem step (hr : Reliable h link) (ha : calm link a = true)
    (hstep : linkBody.step link a = some (link', es))
    (hcount : (queuedOf (lefts (h ++ es))).length < 2 ^ 32) : Reliable (h ++ es) link' := by
  have hdelivering := hr.delivering.step (hr.careful ha hstep hcount) hstep
  cases linkStep_iff.mp hstep with
  | client hv =>
    obtain ⟨hopen, hphase⟩ := clientStep hr.opened hr.unbroken ha hv
    have hn := hr.numbered.step hr.delivering.connected.sound hv
    exact ⟨hdelivering, by simpa using hn, hopen, hphase, by simpa using hr.written,
      by simpa using hr.joined⟩
  | server ht =>
    obtain ⟨hwritten, hjoined⟩ := serverStep ha ht
    exact ⟨hdelivering, by simpa using hr.numbered, hr.opened, hr.unbroken,
      by simpa [hwritten] using hr.written, by simpa [hjoined] using hr.joined⟩

theorem fate (hr : Reliable h link) {answered waiting : List Frame} {stage : ℕ}
    (hl : Answering answered waiting stage (lefts h) link.left) {p : ℕ} {id : UInt32}
    {payload : Bytes} (hissued : .issued p id payload ∈ lefts h) :
    (⟨id, payload⟩ ∈ waiting ∧ resultOf link.left.conn.promises p = none) ∨
      resultOf link.left.conn.promises p = some (.value [payload, endPayload]) := by
  rcases hl.fate hissued with ⟨hw, r, hq, rfl⟩ | hvalue
  · left
    refine ⟨hw, hr.delivering.connected.sound.ledger.unsatisfied hq fun hserved => ?_⟩
    exact (hl.served hserved).2.1 (List.mem_map_of_mem (f := Frame.id) hw)
  · exact .inr hvalue

theorem quiet (hr : Reliable h link) {answered waiting : List Frame} {stage : ℕ}
    (hl : Answering answered waiting stage (lefts h) link.left)
    (hvaluing : link.left.phase.valuing = none) (hheld : link.left.phase.held = [])
    (hforth : link.forth = []) (hback : link.back = []) (hunsent : link.left.unsent = [])
    (howed : link.right.owed = []) (hleft : nextFrame link.left.conn.readBuffer = none)
    (hright : nextFrame link.right.buffered = none) : waiting = [] := by
  have hc := hr.delivering.connected
  have hv := hr.delivering.valid
  -- the server has received and decoded all requests
  have hsent : sentOf (lefts h) = frameCode.encodeAll (queuedOf (lefts h)) := by
    have hall := hc.streams.exact hr.opened hr.unbroken.2
    rwa [hunsent, List.append_nil] at hall
  have hreceived : receivedBytes (rights h) = frameCode.encodeAll (queuedOf (lefts h)) := by
    have hall : sentOf (lefts h) = receivedBytes (rights h) ++ link.forth := hc.conserved.forth
    rw [← hsent, hall, hforth, List.append_nil]
  have hrequests := (hc.serving.inflow.complete hv hreceived hright).1
  -- and the client all replies
  have hreplied : receivedOf (lefts h) = frameCode.encodeAll (replyFrames (queuedOf (lefts h))) := by
    have hall : sentBytes (rights h) = receivedOf (lefts h) ++ link.back := hc.conserved.back
    have howed' := hc.serving.exact hr.written
    rw [howed, List.append_nil, hall, hback, List.append_nil, hrequests] at howed'
    rw [howed', encodeAll_replyFrames]
  have hdecoded := (hc.streams.inflow.complete (Connected.valid_replyFrames hv) hreplied hleft).1
  rw [hl.decoded, hl.queued, hheld, List.append_nil, replyFrames_append,
    List.append_cancel_left_eq] at hdecoded
  have hstage := hl.unfinished hvaluing
  cases waiting with
  | nil => rfl
  | cons f rest =>
    have hlen := congrArg List.length hdecoded
    simp [replyFrames] at hlen
    omega

end Reliable

/-- The invariant holds of each link in every calm run, while fewer than `2^32` requests have been
made on it. -/
theorem System.reliable {n : ℕ} {kind : Fin n → ServerKind} {forthCap backCap : Fin n → Option ℕ}
    {h : List (Fin n × LinkEvent)} {s : System n}
    (hrun : Run system (fun s a => onLinks calm s a = true) (System.init kind forthCap backCap) h s)
    (c : Fin n) (hcount : (queuedOf (lefts (onPart c h))).length < 2 ^ 32) :
    Reliable (onPart c h) (s.parts c) := by
  have hpart : Run linkBody.step (fun link a => calm link a = true)
      (Link.start (kind c) (forthCap c) (backCap c)) (onPart c h) (s.parts c) := by
    refine Loop.project c ?_ ?_ ?_ hrun
    · exact fun _ _ ha => ha
    · exact fun _ => rfl
    · exact fun _ => rfl
  refine hpart.invariant
    (I := fun h link => (queuedOf (lefts h)).length < 2 ^ 32 → Reliable h link)
    (fun _ => .start _ _ _) ?_ hcount
  intro h link link' a es hI ha hs hlt
  have hless : (queuedOf (lefts h)).length < 2 ^ 32 := by
    rw [lefts_append, queuedOf_append, List.length_append] at hlt
    omega
  exact (hI hless).step ha hs hlt

/-- Nothing is in flight or buffered on a link, and no reply is being sent or waits to be sent. -/
structure Link.Quiescent (link : Link) : Prop where
  forth : link.forth = []
  back : link.back = []
  outgoing : link.left.conn.outgoing = []
  readBuffer : link.left.conn.readBuffer = []
  buffered : link.right.buffered = []
  owed : link.right.owed = []

/-- End-to-end delivery.  Over reliable channels of any capacities, in every schedule of the user
threads, the I/O thread and either kind of server: no frame misses its entry, a future that is
ready holds the payload of its own request followed by `"END"`, and whenever the I/O thread is
between two visits and a link is quiescent, every future returned on it is ready. -/
theorem replies_delivered {n : ℕ} {kind : Fin n → ServerKind} {forthCap backCap : Fin n → Option ℕ}
    {h : List (Fin n × LinkEvent)} {s : System n}
    (hrun : Run system (fun s a => onLinks calm s a = true) (System.init kind forthCap backCap) h s)
    (c : Fin n) (hcount : (queuedOf (lefts (onPart c h))).length < 2 ^ 32) :
    let link := s.parts c
    (∀ e, link.left.phase ≠ .threw e) ∧
    (∀ p id payload, .issued p id payload ∈ lefts (onPart c h) →
      ∀ o, resultOf link.left.conn.promises p = some o → o = .value [payload, endPayload]) ∧
    ((∀ i, s.position ≠ .body i) → link.Quiescent →
      ∀ p id payload, .issued p id payload ∈ lefts (onPart c h) →
        resultOf link.left.conn.promises p = some (.value [payload, endPayload])) := by
  intro link
  have hr := System.reliable hrun c hcount
  obtain ⟨answered, waiting, stage, hl⟩ := hr.delivering.answers.live hr.opened
  refine ⟨?_, ?_, ?_⟩
  · intro e hphase
    have hu := hr.delivering.answers.unharmed
    rw [show (s.parts c).left.phase = .threw e from hphase] at hu
    cases hu
  · intro p id payload hissued o ho
    rcases hr.fate hl hissued with ⟨-, hnone⟩ | hvalue
    · cases hnone.symm.trans ho
    · exact Option.some.inj (ho.symm.trans hvalue)
  · intro hpos hq p id payload hissued
    have hlocated : s.Located linkBody := by
      apply Loop.Located.run linkBody_lawful _ hrun
      intro i
      exact iff_of_false (by simp [System.init, Link.start, View.init, linkBody, clientBody])
        (by simp [System.init])
    have haway : (s.parts c).left.phase = .away := by
      have hnot := mt (hlocated c).mp (hpos c)
      simpa [linkBody, clientBody] using hnot
    have hwaiting : waiting = [] := by
      refine hr.quiet hl (by rw [haway]; rfl) (by rw [haway]; rfl) hq.forth hq.back ?_ hq.owed ?_ ?_
      · rw [View.unsent, haway, hq.outgoing]
        rfl
      · rw [hq.readBuffer]
        rfl
      · rw [hq.buffered]
        rfl
    rcases hr.fate hl hissued with ⟨hw, -⟩ | hvalue
    · rw [hwaiting] at hw
      cases hw
    · exact hvalue

/-- `"hi"` goes to a session over channels of 16 and 32 bytes, and its reply is collected in two
rounds. -/
private def deliveredHi : List (SystemAction 1) :=
  [byClient (.sendRequest [104, 105]), .test, byClient (.io (.waitReadable false)),
    byClient (.io .internal), byClient (.io .internal),
    byClient (.io (.send (.accepted 4))), byClient (.io (.send (.accepted 6))),
    byClient (.io .internal),
    byServer (.asio (.readCompletes 0 (.data (encodeFrame 1 [104, 105])))),
    byServer (.asio (.runRead 0)), byServer (.asio .drain),
    byServer (.asio .drain), byServer (.asio (.writeSome 0 21)),
    byServer (.asio (.writeCompletes 0 true)), byServer (.asio (.runWrite 0)),
    .next, .sleep, .test, byClient (.io (.waitReadable true)),
    byClient (.io (.recv (.data (reply ⟨1, [104, 105]⟩)))), byClient (.io .internal),
    byClient (.io .internal), byClient (.io .internal), byClient (.io .internal),
    .next, .sleep, .test, byClient (.io .internal), byClient (.io .internal),
    byClient (.io .internal), byClient (.io .internal), byClient (.io .internal),
    byClient (.io .internal), byClient (.io .internal), .next]

theorem replies_delivered_hi :
    let q := afterAll system (fun s a => onLinks calm s a = true)
      (System.init (fun _ => .asio) (fun _ => some 16) fun _ => some 32) deliveredHi
    resultOf (q.1.parts 0).left.conn.promises 0 = some (.value [[104, 105], endPayload]) := by
  have hrun := Run.of_actions system (fun s a => onLinks calm s a = true)
    (System.init (fun _ => .asio) (fun _ => some 16) fun _ => some 32) deliveredHi (by decide)
  have hquiet := (replies_delivered hrun 0 (by decide)).2.2 (by decide)
    ⟨by decide, by decide, by decide, by decide, by decide, by decide⟩
  exact hquiet 0 1 [104, 105] (by decide)

end PromiseDemo
