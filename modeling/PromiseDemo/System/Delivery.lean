import PromiseDemo.System.Answers
import PromiseDemo.System.Link

/-!
# Delivery of replies

The client and a server agree on where a reply ends as long as no request is `"END"`; on reliable
channels every reply then reaches the future of its request.
-/

namespace PromiseDemo

open Transition PromiseStore PrefixCode Duplex

/-- What client and server rely on: requests and failures of the client as in `View.careful`, and
no failing `::send` in `promise_server`, which would go on with the next frame. -/
def Link.careful (link : Link) : LinkAction → Bool
  | .inl a => link.left.careful a
  | .inr (.select (.send .failed)) => false
  | .inr _ => true

theorem replyFrames_mono {as bs : List Frame} (h : as <+: bs) :
    replyFrames as <+: replyFrames bs := by
  obtain ⟨cs, rfl⟩ := h
  rw [replyFrames_append]
  exact List.prefix_append _ _

/-- A link on which both ends agree on the replies, after history `h`. -/
structure Delivering (h : List LinkEvent) (link : Link) : Prop where
  connected : Connected h link
  answers : Answers (lefts h) link.left
  valid : frameCode.AllValid (queuedOf (lefts h))
  healthy : (∃ c, link.right = .select c) → .writeFailed ∉ rights h

namespace Delivering

variable {h es : List LinkEvent} {link link' : Link} {a : LinkAction}

theorem start (kind : ServerKind) (forthCap backCap : Option ℕ) :
    Delivering [] (Link.start kind forthCap backCap) where
  connected := .start kind forthCap backCap
  answers := .init
  valid _ hf := nomatch hf
  healthy _ hf := nomatch hf

theorem decoded_front (hd : Delivering h link) :
    decodedOf (lefts h) <+: replyFrames (queuedOf (lefts h)) := by
  have hfront := hd.connected.serving.front hd.healthy
  have hdecoded := (hd.connected.answers hd.valid hfront).2
  exact hdecoded.trans (replyFrames_mono (hd.connected.requests hd.valid).2)

/-- The server sends the two frames of each reply in the order of the requests, and nothing
else. -/
theorem sent_front (hd : Delivering h link) :
    sentBytes (rights h) <+: frameCode.encodeAll (replyFrames (queuedOf (lefts h))) := by
  have hfront := hd.connected.serving.front hd.healthy
  rw [← encodeAll_replyFrames] at hfront
  exact hfront.trans (Code.encodeAll_mono (replyFrames_mono (hd.connected.requests hd.valid).2))

theorem step (hd : Delivering h link) (hcare : link.careful a = true)
    (hstep : linkBody.step link a = some (link', es)) : Delivering (h ++ es) link' := by
  have hconnected := hd.connected.step hstep
  cases linkStep_iff.mp hstep with
  | @client a v ls back hv hback hfits =>
    refine ⟨hconnected, ?_, ?_, ?_⟩
    · simpa using hd.answers.step hd.connected.sound hd.decoded_front hcare hv
    · simp only [lefts_append, lefts_map_inl, queuedOf_append]
      intro f hf
      rcases List.mem_append.mp hf with hf | hf
      · exact hd.valid f hf
      · obtain ⟨payload, rfl, hopen, rfl⟩ := View.step_queued hv (mem_queuedOf.mp hf)
        exact (View.careful_sendRequest hcare hopen).1
    · simpa using hd.healthy
  | @server a t rs forth ht hforth hfits =>
    refine ⟨hconnected, by simpa using hd.answers, by simpa using hd.valid, ?_⟩
    rintro ⟨c, rfl⟩
    simp only [rights_append, rights_map_inr, List.mem_append, not_or]
    generalize hright : link.right = s at ht
    cases ServerStep.of_step ht with
    | select hs =>
      refine ⟨hd.healthy ⟨_, hright⟩, ?_⟩
      cases hs with
      | echoFailed => cases hcare
      | finishFailed => cases hcare
      | _ => simp

end Delivering

theorem System.delivering {n : ℕ} {kind : Fin n → ServerKind} {forthCap backCap : Fin n → Option ℕ}
    {h : List (Fin n × LinkEvent)} {s : System n}
    (hrun : Run system (fun s a => onLinks Link.careful s a = true)
      (System.init kind forthCap backCap) h s) (c : Fin n) :
    Delivering (onPart c h) (s.parts c) := by
  have hpart : Run linkBody.step (fun link a => link.careful a = true)
      (Link.start (kind c) (forthCap c) (backCap c)) (onPart c h) (s.parts c) := by
    refine Loop.project c ?_ ?_ ?_ hrun
    · exact fun _ _ ha => ha
    · exact fun _ => rfl
    · exact fun _ => rfl
  exact hpart.invariant (I := Delivering) (.start _ _ _) fun hI ha hs => hI.step ha hs

/-- Client and server agree on where a reply ends.  In every careful run the server sends the two
frames of each reply in the order of the requests; a promise gets its value, and its entry is
removed, when exactly the replies up to the last frame of its own have been decoded; and no frame
ever misses its entry. -/
theorem reply_end_agreed {n : ℕ} {kind : Fin n → ServerKind} {forthCap backCap : Fin n → Option ℕ}
    {h : List (Fin n × LinkEvent)} {s : System n}
    (hrun : Run system (fun s a => onLinks Link.careful s a = true)
      (System.init kind forthCap backCap) h s) (c : Fin n) :
    let link := s.parts c
    let k := lefts (onPart c h)
    sentBytes (rights (onPart c h)) <+: frameCode.encodeAll (replyFrames (queuedOf k)) ∧
    (∀ before after p value, k = before ++ .satisfied p (.value value) :: after →
      Answered before p value) ∧
    (∀ id, link.left.phase = .removeRequest id → ∃ answered f rest,
      queuedOf k = answered ++ f :: rest ∧ f.id = id ∧
        decodedOf k = replyFrames (answered ++ [f])) ∧
    ∀ e, link.left.phase ≠ .threw e := by
  intro link k
  have hd := System.delivering hrun c
  refine ⟨hd.sent_front, hd.answers.values, ?_, ?_⟩
  · intro id hphase
    have hpoint := hd.connected.sound.point
    rw [show (s.parts c).left.phase = .removeRequest id from hphase] at hpoint
    obtain ⟨r, hr⟩ := hpoint
    obtain ⟨answered, waiting, stage, hl⟩ :=
      hd.answers.live (hd.connected.sound.open_of_pending hr)
    have hserved : (s.parts c).left.phase.served = some id := by
      rw [show (s.parts c).left.phase = .removeRequest id from hphase]
      rfl
    obtain ⟨rfl, -, front, f, rfl, hf⟩ := hl.served hserved
    refine ⟨front, f, waiting, ?_, hf, ?_⟩
    · simpa using hl.queued
    · have hdecoded := hl.decoded
      rw [show (s.parts c).left.phase = .removeRequest id from hphase] at hdecoded
      simpa [Phase.held] using hdecoded
  · intro e hphase
    have hu := hd.answers.unharmed
    rw [show (s.parts c).left.phase = .threw e from hphase] at hu
    cases hu

/-- One exchange with `promise_server`: the request is sent, echoed and marked as ended, and both
frames of the reply arrive at once. -/
private def oneExchange (payload : Bytes) : List (SystemAction 1) :=
  [byClient (.sendRequest payload), .test, byClient (.io (.waitReadable false)),
    byClient (.io .internal), byClient (.io .internal),
    byClient (.io (.send (.accepted (8 + payload.length)))), byClient (.io .internal),
    byServer (.select (.visit true)),
    byServer (.select (.recv (.data (encodeFrame 1 payload)))),
    byServer (.select .internal),
    byServer (.select (.send (.accepted (8 + payload.length)))),
    byServer (.select .internal), byServer (.select (.send (.accepted 11))),
    byServer (.select .internal), .next, .sleep, .test,
    byClient (.io (.waitReadable true)),
    byClient (.io (.recv (.data (encodeFrame 1 payload ++ encodeFrame 1 endPayload)))),
    byClient (.io .internal), byClient (.io .internal), byClient (.io .internal)]

/-- The rest of that round, and the dispatch of a second frame in the next. -/
private def oneMoreFrame : List (SystemAction 1) :=
  [byClient (.io .internal), .next, .sleep, .test, byClient (.io .internal),
    byClient (.io .internal), byClient (.io .internal)]

/-- The reply to `"hi"` is decoded to its end before its entry is removed. -/
theorem reply_end_agreed_hi :
    let q := afterAll system (fun s a => onLinks Link.careful s a = true)
      (System.init (fun _ => .select) (fun _ => none) fun _ => none)
      (oneExchange [104, 105] ++ oneMoreFrame ++
        [.part 0 (.inl (.io .internal)), .part 0 (.inl (.io .internal))])
    (q.1.parts 0).left.phase = .removeRequest 1 ∧ ∃ answered f rest,
      queuedOf (lefts (onPart 0 q.2)) = answered ++ f :: rest ∧ f.id = 1 ∧
        decodedOf (lefts (onPart 0 q.2)) = replyFrames (answered ++ [f]) := by
  have hrun := Run.of_actions system (fun s a => onLinks Link.careful s a = true)
    (System.init (fun _ => .select) (fun _ => none) fun _ => none)
    (oneExchange [104, 105] ++ oneMoreFrame ++
      [.part 0 (.inl (.io .internal)), .part 0 (.inl (.io .internal))]) (by decide)
  exact ⟨by decide, (reply_end_agreed hrun 0).2.2.1 1 (by decide)⟩

/-- The request `"END"`: its echo passes for the end of the reply, the entry is removed, and the
frame that does end the reply finds none. -/
theorem end_request_splits_reply :
    ¬ ∀ (h : List (Fin 1 × LinkEvent)) (s : System 1),
      Run system anyAction (System.init (fun _ => .select) (fun _ => none) fun _ => none) h s →
      (∀ before after p value,
        lefts (onPart 0 h) = before ++ .satisfied p (.value value) :: after →
        Answered before p value) ∧ ∀ e, (s.parts 0).left.phase ≠ .threw e := by
  intro hall
  have hrun := Run.of_actions system anyAction
    (System.init (fun _ => .select) (fun _ => none) fun _ => none)
    (oneExchange endPayload ++
      [.part 0 (.inl (.io .internal)), .part 0 (.inl (.io .internal))] ++ oneMoreFrame) (by decide)
  exact (hall _ _ hrun).2 .outOfRange (by decide)

end PromiseDemo
