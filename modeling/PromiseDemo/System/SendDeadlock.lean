import PromiseDemo.System.Link

/-!
# Both ends inside `send_all`

Neither `process_connections` nor `promise_server` reads while it writes.  If the requests that
the server may decode during one `send_all` of the client call for more replies than the channel
to the client holds, while more bytes are on their way than the channel to the server holds, both
can end up waiting for the other to read.
-/

namespace PromiseDemo

open Transition PrefixCode Duplex

/-- `promise_server` is inside `send_all` with bytes left, and the channel to the client is full. -/
def Link.serverBlocked (link : Link) : Bool :=
  match link.right with
  | .select ⟨_, .echo request sent⟩ =>
      sent < (echoFrame request).length && full link.backCap link.back.length
  | .select ⟨_, .finish request sent⟩ =>
      sent < (endFrame request).length && full link.backCap link.back.length
  | _ => false

/-- `bytes` are what the server has not decoded, the last `ahead` of which it has not received, and
`owed` counts the bytes of replies that the client has not received.  However many requests the
server decodes next: the replies then owed fit into the channel to the client, or the bytes not
received fit into the channel to the server. -/
def roomy (forthCap backCap : Option ℕ) (ahead : ℕ) : ℕ → ℕ → Bytes → Bool
  | 0, _, _ => false
  | fuel + 1, owed, bytes =>
      (fits backCap owed || fits forthCap ahead || fits forthCap bytes.length) &&
        match nextFrame bytes with
        | none => true
        | some (request, rest) =>
            roomy forthCap backCap ahead fuel (owed + (reply request).length) rest

/-- Is there room for what follows when the frame `data` is put on the link? -/
def Link.roomFor (link : Link) (data : Bytes) : Bool :=
  let bytes := link.right.buffered ++ (link.forth ++ data)
  roomy link.forthCap link.backCap (link.forth ++ data).length (bytes.length + 1)
    (link.back ++ link.right.owed).length bytes

/-- Requests fit the format, and none is popped before there is room for what follows. -/
def Link.spacious (link : Link) : LinkAction → Bool
  | .inl (.sendRequest payload) => payload.length ≤ 2 ^ 32 - 9
  | .inl (.io .internal) =>
      match link.left.phase, link.left.conn.outgoing with
      | .popOutgoing, packet :: _ => link.roomFor (encodeFrame packet.id packet.payload)
      | _, _ => true
  | _ => true

theorem fits_mono {cap : Option ℕ} {m n : ℕ} (h : fits cap n = true) (hle : m ≤ n) :
    fits cap m = true := by
  cases cap with
  | none => rfl
  | some c => simp [fits] at h ⊢; omega

theorem fits_eq_false {cap : Option ℕ} {m n : ℕ} (h : full cap m = true) (hlt : m < n) :
    fits cap n = false := by
  cases cap with
  | none => cases h
  | some c => simp [full, fits] at h ⊢; omega

variable {forthCap backCap : Option ℕ} {ahead ahead' owed owed' fuel : ℕ} {bytes rest : Bytes}

theorem roomy_mono (h : roomy forthCap backCap ahead fuel owed bytes = true)
    (hahead : ahead' ≤ ahead) (howed : owed' ≤ owed) :
    roomy forthCap backCap ahead' fuel owed' bytes = true := by
  induction fuel generalizing owed owed' bytes with
  | zero => cases h
  | succ fuel ih =>
    simp only [roomy, Bool.and_eq_true, Bool.or_eq_true] at h ⊢
    obtain ⟨hnow, hnext⟩ := h
    refine ⟨?_, ?_⟩
    · rcases hnow with (hb | hf) | hf
      · exact .inl (.inl (fits_mono hb howed))
      · exact .inl (.inr (fits_mono hf hahead))
      · exact .inr hf
    · split
      · rfl
      · rename_i request rest hn
        simp only [hn] at hnext
        exact ih hnext (by omega)

theorem roomy_decode {request : Frame} (h : roomy forthCap backCap ahead fuel owed bytes = true)
    (hn : nextFrame bytes = some (request, rest)) :
    ∃ fuel', roomy forthCap backCap ahead fuel' (owed + (reply request).length) rest = true := by
  cases fuel with
  | zero => cases h
  | succ fuel =>
    simp only [roomy, hn, Bool.and_eq_true] at h
    exact ⟨fuel, h.2⟩

theorem roomy_not_stuck {m n : ℕ} (h : roomy forthCap backCap ahead fuel owed bytes = true)
    (hforth : full forthCap m = true) (hback : full backCap n = true) (hahead : m < ahead)
    (hbytes : ahead ≤ bytes.length) (howed : n < owed) : False := by
  cases fuel with
  | zero => cases h
  | succ fuel =>
    simp only [roomy, Bool.and_eq_true, Bool.or_eq_true] at h
    rcases h.1 with (hb | hf) | hf
    · cases hb.symm.trans (fits_eq_false hback howed)
    · cases hf.symm.trans (fits_eq_false hforth hahead)
    · cases hf.symm.trans (fits_eq_false hforth (hahead.trans_le hbytes))

/-- A link to `promise_server` after history `h`: while the client is inside `send_all` there is
room for what may follow. -/
structure Roomy (h : List LinkEvent) (link : Link) : Prop where
  connected : Connected h link
  valid : frameCode.AllValid (queuedOf (lefts h))
  selected : ∃ c, link.right = .select c
  room : ∀ {data sent}, link.left.phase = .sending data sent → ∃ fuel,
    roomy link.forthCap link.backCap (link.forth ++ data.drop sent).length fuel
      (link.back ++ link.right.owed).length
      (link.right.buffered ++ (link.forth ++ data.drop sent)) = true

namespace Roomy

variable {h es : List LinkEvent} {link link' : Link}

theorem start (forthCap backCap : Option ℕ) : Roomy [] (Link.start .select forthCap backCap) where
  connected := .start .select forthCap backCap
  valid _ hf := nomatch hf
  selected := ⟨_, rfl⟩
  room hp := nomatch hp

theorem clientRoom {a : Action} {v : View} {ls : List Event} {back data : Bytes} {sent : ℕ}
    (hr : Roomy h link) (ha : link.spacious (.inl a) = true)
    (hv : View.step link.left a = some (v, ls)) (hback : link.back = receivedOf ls ++ back)
    (hphase : v.phase = .sending data sent) : ∃ fuel,
    roomy link.forthCap link.backCap (link.forth ++ sentOf ls ++ data.drop sent).length fuel
      (back ++ link.right.owed).length
      (link.right.buffered ++ (link.forth ++ sentOf ls ++ data.drop sent)) = true := by
  obtain ⟨hnone, hwhere⟩ := View.step_sending hv hphase
  rw [hnone, List.nil_append] at hback
  rw [← hback, List.append_assoc link.forth]
  rcases hwhere with ⟨sent', hphase', he⟩ | ⟨rfl, hphase', he, rfl, packet, rest, ho, rfl⟩
  · rw [he]
    exact hr.room hphase'
  · simp only [Link.spacious, hphase', ho] at ha
    rw [he, List.nil_append, List.drop_zero]
    exact ⟨_, ha⟩

theorem serverRoom {a : ServerAction} {t : Server} {rs : List ServerEvent} {forth data : Bytes}
    {sent : ℕ} (hr : Roomy h link) (ht : link.right.step a = some (t, rs))
    (hforth : link.forth = receivedBytes rs ++ forth)
    (hphase : link.left.phase = .sending data sent) : ∃ fuel,
    roomy link.forthCap link.backCap (forth ++ data.drop sent).length fuel
      (link.back ++ sentBytes rs ++ t.owed).length
      (t.buffered ++ (forth ++ data.drop sent)) = true := by
  obtain ⟨fuel, hroom⟩ := hr.room hphase
  have hbuffered := (hr.connected.requests hr.valid)
  have hreceived := hr.connected.received_front.trans hr.connected.streams.front
  have hvalid := hr.valid
  obtain ⟨c, hc⟩ := hr.selected
  rw [hc] at ht hroom hbuffered
  cases ServerStep.of_step ht with
  | select hs =>
    cases hs with
    | visited =>
      rename_i buffer ready
      rw [hforth] at hroom
      cases ready <;> exact ⟨fuel, by simpa [Server.owed, SelectConnection.owed, Server.buffered] using hroom⟩
    | @received buffer chunk hp =>
      refine ⟨fuel, ?_⟩
      rw [hforth] at hroom
      simp only [Server.owed, SelectConnection.owed, Server.buffered, receivedBytes_cons,
        ServerEvent.reads, receivedBytes_nil, List.append_nil, List.append_assoc] at hroom ⊢
      exact roomy_mono hroom (by simp) (by simp)
    | disconnected =>
      rw [hforth] at hroom
      exact ⟨fuel, by simpa [Server.owed, SelectConnection.owed, Server.buffered] using hroom⟩
    | @decoded buffer rest request hn =>
      rw [hforth] at hroom
      simp only [Server.owed, SelectConnection.owed, Server.buffered, receivedBytes_cons,
        ServerEvent.reads, receivedBytes_nil, List.nil_append, List.append_nil] at hroom hbuffered ⊢
      -- the buffer starts the stream of requests that are left
      obtain ⟨hall, ⟨left, hleft⟩⟩ := hbuffered
      rw [← hleft] at hvalid hreceived
      rw [hall, Code.encodeAll_append, List.prefix_append_right_inj] at hreceived
      have hvalid' : frameCode.AllValid left := fun f hf => hvalid f (List.mem_append_right _ hf)
      obtain ⟨requests, rfl, rfl, -⟩ := Code.of_decode hvalid' hreceived hn
      have hn' : nextFrame (frameCode.encode request ++ rest ++ (forth ++ data.drop sent)) =
          some (request, rest ++ (forth ++ data.drop sent)) := by
        rw [List.append_assoc]
        exact frameCode.decode_encode request _ (hvalid' request (by simp))
      obtain ⟨fuel', hroom'⟩ := roomy_decode hroom hn'
      refine ⟨fuel', ?_⟩
      simpa [reply, echoFrame, endFrame, Nat.add_assoc] using hroom'
    | drained hn =>
      rw [hforth] at hroom
      exact ⟨fuel, by simpa [Server.owed, SelectConnection.owed, Server.buffered] using hroom⟩
    | echoed hle =>
      rw [hforth] at hroom
      exact ⟨fuel, by simpa [Server.owed, SelectConnection.owed, Server.buffered,
        List.drop_of_length_le hle] using hroom⟩
    | @echoSome buffer request done n hlt hp =>
      rw [hforth] at hroom
      refine ⟨fuel, ?_⟩
      simp only [Server.owed, SelectConnection.owed, sentBytes_cons, ServerEvent.writes,
        sentBytes_nil, List.append_nil] at hroom ⊢
      rw [accepted_stream n rfl]
      exact hroom
    | echoFailed hlt =>
      rw [hforth] at hroom
      refine ⟨fuel, roomy_mono (by simpa [Server.buffered] using hroom) (by simp) ?_⟩
      simp [Server.owed, SelectConnection.owed]
    | finished hle =>
      rw [hforth] at hroom
      exact ⟨fuel, by simpa [Server.owed, SelectConnection.owed, Server.buffered,
        List.drop_of_length_le hle] using hroom⟩
    | @finishSome buffer request done n hlt hp =>
      rw [hforth] at hroom
      refine ⟨fuel, ?_⟩
      simp only [Server.owed, SelectConnection.owed, sentBytes_cons, ServerEvent.writes,
        sentBytes_nil, List.append_nil] at hroom ⊢
      have hsplit := accepted_stream n
        (rfl : link.back ++ ((endFrame request).drop done ++ []) = _)
      rw [List.append_nil, List.append_nil] at hsplit
      rw [hsplit]
      exact hroom
    | finishFailed hlt =>
      rw [hforth] at hroom
      refine ⟨fuel, roomy_mono (by simpa [Server.buffered] using hroom) (by simp) ?_⟩
      simp [Server.owed, SelectConnection.owed]

theorem step {a : LinkAction} (hr : Roomy h link) (ha : link.spacious a = true)
    (hstep : linkBody.step link a = some (link', es)) : Roomy (h ++ es) link' := by
  have hconnected := hr.connected.step hstep
  cases linkStep_iff.mp hstep with
  | @client a v ls back hv hback hfits =>
    refine ⟨hconnected, ?_, hr.selected, fun hphase => hr.clientRoom ha hv hback hphase⟩
    simp only [lefts_append, lefts_map_inl, queuedOf_append]
    intro f hf
    rcases List.mem_append.mp hf with hf | hf
    · exact hr.valid f hf
    · obtain ⟨payload, rfl, -, rfl⟩ := View.step_queued hv (mem_queuedOf.mp hf)
      simpa [Link.spacious, frameCode] using ha
  | server ht hforth hfits =>
    refine ⟨hconnected, by simpa using hr.valid, ?_, fun hphase => hr.serverRoom ht hforth hphase⟩
    obtain ⟨c, hc⟩ := hr.selected
    rw [hc] at ht
    cases ServerStep.of_step ht with
    | select hs => exact ⟨_, rfl⟩

/-- With room for what may follow, one of the two ends can go on. -/
theorem not_stuck (hr : Roomy h link) :
    ¬(link.clientBlocked = true ∧ link.serverBlocked = true) := by
  rintro ⟨hclient, hserver⟩
  have howed : 0 < link.right.owed.length ∧ full link.backCap link.back.length = true := by
    rw [Link.serverBlocked] at hserver
    split at hserver
    · rename_i buffer request sent hright
      simp only [Bool.and_eq_true, decide_eq_true_eq] at hserver
      refine ⟨?_, hserver.2⟩
      rw [hright]
      simp only [Server.owed, SelectConnection.owed, List.length_append, List.length_drop]
      omega
    · rename_i buffer request sent hright
      simp only [Bool.and_eq_true, decide_eq_true_eq] at hserver
      refine ⟨?_, hserver.2⟩
      rw [hright]
      simp only [Server.owed, SelectConnection.owed, List.length_drop]
      omega
    · cases hserver
  rw [Link.clientBlocked] at hclient
  split at hclient
  · rename_i data sent hphase
    simp only [Bool.and_eq_true, decide_eq_true_eq] at hclient
    obtain ⟨fuel, hroom⟩ := hr.room hphase
    apply roomy_not_stuck hroom hclient.2 howed.2
    · rw [List.length_append, List.length_drop]
      omega
    · simp
    · rw [List.length_append]
      omega
  · cases hclient

end Roomy

/-- No send-send deadlock, for any capacities and any schedule, in a run in which each request is
popped only when there is room for what follows. -/
theorem no_send_deadlock {n : ℕ} {forthCap backCap : Fin n → Option ℕ}
    {h : List (Fin n × LinkEvent)} {s : System n}
    (hrun : Run system (fun s a => onLinks Link.spacious s a = true)
      (System.init (fun _ => .select) forthCap backCap) h s) (c : Fin n) :
    ¬((s.parts c).clientBlocked = true ∧ (s.parts c).serverBlocked = true) := by
  have hpart : Run linkBody.step (fun link a => link.spacious a = true)
      (Link.start .select (forthCap c) (backCap c)) (onPart c h) (s.parts c) := by
    refine Loop.project c ?_ ?_ ?_ hrun
    · exact fun _ _ ha => ha
    · exact fun _ => rfl
    · exact fun _ => rfl
  exact (hpart.invariant (I := Roomy) (.start _ _) fun hI ha hs => hI.step ha hs).not_stuck

/-- Over channels of eight bytes the first request is sent, and the client is about to pop the
second or, with `ahead`, has done so when the echo of the first fills the channel to it; then it
sends until the other channel is full as well. -/
private def twoRequests (ahead : Bool) : List (SystemAction 1) :=
  [byClient (.sendRequest []), byClient (.sendRequest [120]), .test,
    byClient (.io (.waitReadable false)), byClient (.io .internal),
    byClient (.io .internal), byClient (.io (.send (.accepted 8))),
    byClient (.io .internal), .next, .sleep, .test,
    byClient (.io (.waitReadable false)), byClient (.io .internal)] ++
  (if ahead then [byClient (.io .internal)] else []) ++
  [byServer (.select (.visit true)),
    byServer (.select (.recv (.data (encodeFrame 1 [])))), byServer (.select .internal),
    byServer (.select (.send (.accepted 8))), byServer (.select .internal)] ++
  if ahead then [byClient (.io (.send (.accepted 8)))] else []

/-- While the first reply fills its channel, the client is not stuck. -/
theorem no_send_deadlock_echo :
    let s := (afterAll system (fun s a => onLinks Link.spacious s a = true)
      (System.init (fun _ => .select) (fun _ => some 8) fun _ => some 8) (twoRequests false)).1
    (s.parts 0).serverBlocked = true ∧
      ¬((s.parts 0).clientBlocked = true ∧ (s.parts 0).serverBlocked = true) := by
  have hrun := Run.of_actions system (fun s a => onLinks Link.spacious s a = true)
    (System.init (fun _ => .select) (fun _ => some 8) fun _ => some 8) (twoRequests false)
    (by decide)
  exact ⟨by decide, no_send_deadlock hrun 0⟩

theorem two_requests_deadlock :
    ¬ ∀ forthCap backCap : ℕ, 0 < forthCap → 0 < backCap →
      ∀ (h : List (Fin 1 × LinkEvent)) (s : System 1),
        Run system anyAction
          (System.init (fun _ => .select) (fun _ => some forthCap) fun _ => some backCap) h s →
        ∀ c, ¬((s.parts c).clientBlocked = true ∧ (s.parts c).serverBlocked = true) := by
  intro hall
  have hrun := Run.of_actions system anyAction
    (System.init (fun _ => .select) (fun _ => some 8) fun _ => some 8) (twoRequests true)
    (by decide)
  exact hall 8 8 (by decide) (by decide) _ _ hrun 0 (by decide)

end PromiseDemo
