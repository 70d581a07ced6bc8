import PromiseDemo.System.SessionProgress

/-!
# Progress of the I/O thread on one link

The thread comes to the end of its visit to a link by itself, unless bytes can be moved, a frame
decoded or a future resolved on the way; inside `send_all` it waits only for a session that can
read.
-/

namespace PromiseDemo

open Transition PromiseStore PrefixCode Duplex

variable {P : Link → Prop} {h : List LinkEvent} {link : Link}

theorem client_step {op : IoOp} {v : View} {ls : List Event} (hio : IoStep link.left op v ls)
    (hreads : receivedOf ls = []) (hwrites : sentOf ls = []) :
    linkBody.step link (.inl (.io op)) = some ({ link with left := v }, ls.map .inl) := by
  have hv : View.step link.left (.io op) = some (v, ls) := ioStep_iff.mpr hio
  have hback : link.back = receivedOf ls ++ link.back := by rw [hreads]; rfl
  have hlink := LinkStep.client hv hback (.inl hwrites)
  rw [hwrites, List.append_nil] at hlink
  exact linkStep_iff.mpr hlink

theorem leads_client {op : IoOp} {v : View} {ls : List Event}
    (hu : link.left.phase.isThrew = false) (hio : IoStep link.left op v ls)
    (ha : link.controls (.inl (.io op)) = true) (hreads : receivedOf ls = [])
    (hwrites : sentOf ls = []) (hnext : (linkDrive true).Leads P { link with left := v }) :
    (linkDrive true).Leads P link :=
  .step ⟨hu, ha, fun _ => rfl⟩ (client_step hio hreads hwrites) hnext

theorem ready_incoming {c : Connection} (hleft : link.left = ⟨c, .incoming⟩) :
    (linkDrive true).Ready link := by
  have hio : IoStep link.left .internal ⟨c.incoming.1, .getRequest c.incoming.2⟩
      [.decoded c.incoming.2] := by
    rw [hleft]
    exact .decoded rfl
  exact ready_of_step (e := .inl (.decoded c.incoming.2)) (by rw [hleft]; rfl) rfl (by simp)
    (client_step hio rfl rfl) (by simp) rfl

theorem ready_receive {c : Connection} (hleft : link.left = ⟨c, .receive⟩)
    (hback : link.back ≠ []) : (linkDrive true).Ready link := by
  obtain ⟨b, back, hback⟩ := List.exists_cons_of_ne_nil hback
  obtain ⟨v, hv⟩ : ∃ v, View.step link.left (.io (.recv (.data [b]))) =
      some (v, [.received [b]]) := by
    have hpossible : (RecvResult.data [b]).possible = true := rfl
    rw [hleft]
    exact ⟨_, ioStep_iff.mpr (@IoStep.received c _ [b] hpossible rfl)⟩
  have hback' : link.back = receivedOf [.received [b]] ++ back := by simpa using hback
  have hlink := LinkStep.client hv hback' (.inl rfl)
  exact ready_of_step (e := .inl (.received [b])) (by rw [hleft]; rfl) rfl (by simp)
    (linkStep_iff.mpr hlink) (by simp) rfl

theorem ready_send {c : Connection} {data : Bytes} {sent : ℕ}
    (hleft : link.left = ⟨c, .sending data sent⟩) (hlt : sent < data.length)
    (hfit : data.length < 2 ^ 31) (hroom : full link.forthCap link.forth.length = false) :
    (linkDrive true).Ready link := by
  have hpossible : (SendResult.accepted 1).possible (data.length - sent) = true := by
    have hlen : sendLength (data.length - sent) = data.length - sent :=
      sendLength_of_lt (by omega)
    have hle : 1 ≤ data.length - sent := by omega
    simp [SendResult.possible, hlen, hle]
  have hv : View.step link.left (.io (.send (.accepted 1))) =
      some (⟨c, .sending data (sent + 1)⟩, [.sent ((data.drop sent).take 1)]) := by
    rw [hleft]
    exact ioStep_iff.mpr (.sentSome hlt hpossible)
  have hback : link.back = receivedOf [.sent ((data.drop sent).take 1)] ++ link.back := rfl
  have hone : ((data.drop sent).take 1).length = 1 := by
    rw [List.length_take, List.length_drop]
    omega
  have hfits : fits link.forthCap
      (link.forth ++ sentOf [.sent ((data.drop sent).take 1)]).length = true := by
    rw [List.length_append, sentOf_cons, sentOf_nil, List.append_nil, Event.writes, hone]
    exact fits_succ_of_not_full hroom
  have hlink := LinkStep.client hv hback (.inr hfits)
  exact ready_of_step (e := .inl (.sent ((data.drop sent).take 1))) (by rw [hleft]; rfl) rfl
    (by simp) (linkStep_iff.mpr hlink) (by simp) rfl

namespace Lively

theorem forth_ne_nil (hl : Lively h link) (hfull : full link.forthCap link.forth.length = true) :
    link.forth ≠ [] := by
  intro hnil
  rw [hnil] at hfull
  cases hl.forthRoom.symm.trans hfull

theorem leads_sending (hl : Lively h link) {data : Bytes} {sent : ℕ}
    (hphase : link.left.phase = .sending data sent) (hlt : sent < data.length) :
    (linkDrive true).Leads P link := by
  cases hfull : full link.forthCap link.forth.length with
  | true => exact hl.leads_taken (.inl (hl.forth_ne_nil hfull))
  | false =>
    have hleft : link.left = ⟨link.left.conn, .sending data sent⟩ := by rw [← hphase]
    exact .ready (ready_send hleft hlt (hl.fitting.sending hphase) hfull)

theorem prompt_of_drives {a : LinkAction} (ha : link.drives a = true) : prompt link a = true := by
  unfold Link.drives at ha
  split at ha
  · exact ha
  · exact ha
  · cases ha

theorem drive {a : LinkAction} {link' : Link} {es : List LinkEvent} (hl : Lively h link)
    (ha : link.drives a = true) (hstep : linkBody.step link a = some (link', es))
    (hcount : (queuedOf (lefts h)).length < 2 ^ 32) :
    Lively (h ++ es) link' ∧ queuedOf (lefts es) = [] := by
  have hnone : queuedOf (lefts es) = [] := by
    cases linkStep_iff.mp hstep with
    | client hv =>
      rw [lefts_map_inl, List.eq_nil_iff_forall_not_mem]
      intro f hf
      obtain ⟨payload, rfl, -⟩ := View.step_queued hv (mem_queuedOf.mp hf)
      cases ha
    | server => simp
  refine ⟨hl.step (prompt_of_drives ha) hstep ?_, hnone⟩
  rw [lefts_append, queuedOf_append, hnone, List.append_nil]
  exact hcount

end Lively

/-- How far the thread is at most from the end of its visit, as long as it goes on by itself. -/
@[simp] def Phase.distance : Phase → ℕ
  | .hasIncoming => 7
  | .getRequest _ => 6
  | .pushFrame _ => 5
  | .removeRequest _ => 4
  | .hasOutgoing => 3
  | .popOutgoing => 2
  | .sending _ _ => 1
  | .away | .receive | .closeRead | .incoming | .setValue _ | .closeWrite | .done | .threw _ => 0

namespace Lively

theorem visitStep (hl : Lively h link) (hcount : (queuedOf (lefts h)).length < 2 ^ 32)
    (haway : link.left.phase ≠ .away) (hdone : link.left.phase ≠ .done) :
    (∀ P, (linkDrive true).Leads P link) ∨
    ∃ op v ls, IoStep link.left op v ls ∧ link.controls (.inl (.io op)) = true ∧
      receivedOf ls = [] ∧ sentOf ls = [] ∧ v.phase.distance < link.left.phase.distance := by
  have hsound := hl.reliable.delivering.connected.sound
  have hopen := hl.reliable.opened
  have hunbroken := hl.reliable.unbroken
  have hunharmed := hl.unharmed
  have hpoint := hsound.point
  have hattentive := hl.attentive
  obtain ⟨c, phase, hleft⟩ : ∃ c phase, link.left = ⟨c, phase⟩ := ⟨_, _, rfl⟩
  rw [hleft] at haway hdone hpoint hunbroken hunharmed hattentive hopen
  cases phase with
  | away => exact absurd rfl haway
  | done => exact absurd rfl hdone
  | closeRead => exact absurd rfl hunbroken.1
  | closeWrite => exact absurd rfl hunbroken.2
  | threw e => cases hunharmed
  | hasIncoming =>
    right
    rw [hleft]
    cases hf : c.frameReady with
    | true => exact ⟨_, _, _, .frameBuffered hf, rfl, rfl, rfl, by simp⟩
    | false =>
      cases hb : link.back.isEmpty with
      | true =>
        exact ⟨_, _, _, .notReadable hf hopen, by simp [Link.controls, hb], rfl, rfl, by simp⟩
      | false =>
        exact ⟨_, _, _, .readable hf hopen, by simp [Link.controls, hb], rfl, rfl, by simp⟩
  | receive => exact .inl fun _ => .ready (ready_receive hleft (hattentive rfl))
  | incoming => exact .inl fun _ => .ready (ready_incoming hleft)
  | getRequest data =>
    right
    cases hr : c.getRequest data.id with
    | some request =>
      rw [hleft]
      exact ⟨_, _, _, .found hr, rfl, rfl, rfl, by simp⟩
    | none =>
      -- the lookup would throw, and nothing throws here
      have hio : IoStep link.left .internal ⟨c, .threw .outOfRange⟩ [.lookup data] := by
        rw [hleft]
        exact .missing hr
      have hnext := (hl.drive rfl (client_step hio rfl rfl) hcount).1.unharmed
      cases hnext
  | pushFrame data =>
    right
    obtain ⟨request, hr⟩ := hpoint
    rw [hleft]
    refine ⟨_, _, _, .pushed hr, rfl, rfl, rfl, ?_⟩
    dsimp only
    split <;> simp
  | setValue id =>
    obtain ⟨request, hr⟩ := hpoint
    obtain ⟨promises, hset, -⟩ :=
      Ledger.setValue (hleft ▸ hsound).ledger hr (.value request.frames)
    have hio := IoStep.valueSet hr hset
    rw [← hleft] at hio
    refine .inl fun _ => .ready ?_
    exact ready_of_step (e := .inl (.satisfied request.promise (.value request.frames)))
      hl.unharmed rfl (by simp) (client_step hio rfl rfl) (by simp) rfl
  | removeRequest id =>
    right
    rw [hleft]
    exact ⟨_, _, _, .removed, rfl, rfl, rfl, by simp⟩
  | hasOutgoing =>
    right
    rw [hleft]
    cases ho : c.hasOutgoingData with
    | true => exact ⟨_, _, _, .someOutgoing ho, rfl, rfl, rfl, by simp⟩
    | false => exact ⟨_, _, _, .noOutgoing ho, rfl, rfl, rfl, by simp⟩
  | popOutgoing =>
    right
    obtain ⟨packet, rest, ho⟩ := List.exists_cons_of_ne_nil hpoint.2
    rw [hleft]
    exact ⟨_, _, _, .popped ho, rfl, rfl, rfl, by simp⟩
  | sending data sent =>
    rcases Nat.lt_or_ge sent data.length with hlt | hge
    · exact .inl fun _ => hl.leads_sending (by rw [hleft]) hlt
    · right
      rw [hleft]
      exact ⟨_, _, _, .sentAll hge, rfl, rfl, rfl, by simp⟩

/-- The thread goes on by itself, and the link stays lively. -/
theorem leads_thread {op : IoOp} {v : View} {ls : List Event} (hl : Lively h link)
    (hcount : (queuedOf (lefts h)).length < 2 ^ 32) (hio : IoStep link.left op v ls)
    (ha : link.controls (.inl (.io op)) = true) (hreads : receivedOf ls = [])
    (hwrites : sentOf ls = [])
    (hnext : ∀ {h}, Lively h { link with left := v } → (queuedOf (lefts h)).length < 2 ^ 32 →
      (linkDrive true).Leads P { link with left := v }) : (linkDrive true).Leads P link := by
  obtain ⟨hnextLively, hnone⟩ :=
    hl.drive (Link.drives_of_controls ha) (client_step hio hreads hwrites) hcount
  apply leads_client hl.unharmed hio ha hreads hwrites
  apply hnext hnextLively
  rwa [lefts_append, queuedOf_append, hnone, List.append_nil]

theorem visit (hl : Lively h link) (hcount : (queuedOf (lefts h)).length < 2 ^ 32)
    (haway : link.left.phase ≠ .away) :
    (linkDrive true).Leads (fun link => link.left.phase = .done) link := by
  induction hd : link.left.phase.distance using Nat.strong_induction_on generalizing h link with
  | _ d ih =>
    by_cases hdone : link.left.phase = .done
    · exact .here hdone
    · rcases hl.visitStep hcount haway hdone with hleads | ⟨op, v, ls, hio, ha, hr, hw, hlt⟩
      · exact hleads _
      · apply hl.leads_thread hcount hio ha hr hw
        intro h' hnext hcount'
        exact ih _ (hd ▸ hlt) hnext hcount' hio.phase_ne_away.2 rfl

theorem leads_work (hl : Lively h link) (hcount : (queuedOf (lefts h)).length < 2 ^ 32)
    (hphase : link.left.phase = .hasIncoming)
    (hwork : link.left.conn.frameReady = true ∨ link.back ≠ [] ∨ link.left.conn.outgoing ≠ []) :
    (linkDrive true).Leads P link := by
  obtain ⟨c, hleft⟩ : ∃ c, link.left = ⟨c, .hasIncoming⟩ := ⟨link.left.conn, by rw [← hphase]⟩
  have hopen := hl.reliable.opened
  rw [hleft] at hwork hopen
  dsimp only at hwork hopen
  cases hf : c.frameReady with
  | true =>
    have hio : IoStep link.left .internal ⟨c, .incoming⟩ [] := by
      rw [hleft]
      exact .frameBuffered hf
    exact leads_client hl.unharmed hio rfl rfl rfl (.ready (ready_incoming rfl))
  | false =>
    by_cases hb : link.back = []
    · -- nothing to read, so a packet waits
      obtain ⟨packet, rest, ho⟩ :=
        List.exists_cons_of_ne_nil ((hwork.resolve_left (by simp [hf])).resolve_left (· hb))
      have hidle : IoStep link.left (.waitReadable false) ⟨c, .hasOutgoing⟩ [] := by
        rw [hleft]
        exact .notReadable hf hopen
      apply hl.leads_thread hcount hidle (by simp [Link.controls, hb]) rfl rfl
      intro h' hl hcount
      have hsome : c.hasOutgoingData = true := by
        simp [Connection.hasOutgoingData, ho, hopen]
      apply hl.leads_thread hcount (.someOutgoing hsome) rfl rfl rfl
      intro h' hl hcount
      apply hl.leads_thread hcount (.popped ho) rfl rfl rfl
      intro h' hl hcount
      refine hl.leads_sending rfl ?_
      rw [encodeFrame_length]
      omega
    · have hio : IoStep link.left (.waitReadable true) ⟨c, .receive⟩ [] := by
        rw [hleft]
        exact .readable hf hopen
      refine leads_client hl.unharmed hio (by simp [Link.controls, hb]) rfl rfl ?_
      exact .ready (ready_receive rfl hb)

theorem reads_again (hl : Lively h link) (hforth : link.forth ≠ []) :
    ∃ k link', Run linkBody.step (fun link a => link.handles a = true) link k link' ∧
      link'.left = link.left ∧
      ∃ b link'', linkBody.step link' (.inr (.asio (.readCompletes 0 (.data [b])))) =
        some (link'', [.inr (.received [b])]) := by
  obtain ⟨s, hs, -, -, hr⟩ := hl.ends
  obtain ⟨b, forth, hforth⟩ := List.exists_cons_of_ne_nil hforth
  -- what is buffered begins the encoding of requests
  have hconnected := hl.reliable.delivering.connected
  have hvalid := hl.reliable.delivering.valid
  obtain ⟨hreceived, rest, hqueued⟩ := hconnected.requests hvalid
  have hfront := hconnected.received_front.trans hconnected.streams.front
  rw [hreceived, ← hqueued, frameCode.encodeAll_append, List.prefix_append_right_inj, hs] at hfront
  have hrest : frameCode.AllValid rest := by
    intro f hf
    exact hvalid f (hqueued ▸ List.mem_append_right _ hf)
  have finish : ∀ {link' : Link} {t : Session} {k : List LinkEvent},
      Run linkBody.step (fun link a => link.handles a = true) link k link' →
      link'.left = link.left → link'.forth = link.forth → link'.right = .asio t →
      t.reads = [.outstanding] →
      ∃ k link', Run linkBody.step (fun link a => link.handles a = true) link k link' ∧
        link'.left = link.left ∧
        ∃ b link'', linkBody.step link' (.inr (.asio (.readCompletes 0 (.data [b])))) =
          some (link'', [.inr (.received [b])]) := by
    intro link' t k hrun hleft hsame hright hout
    obtain ⟨link'', hstep⟩ := read_enabled hright hout (hsame.trans hforth)
    exact ⟨k, link', hrun, hleft, b, link'', hstep⟩
  cases hr with
  | outstanding hreads hrun hn hin => exact finish .refl rfl rfl hs hreads
  | @arrived n hreads hrun hin =>
    obtain ⟨t, ht⟩ : ∃ t : Session, t = { s with
        reads := []
        readBuffer := s.readBuffer ++ s.chunk.take n
        running := true } := ⟨_, rfl⟩
    have hstep : s.step (.runRead 0) = some (t, []) := by
      simp [ht, Session.step, hrun, hreads, Session.handleRead]
    have hbuffered : t.readBuffer <+: frameCode.encodeAll rest := by
      simpa [ht, Server.buffered, Session.buffered, hreads] using hfront
    have hu : ({ link with right := .asio t } : Link).left.phase.isThrew = false := hl.unharmed
    obtain ⟨k, link', u, hnext, hleft, hsame, hright, hout⟩ :=
      handler_reads hu rfl (by rw [ht]) (by rw [ht]) hrest hbuffered
    exact finish ((run_handler hl.unharmed hs rfl hstep rfl rfl).trans hnext) hleft hsame hright hout
  | handling hreads hrun hin =>
    have hbuffered : s.readBuffer <+: frameCode.encodeAll rest := by
      simpa [Server.buffered, Session.buffered, hreads] using hfront
    obtain ⟨k, link', t, hnext, hleft, hsame, hright, hout⟩ :=
      handler_reads hl.unharmed hs hrun hreads hrest hbuffered
    exact finish hnext hleft hsame hright hout
  | ended hreads hrun hd hin => exact absurd hd hl.reliable.joined

end Lively

end PromiseDemo
