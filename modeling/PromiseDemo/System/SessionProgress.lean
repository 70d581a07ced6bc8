import PromiseDemo.Framework.Drive
import PromiseDemo.System.Lively

/-!
# Progress of a session

A session goes on reading whatever its writes do: what is on its way to it can arrive, what is
complete in its buffer can be decoded, and what it owes can be sent when there is room.
-/

namespace PromiseDemo

open Transition PromiseStore PrefixCode Duplex

/-- Does the event move bytes, decode a frame or resolve a future? -/
def productive : LinkEvent → Bool
  | .inl (.received _) | .inl (.sent _) | .inl (.decoded _) | .inl (.satisfied _ _) => true
  | .inr (.received _) | .inr (.sent _) | .inr (.decoded _) => true
  | _ => false

/-- The I/O thread goes on by itself or asks for readiness; a handler of a session runs, or a
write of which all is sent completes. -/
def Link.controls (link : Link) : LinkAction → Bool
  | .inl (.io .internal) => true
  | .inl (.io (.waitReadable ready)) => ready == !link.back.isEmpty
  | .inr (.asio (.runRead _)) | .inr (.asio .drain) | .inr (.asio (.writeCompletes _ true))
  | .inr (.asio (.runWrite _)) => true
  | _ => false

/-- As `controls`, of the session alone. -/
def Link.handles (link : Link) (a : LinkAction) : Bool :=
  !link.left.phase.isThrew && a.isRight && link.controls a

/-- Everything that happens without a user thread or a failure. -/
def Link.drives (link : Link) : LinkAction → Bool
  | .inl (.io op) => prompt link (.inl (.io op))
  | .inr a => prompt link (.inr a)
  | _ => false

theorem Link.drives_of_controls {link : Link} {a : LinkAction} (h : link.controls a = true) :
    link.drives a = true := by
  unfold Link.controls at h
  split at h
  · rfl
  · exact h
  · rfl
  · rfl
  · rfl
  · rfl
  · cases h

/-- A link by itself; the I/O thread takes part in it when it is there. -/
def linkDrive (thread : Bool) : Drive Link LinkAction LinkEvent where
  step := linkBody.step
  own link a := link.left.phase.isThrew = false ∧ link.controls a = true ∧
    (a.isLeft = true → thread = true)
  allowed link a := link.left.phase.isThrew = false ∧ link.drives a = true ∧
    (a.isLeft = true → thread = true)
  good := productive
  own_allowed h := ⟨h.1, Link.drives_of_controls h.2.1, h.2.2⟩

variable {thread : Bool} {P : Link → Prop} {h : List LinkEvent} {link : Link}

theorem ready_of_step {a : LinkAction} {link' : Link} {es : List LinkEvent} {e : LinkEvent}
    (hu : link.left.phase.isThrew = false) (ha : link.drives a = true)
    (hthread : a.isLeft = true → thread = true) (hstep : linkBody.step link a = some (link', es))
    (he : e ∈ es) (hgood : productive e = true) : (linkDrive thread).Ready link :=
  ⟨a, link', es, ⟨hu, ha, hthread⟩, hstep, e, he, hgood⟩

/-! ## The session -/

section Server

variable {s t : Session} {rs : List ServerEvent}

theorem session_step {a : SessionAction} (hs : link.right = .asio s)
    (hstep : s.step a = some (t, rs)) (hreads : receivedBytes rs = [])
    (hwrites : sentBytes rs = []) :
    linkBody.step link (.inr (.asio a)) = some ({ link with right := .asio t }, rs.map .inr) := by
  have ht : link.right.step (.asio a) = some (.asio t, rs) := by
    rw [hs, Server.step, hstep]
    rfl
  have hforth : link.forth = receivedBytes rs ++ link.forth := by rw [hreads]; rfl
  have hlink := LinkStep.server ht hforth (.inl hwrites)
  rw [hwrites, List.append_nil] at hlink
  exact linkStep_iff.mpr hlink

theorem leads_session {a : SessionAction} (hu : link.left.phase.isThrew = false)
    (hs : link.right = .asio s) (ha : link.controls (.inr (.asio a)) = true)
    (hstep : s.step a = some (t, rs)) (hreads : receivedBytes rs = []) (hwrites : sentBytes rs = [])
    (hnext : (linkDrive thread).Leads P { link with right := .asio t }) :
    (linkDrive thread).Leads P link :=
  .step ⟨hu, ha, by simp⟩ (session_step hs hstep hreads hwrites) hnext

theorem read_enabled {b : UInt8} {forth : Bytes} (hs : link.right = .asio s)
    (hr : s.reads = [.outstanding]) (hforth : link.forth = b :: forth) : ∃ link',
    linkBody.step link (.inr (.asio (.readCompletes 0 (.data [b])))) =
      some (link', [.inr (.received [b])]) := by
  have ht : link.right.step (.asio (.readCompletes 0 (.data [b]))) =
      some (.asio { s with chunk := [b] ++ s.chunk.drop 1, reads := [.completed (some 1)] },
        [.received [b]]) := by
    rw [hs]
    simp [Server.step, Session.step, hr, RecvResult.possible, recvLimit]
  have hforth' : link.forth = receivedBytes [.received [b]] ++ forth := by simpa using hforth
  exact ⟨_, linkStep_iff.mpr (.server ht hforth' (.inl rfl))⟩

theorem ready_read (hu : link.left.phase.isThrew = false) (hs : link.right = .asio s)
    (hr : s.reads = [.outstanding]) (hforth : link.forth ≠ []) : (linkDrive thread).Ready link := by
  obtain ⟨b, forth, hforth⟩ := List.exists_cons_of_ne_nil hforth
  obtain ⟨link', hstep⟩ := read_enabled hs hr hforth
  exact ready_of_step hu rfl (by simp) hstep (List.mem_singleton_self _) rfl

theorem ready_decode {request : Frame} {rest : Bytes} (hu : link.left.phase.isThrew = false)
    (hs : link.right = .asio s) (hrun : s.running = true)
    (hn : nextFrame s.readBuffer = some (request, rest)) : (linkDrive thread).Ready link := by
  obtain ⟨t, rs, hstep, hreads, hwrites, -⟩ := drain_decodes hrun hn
  have hlink := session_step hs hstep (by simp [hreads]) (by simp [hwrites])
  exact ready_of_step (e := .inr (.decoded request)) hu rfl (by simp) hlink (by simp) rfl

theorem leads_handler (hu : link.left.phase.isThrew = false) (hs : link.right = .asio s)
    (hrun : s.running = true) (hreads : s.reads = [])
    (hwork : link.forth ≠ [] ∨ nextFrame s.readBuffer ≠ none) : (linkDrive thread).Leads P link := by
  cases hn : nextFrame s.readBuffer with
  | some q => exact .ready (ready_decode hu hs hrun hn)
  | none =>
    refine leads_session hu hs rfl (drain_rearms hrun hn) rfl rfl (.ready (ready_read hu rfl ?_ ?_))
    · rw [hreads]
      rfl
    · exact hwork.resolve_right fun hne => hne hn

theorem ready_write {op : WriteOp} (hu : link.left.phase.isThrew = false)
    (hs : link.right = .asio s) (hopen : s.isOpen = true) (hw : s.writes = [op])
    (ho : op.outcome = none) (hlt : op.sent < op.data.length)
    (hroom : full link.backCap link.back.length = false) : (linkDrive thread).Ready link := by
  have ht : link.right.step (.asio (.writeSome 0 1)) =
      some (.asio { s with writes := [{ op with sent := op.sent + 1 }] },
        [.sent ((op.data.drop op.sent).take 1)]) := by
    have hle : 1 ≤ op.data.length - op.sent := by omega
    rw [hs]
    simp [Server.step, Session.step, hw, ho, hopen, hle]
  have hone : ((op.data.drop op.sent).take 1).length = 1 := by
    rw [List.length_take, List.length_drop]
    omega
  have hfits : fits link.backCap (link.back ++ sentBytes
      [.sent ((op.data.drop op.sent).take 1)]).length = true := by
    rw [List.length_append, sentBytes_cons, sentBytes_nil, List.append_nil, ServerEvent.writes, hone]
    exact fits_succ_of_not_full hroom
  have hforth : link.forth =
      receivedBytes [.sent ((op.data.drop op.sent).take 1)] ++ link.forth := rfl
  have hlink := LinkStep.server ht hforth (.inr hfits)
  exact ready_of_step (e := .inr (.sent ((op.data.drop op.sent).take 1))) hu rfl (by simp)
    (linkStep_iff.mpr hlink) (by simp) rfl

theorem leads_writer {rest : List Bytes} {op : WriteOp} (hu : link.left.phase.isThrew = false)
    (hs : link.right = .asio s) (hopen : s.isOpen = true) (hw : s.writes = [op])
    (hq : s.writeQueue = op.data :: rest) (hle : op.sent ≤ op.data.length)
    (hall : op.outcome = some true → op.sent = op.data.length) (hok : op.outcome ≠ some false)
    (howed : op.data.drop op.sent ++ rest.flatten ≠ [])
    (hroom : full link.backCap link.back.length = false) : (linkDrive thread).Leads P link := by
  induction rest generalizing op s link with
  | nil =>
    have hlt : op.sent < op.data.length := by
      by_contra hge
      exact howed (by simp [List.drop_of_length_le (Nat.le_of_not_lt hge)])
    cases ho : op.outcome with
    | none => exact .ready (ready_write hu hs hopen hw ho hlt hroom)
    | some ok =>
      cases ok with
      | true => exact absurd (hall ho) (by omega)
      | false => exact absurd ho hok
  | cons next rest ih =>
    -- the handler of the finished write starts the next one
    have popped : ∀ {s : Session} {link : Link} {op : WriteOp},
        link.left.phase.isThrew = false → link.right = .asio s → s.isOpen = true →
        s.writes = [op] → s.writeQueue = op.data :: next :: rest → op.outcome = some true →
        op.sent = op.data.length → op.data.drop op.sent ++ (next :: rest).flatten ≠ [] →
        full link.backCap link.back.length = false → s.running = false →
        (linkDrive thread).Leads P link := by
      intro s link op hu hs hopen hw hq ho hsent howed hroom hrun
      have hstep : s.step (.runWrite 0) = some ({ s with
          writes := [{ data := next }]
          writeQueue := next :: rest }, [.started next]) := by
        simp [Session.step, hrun, hw, ho, Session.handleWrite, hq, Session.doWrite]
      refine leads_session hu hs rfl hstep rfl rfl ?_
      refine ih hu rfl hopen rfl rfl (Nat.zero_le _) (by simp) (by simp) ?_ hroom
      simpa [hsent] using howed
    have finished : ∀ {s : Session} {link : Link} {op : WriteOp},
        link.left.phase.isThrew = false → link.right = .asio s → s.isOpen = true →
        s.writes = [op] → s.writeQueue = op.data :: next :: rest → op.outcome = some true →
        op.sent = op.data.length → op.data.drop op.sent ++ (next :: rest).flatten ≠ [] →
        full link.backCap link.back.length = false → (linkDrive thread).Leads P link := by
      intro s link op hu hs hopen hw hq ho hsent howed hroom
      cases hrun : s.running with
      | false => exact popped hu hs hopen hw hq ho hsent howed hroom hrun
      | true =>
        cases hn : nextFrame s.readBuffer with
        | some q => exact .ready (ready_decode hu hs hrun hn)
        | none =>
          refine leads_session hu hs rfl (drain_rearms hrun hn) rfl rfl ?_
          exact popped hu rfl hopen hw hq ho hsent howed hroom rfl
    cases ho : op.outcome with
    | none =>
      by_cases hlt : op.sent < op.data.length
      · exact .ready (ready_write hu hs hopen hw ho hlt hroom)
      · have hsent : op.sent = op.data.length := by omega
        have hstep : s.step (.writeCompletes 0 true) = some ({ s with
            writes := [{ op with outcome := some true }] }, []) := by
          simp [Session.step, hw, ho, hsent]
        refine leads_session hu hs rfl hstep rfl rfl ?_
        exact finished hu rfl hopen rfl hq rfl hsent howed hroom
    | some ok =>
      cases ok with
      | true => exact finished hu hs hopen hw hq ho (hall ho) howed hroom
      | false => exact absurd ho hok

theorem run_handler {a : SessionAction} (hu : link.left.phase.isThrew = false)
    (hs : link.right = .asio s) (ha : link.controls (.inr (.asio a)) = true)
    (hstep : s.step a = some (t, rs)) (hreads : receivedBytes rs = [])
    (hwrites : sentBytes rs = []) :
    Run linkBody.step (fun link a => link.handles a = true) link (rs.map .inr)
      { link with right := .asio t } := by
  refine .single (a := .inr (.asio a)) ?_ (session_step hs hstep hreads hwrites)
  simp [Link.handles, hu, ha]

theorem handler_reads {requests : List Frame} (hu : link.left.phase.isThrew = false)
    (hs : link.right = .asio s) (hrun : s.running = true) (hreads : s.reads = [])
    (hvalid : frameCode.AllValid requests) (hfront : s.readBuffer <+: frameCode.encodeAll requests) :
    ∃ k link' t, Run linkBody.step (fun link a => link.handles a = true) link k link' ∧
      link'.left = link.left ∧ link'.forth = link.forth ∧ link'.right = .asio t ∧
      t.reads = [.outstanding] := by
  induction requests generalizing s link with
  | nil =>
    have hn : nextFrame s.readBuffer = none := by
      rw [List.prefix_nil.mp hfront]
      rfl
    exact ⟨_, _, _, run_handler hu hs rfl (drain_rearms hrun hn) rfl rfl, rfl, rfl, rfl,
      by simp [hreads]⟩
  | cons f requests ih =>
    cases hn : nextFrame s.readBuffer with
    | none =>
      exact ⟨_, _, _, run_handler hu hs rfl (drain_rearms hrun hn) rfl rfl, rfl, rfl, rfl,
        by simp [hreads]⟩
    | some q =>
      obtain ⟨t, rs, hstep, hr, hw, hrun', hreads', hbuffer⟩ := drain_decodes hrun hn
      obtain ⟨bs, he, -, hrest⟩ := Code.of_decode hvalid hfront hn
      obtain ⟨rfl, rfl⟩ := List.cons.inj he
      have hvalid' : frameCode.AllValid requests := fun g hg => hvalid g (List.mem_cons_of_mem _ hg)
      have hdrained := run_handler hu hs rfl hstep (by simp [hr]) (by simp [hw])
      obtain ⟨drained, hd⟩ : ∃ l : Link, l = { link with right := .asio t } := ⟨_, rfl⟩
      rw [← hd] at hdrained
      have hu' : drained.left.phase.isThrew = false := by rw [hd]; exact hu
      have hs' : drained.right = .asio t := by rw [hd]
      obtain ⟨k, link', u, hrest', hleft, hforth, hright, hout⟩ :=
        ih hu' hs' hrun' (hreads'.trans hreads) hvalid' (hbuffer ▸ hrest)
      rw [hd] at hleft hforth
      exact ⟨_, link', u, hdrained.trans hrest', hleft, hforth, hright, hout⟩

end Server

theorem Lively.unharmed (hl : Lively h link) : link.left.phase.isThrew = false :=
  hl.reliable.delivering.answers.unharmed

theorem Lively.ends (hl : Lively h link) : ∃ s, link.right = .asio s ∧ s.isOpen = true ∧
    Writer (rights h) s ∧ Reader (rights h) s := by
  obtain ⟨s, hs, hopen⟩ := hl.session
  have hserving := hl.reliable.delivering.connected.serving
  rw [hs] at hserving
  cases hserving with
  | asio hw hr => exact ⟨s, hs, hopen, hw, hr⟩

/-- Requests on their way to the session or complete in its buffer are taken. -/
theorem Lively.leads_taken (hl : Lively h link)
    (hwork : link.forth ≠ [] ∨ nextFrame link.right.buffered ≠ none) :
    (linkDrive thread).Leads P link := by
  obtain ⟨s, hs, -, -, hr⟩ := hl.ends
  rw [hs] at hwork
  cases hr with
  | outstanding hreads hrun hn hin =>
    apply Drive.Leads.ready
    apply ready_read hl.unharmed hs hreads
    refine hwork.resolve_right fun hne => hne ?_
    simpa [Server.buffered, Session.buffered, hreads] using hn
  | @arrived n hreads hrun hin =>
    have hstep : s.step (.runRead 0) = some ({ s with
        reads := []
        readBuffer := s.readBuffer ++ s.chunk.take n
        running := true }, []) := by
      simp [Session.step, hrun, hreads, Session.handleRead]
    refine leads_session hl.unharmed hs rfl hstep rfl rfl ?_
    refine leads_handler hl.unharmed rfl rfl rfl ?_
    simpa [Server.buffered, Session.buffered, hreads] using hwork
  | handling hreads hrun hin =>
    apply leads_handler hl.unharmed hs hrun hreads
    simpa [Server.buffered, Session.buffered, hreads] using hwork
  | ended hreads hrun hd hin => exact absurd hd hl.reliable.joined

theorem Lively.leads_sent (hl : Lively h link) (howed : link.right.owed ≠ [])
    (hroom : full link.backCap link.back.length = false) : (linkDrive thread).Leads P link := by
  obtain ⟨s, hs, hopen, hw, -⟩ := hl.ends
  rw [hs] at howed
  cases hw with
  | idle hw hq hf hsent => simp [Server.owed, Session.unsent, hw, hq] at howed
  | busy hw hq hle hall hf hsent =>
    refine leads_writer hl.unharmed hs hopen hw hq hle hall ?_ ?_ hroom
    · exact fun ho => hl.reliable.written (hf.mp ho)
    · simpa [Server.owed, Session.unsent, hw, hq] using howed
  | failed hw hq hf hsent => exact absurd hf hl.reliable.written

end PromiseDemo
