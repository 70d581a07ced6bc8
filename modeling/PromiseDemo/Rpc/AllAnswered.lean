import PromiseDemo.Rpc.ClientFutures
import PromiseDemo.Rpc.OwnReplies

/-!
# When nothing more happens

Neither end waits for the other to make room: both go on reading whatever they have to write.  So
a conversation in which neither end can do anything by itself has come to rest, with every call
answered.
-/

namespace PromiseDemo.Rpc

open Transition MsgPack PromiseStore Duplex

/-- What a client does by itself, once calls have been posted.  A socket that has been read from
has delivered something. -/
def ClientAction.goesOn : ClientAction → Bool
  | .receive chunk => !chunk.isEmpty
  | .strand | .next | .transfer _ | .written => true
  | .connect _ | .call _ _ | .post _ | .send _ _ | .noMemory | .overflow | .readError _ | .failed
  | .destroy => false

/-- What a session does by itself, with what its socket has for it. -/
def ServerSessionAction.goesOn : ServerSessionAction → Bool
  | .receive chunk => !chunk.isEmpty
  | a => a.isOwn

def ownAction : ConversationAction → Bool := Sum.elim ClientAction.goesOn ServerSessionAction.goesOn

/-- Neither end can do anything by itself. -/
def Conversation.Quiet (cfg : Config) (p : Conversation) : Prop :=
  ∀ a, ownAction a = true → Conversation.step cfg p a = none

/-- The connection is there, nobody has closed it, no write has failed, and the channels can hold
something. -/
structure Up (h : List ConversationEvent) (p : Conversation) : Prop where
  connected : p.left.isConnected = true
  reading : p.left.phase ≠ .ended
  kept : p.left.destroyed = false
  well : p.left.exhausted = false
  serving : p.right.phase ≠ .ended
  running : p.right.Alive
  opened : p.right.socketOpen = true
  exit : p.right.writer.exit = false
  forthOk : .writeFailed ∉ wroteOf (lefts h)
  backOk : .writeFailed ∉ writerOf (rights h)
  forthRoom : full p.forthCap 0 = false
  backRoom : full p.backCap 0 = false

/-! ## Steps that need nothing of the other end -/

theorem runClosure_silent (c : ClientImpl) (closure : Closure) :
    chunksOf (c.runClosure closure).2 = [] ∧
      sentOfWriter (wroteOf (c.runClosure closure).2) = [] := by
  have hrun := closureStep c closure
  generalize c.runClosure closure = q at hrun ⊢
  cases hrun with
  | queued _ _ _ hes =>
    have hchunks : chunksOf _ = [] := filterMap_broken hes fun _ => rfl
    have hwrote : wroteOf _ = [] := filterMap_broken hes fun _ => rfl
    rw [chunksOf_append, wroteOf_append, hchunks, hwrote]
    exact ⟨rfl, rfl⟩
  | erased _ _ hes =>
    have hwrote : wroteOf _ = [] := filterMap_broken hes fun _ => rfl
    rw [hwrote]
    exact ⟨filterMap_broken hes fun _ => rfl, rfl⟩

theorem next_silent (c : ClientImpl) :
    chunksOf c.next.2 = [] ∧ sentOfWriter (wroteOf c.next.2) = [] := by
  have hnext := nextStep c
  generalize c.next = q at hnext ⊢
  cases hnext <;> exact ⟨rfl, rfl⟩

theorem session_silent {cfg : Config} {s s' : ServerSession} {a : ServerSessionAction}
    {es : List ServerSessionEvent} (ha : a = .next ∨ (∃ t i, a = .run t i) ∨ a = .strand)
    (hstep : s.step cfg a = some (s', es)) :
    (serverSide cfg).readsOf es = [] ∧ (serverSide cfg).writesOf es = [] := by
  obtain ⟨-, hact⟩ := sessionStep_of_step hstep
  cases hact with
  | next hphase =>
    have hturn := sessionTurn s
    generalize s.next = q at hturn ⊢
    cases hturn <;> exact ⟨rfl, rfl⟩
  | run hmsg =>
    unfold ServerSession.runTask
    split <;> exact ⟨rfl, rfl⟩
  | @strand posted rest hstrand =>
    cases posted with
    | request r => cases r <;> exact ⟨rfl, rfl⟩
    | write | shutdown | leave => exact ⟨rfl, rfl⟩
  | fails | lost | post | closeSessions => exact ⟨rfl, rfl⟩
  | receive | disconnect | reuse | closeTaken => simp at ha
  | io hwrite hclose hw hio =>
    rcases ha with rfl | ⟨t, i, rfl⟩ | rfl <;> cases hio

theorem client_silent {c c' : ClientImpl} {a : ClientAction} {es : List ClientEvent}
    (ha : a = .next ∨ a = .strand) (hstep : c.step a = some (c', es)) :
    clientSide.readsOf es = [] ∧ clientSide.writesOf es = [] := by
  obtain ⟨-, -, hact⟩ := clientStep_of_step hstep
  rw [clientSide_readsOf, clientSide_writesOf]
  cases hact with
  | next hphase =>
    obtain ⟨hread, hwrite⟩ := next_silent c
    exact ⟨by rw [hread]; rfl, hwrite⟩
  | @strand closure rest hstrand =>
    obtain ⟨hread, hwrite⟩ := runClosure_silent { c with strand := rest } closure
    exact ⟨by rw [hread]; rfl, hwrite⟩
  | exhausts => exact ⟨rfl, rfl⟩
  | connected | refused | call | post | send | receive | readError | destroy => simp_all
  | io hwrite hclose hw hio =>
    rcases ha with rfl | rfl <;> cases hio

theorem client_io {c c' : ClientImpl} {a : ClientAction} {b : WriterAction}
    {es : List ClientEvent} (ha : a.toWriter = some b) (hstep : c.step a = some (c', es)) :
    clientSide.readsOf es = [] ∧ ∃ w ws, c.writer.step b = some (w, ws) ∧
      clientSide.writesOf es = sentOfWriter ws := by
  obtain ⟨-, -, hact⟩ := clientStep_of_step hstep
  cases hact with
  | io hwrite hclose hw hio =>
    cases hio.symm.trans ha
    refine ⟨?_, _, _, hw, ?_⟩
    · simp [clientSide_readsOf, chunksOf]
    · rw [clientSide_writesOf, wroteOf_map_writer]
  | exhausts hphase hwhy => rcases hwhy with ⟨rfl, -⟩ | ⟨rfl, -⟩ <;> cases ha
  | _ => cases ha

theorem session_io {cfg : Config} {s s' : ServerSession} {a : ServerSessionAction}
    {b : WriterAction} {es : List ServerSessionEvent} (ha : a.toWriter = some b)
    (hstep : s.step cfg a = some (s', es)) :
    (serverSide cfg).readsOf es = [] ∧ ∃ w ws, s.writer.step b = some (w, ws) ∧
      (serverSide cfg).writesOf es = sentOfWriter ws := by
  obtain ⟨-, hact⟩ := sessionStep_of_step hstep
  cases hact with
  | io hwrite hclose hw hio =>
    cases hio.symm.trans ha
    refine ⟨?_, _, _, hw, ?_⟩
    · simp [Endpoint.readsOf, serverSide, List.flatMap_map]
    · rw [serverSide_writesOf, writerOf_map_writer]
  | lost hphase hlost => rcases hlost with rfl | rfl <;> cases ha
  | fails hfails => cases hfails <;> cases ha
  | _ => cases ha

/-! ## At rest -/

namespace Conversation.Quiet

variable {cfg : Config} {h : List ConversationEvent} {p : Conversation}

theorem left_none (hquiet : p.Quiet cfg) {a : ClientAction} (hown : ownAction (.inl a) = true)
    (hfree : ∀ c ls, p.left.step a = some (c, ls) → clientSide.readsOf ls <+: p.back ∧
      (clientSide.writesOf ls = [] ∨
        fits p.forthCap (p.forth ++ clientSide.writesOf ls).length = true)) :
    p.left.step a = none := none_of_inl (hquiet (.inl a) hown) hfree

theorem right_none (hquiet : p.Quiet cfg) {a : ServerSessionAction}
    (hown : ownAction (.inr a) = true)
    (hfree : ∀ s rs, p.right.step cfg a = some (s, rs) → (serverSide cfg).readsOf rs <+: p.forth ∧
      ((serverSide cfg).writesOf rs = [] ∨
        fits p.backCap (p.back ++ (serverSide cfg).writesOf rs).length = true)) :
    p.right.step cfg a = none := none_of_inr (hquiet (.inr a) hown) hfree

theorem client_none (hquiet : p.Quiet cfg) {a : ClientAction} (ha : a = .next ∨ a = .strand) :
    p.left.step a = none := by
  have hown : ownAction (.inl a) = true := by rcases ha with rfl | rfl <;> rfl
  apply hquiet.left_none hown
  intro s ls hs
  obtain ⟨hread, hwrite⟩ := client_silent ha hs
  exact ⟨hread ▸ List.nil_prefix, .inl hwrite⟩

theorem session_none (hquiet : p.Quiet cfg) {a : ServerSessionAction}
    (ha : a = .next ∨ (∃ t i, a = .run t i) ∨ a = .strand) : p.right.step cfg a = none := by
  have hown : ownAction (.inr a) = true := by rcases ha with rfl | ⟨t, i, rfl⟩ | rfl <;> rfl
  apply hquiet.right_none hown
  intro s rs hs
  obtain ⟨hread, hwrite⟩ := session_silent ha hs
  exact ⟨hread ▸ List.nil_prefix, .inl hwrite⟩

theorem back_nil (hquiet : p.Quiet cfg) (hup : Up h p) (halive : p.left.terminated = false)
    (hphase : p.left.phase = .reading) : p.back = [] := by
  cases hback : p.back with
  | nil => rfl
  | cons b back =>
    have hreceive : p.left.step (.receive [b]) = none := by
      apply hquiet.left_none rfl
      intro s ls hs
      rw [ClientImpl.step, if_pos ⟨halive, hup.kept, hup.well⟩, ClientImpl.act,
        if_pos ⟨hup.connected, hphase⟩] at hs
      cases hs
      exact ⟨⟨back, hback.symm⟩, .inl rfl⟩
    rw [ClientImpl.step, if_pos ⟨halive, hup.kept, hup.well⟩, ClientImpl.act,
      if_pos ⟨hup.connected, hphase⟩] at hreceive
    cases hreceive

theorem forth_nil (hquiet : p.Quiet cfg) (hup : Up h p) (hphase : p.right.phase = .reading) :
    p.forth = [] := by
  have hexit : ¬p.right.writer.exit = true := by
    rw [hup.exit]
    nofun
  cases hforth : p.forth with
  | nil => rfl
  | cons b forth =>
    have hreceive : p.right.step cfg (.receive [b]) = none := by
      apply hquiet.right_none rfl
      intro s rs hs
      rw [ServerSession.step, if_pos hup.running, ServerSession.act, if_pos hphase,
        ServerSession.receive, if_neg hexit] at hs
      cases hs
      exact ⟨⟨forth, hforth.symm⟩, .inl rfl⟩
    rw [ServerSession.step, if_pos hup.running, ServerSession.act, if_pos hphase] at hreceive
    cases hreceive

theorem client_idle (hquiet : p.Quiet cfg) (hup : Up h p) (halive : p.left.terminated = false)
    (hforth : p.forth = []) (hq : Queue (wroteOf (lefts h)) p.left.writer) :
    p.left.writer.writing = none := by
  have hopen : p.left.terminated = false ∧ p.left.destroyed = false ∧ p.left.exhausted = false :=
    ⟨halive, hup.kept, hup.well⟩
  have htransfer : p.left.step (.transfer 1) = none := by
    apply hquiet.left_none rfl
    intro s ls hs
    obtain ⟨hread, w, ws, hw, hwrite⟩ := client_io (b := .transfer 1) rfl hs
    refine ⟨hread ▸ List.nil_prefix, .inr ?_⟩
    rw [hforth, List.nil_append, hwrite, (transfer_events hw).1]
    exact fits_succ_of_not_full hup.forthRoom
  have hwritten : p.left.step .written = none := by
    apply hquiet.left_none rfl
    intro s ls hs
    obtain ⟨hread, w, ws, hw, hwrite⟩ := client_io (b := .written) rfl hs
    rw [(written_events hw).1] at hwrite
    exact ⟨hread ▸ List.nil_prefix, .inl hwrite⟩
  rw [ClientImpl.step, if_pos hopen, ClientImpl.act, if_pos hup.connected, ClientImpl.io,
    Option.map_eq_none_iff] at htransfer
  rw [ClientImpl.step, if_pos hopen, ClientImpl.act, ClientImpl.io,
    Option.map_eq_none_iff] at hwritten
  exact hq.idle htransfer hwritten

theorem session_transfer (hquiet : p.Quiet cfg) (hup : Up h p) (hback : p.back = []) :
    p.right.step cfg (.transfer 1) = none := by
  apply hquiet.right_none rfl
  intro s rs hs
  obtain ⟨hread, w, ws, hw, hwrite⟩ := session_io (b := .transfer 1) rfl hs
  refine ⟨hread ▸ List.nil_prefix, .inr ?_⟩
  rw [hback, List.nil_append, hwrite, (transfer_events hw).1]
  exact fits_succ_of_not_full hup.backRoom

theorem session_written (hquiet : p.Quiet cfg) : p.right.step cfg .written = none := by
  apply hquiet.right_none rfl
  intro s rs hs
  obtain ⟨hread, w, ws, hw, hwrite⟩ := session_io (b := .written) rfl hs
  rw [(written_events hw).1] at hwrite
  exact ⟨hread ▸ List.nil_prefix, .inl hwrite⟩

end Conversation.Quiet

theorem phase_reading {phase : ReadPhase} (hparsed : phase ≠ .parsing) (hends : phase ≠ .ended) :
    phase = .reading := by
  cases phase with
  | reading => rfl
  | parsing => exact absurd rfl hparsed
  | ended => exact absurd rfl hends

namespace Conversing

variable {cfg : Config} {h : List ConversationEvent} {p : Conversation}

theorem all_served (hc : Conversing cfg h p) (hm : Moderate cfg (lefts h)) (hup : Up h p)
    (hstrand : p.left.strand = []) (hidle : p.left.writer.writing = none) (hforth : p.forth = [])
    (hphase : p.right.phase = .reading) (htasks : p.right.tasks = []) :
    (ranOf (rights h)).Perm (requestObjects (lefts h)) := by
  have horder := hc.books.order hup.kept
  rw [hstrand] at horder
  have hsent := hc.books.queue.sent_all hidle hc.books.exit hup.forthOk
  have hwrote := hc.conserved.forth
  have hopen : p.right.phase ≠ .ended := by
    rw [hphase]
    nofun
  rw [clientSide_writesOf, hforth, List.append_nil, hc.attentive.all hopen, hsent] at hwrote
  have hqueued : queuedOf (wroteOf (lefts h)) = (requestObjects (lefts h)).map pack := by
    rw [← hc.numbering.requestedOf_eq, ← horder]
    exact (List.append_nil _).symm
  rw [hqueued, ← List.flatMap_def] at hwrote
  have hread := Unpacker.readChunks_whole hm.requests hwrote.symm
  have hintake := hc.serves.intake
  rw [hphase] at hintake
  have hposted := hintake.all
  rw [hread] at hposted
  have hperm := hc.serves.tasks
  rw [htasks, List.append_nil, ← (Prod.mk.inj hposted).1] at hperm
  exact hperm

/-- At rest every reply has been read. -/
theorem all_responded (hc : Conversing cfg h p) (hm : Moderate cfg (lefts h)) (hup : Up h p)
    (hstrand : p.right.strand = []) (hidle : p.right.writer.writing = none) (hback : p.back = [])
    (hphase : p.left.phase = .reading) :
    respondedOf (lefts h) = (cfg.replies (ranOf (rights h))).map Response.toObject := by
  have hpacked := hc.serves.packed
  rw [hstrand] at hpacked
  have hsent := hc.serves.queue.sent_all hidle hup.exit hup.backOk
  have hwrote := hc.conserved.back
  rw [serverSide_writesOf, hback, List.append_nil, clientSide_readsOf, hsent] at hwrote
  have hall : (chunksOf (lefts h)).flatten =
      packedStream ((cfg.replies (ranOf (rights h))).map Response.toObject) := by
    rw [← hwrote, ← hpacked]
    exact (List.append_nil _).symm
  have hwf : ∀ o ∈ (cfg.replies (ranOf (rights h))).map Response.toObject, o.WellFormed := by
    intro o ho
    obtain ⟨r, hr, rfl⟩ := List.mem_map.mp ho
    obtain ⟨msg, hmsg, hreply⟩ := List.mem_filterMap.mp hr
    exact hm.replies msg ((hc.posted_requests hm).subset (hc.ran_posted hmsg)) r hreply
  have hread := Unpacker.readChunks_whole hwf hall
  have hintake := hc.books.intake
  rw [hphase] at hintake
  have hresponded := hintake.all
  rw [hread] at hresponded
  exact (Prod.mk.inj hresponded).1.symm

theorem resolved_of_responded (hc : Conversing cfg h p) (hm : Moderate cfg (lefts h))
    (hf : Faithful (lefts h) p.left) {q : ℕ} {idx : ℤ} {funcName : Bytes} {args : List Object}
    (hmem : .issued q idx funcName args ∈ lefts h) {reply : Response}
    (hreply : cfg.replyTo (callObject idx funcName args) = some reply)
    (hmsg : reply.toObject ∈ respondedOf (lefts h)) :
    .resolved q (reply.outcomeFor funcName) ∈ lefts h := by
  have hid := callId_of_reply hreply
  rw [callId_callObject (hc.numbering.issued_range (issued_mem hmem).1).2] at hid
  obtain ⟨-, hkey⟩ := Option.ite_none_right_eq_some.mp hid
  obtain ⟨q', idx', funcName', args', hmem', hkey', hres⟩ :=
    hf.answered _ hmsg _ _ _ (convertResponse_reply hreply)
  obtain ⟨rfl, rfl, rfl, rfl⟩ := issued_unique (hc.ids_nodup hm) hmem' hmem
    (hkey'.trans (Option.some.inj hkey).symm)
  exact hres

theorem all_resolved (hc : Conversing cfg h p) (hm : Moderate cfg (lefts h))
    (hf : Faithful (lefts h) p.left) (hup : Up h p) (hquiet : p.Quiet cfg) {q : ℕ} {idx : ℤ}
    {funcName : Bytes} {args : List Object} (hmem : .issued q idx funcName args ∈ lefts h)
    {reply : Response} (hreply : cfg.replyTo (callObject idx funcName args) = some reply) :
    .resolved q (reply.outcomeFor funcName) ∈ lefts h := by
  have halive := hc.client_alive hm
  have hopen : p.left.terminated = false ∧ p.left.destroyed = false ∧ p.left.exhausted = false :=
    ⟨halive, hup.kept, hup.well⟩
  have hclient : p.left.phase = .reading := by
    refine phase_reading ?_ hup.reading
    intro hparsing
    have hnext := hquiet.client_none (.inl rfl)
    rw [ClientImpl.step, if_pos hopen, ClientImpl.act, if_pos hparsing] at hnext
    cases hnext
  have hstrand : p.left.strand = [] := by
    have hrun := hquiet.client_none (.inr rfl)
    rw [ClientImpl.step, if_pos hopen, ClientImpl.act] at hrun
    cases hs : p.left.strand with
    | nil => rfl
    | cons closure rest =>
      rw [hs] at hrun
      cases hrun
  have hback := hquiet.back_nil hup halive hclient
  obtain ⟨hparsed, htasks, hposts, hwriting⟩ := hc.serves.settled hup.running hup.opened
    (hquiet.session_none (.inl rfl)) (hquiet.session_none (.inr (.inl ⟨0, 0, rfl⟩)))
    (hquiet.session_none (.inr (.inr rfl))) (hquiet.session_transfer hup hback)
    hquiet.session_written
  have hserver := phase_reading hparsed hup.serving
  have hforth := hquiet.forth_nil hup hserver
  have hserved := hc.all_served hm hup hstrand (hquiet.client_idle hup halive hforth hc.books.queue)
    hforth hserver htasks
  have hresponded := hc.all_responded hm hup hposts hwriting hback hclient
  apply hc.resolved_of_responded hm hf hmem hreply
  rw [hresponded]
  apply List.mem_map_of_mem
  exact List.mem_filterMap.mpr ⟨_, hserved.symm.subset (issued_mem hmem).2, hreply⟩

/-- Where neither end can do anything, a call has its reply and nothing else. -/
theorem results_at_rest (hc : Conversing cfg h p) (hm : Moderate cfg (lefts h))
    (hf : Faithful (lefts h) p.left) (hup : Up h p) (hquiet : p.Quiet cfg) {q : ℕ} {idx : ℤ}
    {funcName : Bytes} {args : List Object} (hmem : .issued q idx funcName args ∈ lefts h) :
    resultsOf q (lefts h) =
      ((cfg.replyTo (callObject idx funcName args)).map fun r => r.outcomeFor funcName).toList := by
  have hresults := hc.books.accounts.results q
  cases hreply : cfg.replyTo (callObject idx funcName args) with
  | some reply =>
    have hres := hc.all_resolved hm hf hup hquiet hmem hreply
    rw [hresults, hc.books.accounts.resolved_result hres]
    rfl
  | none =>
    rw [Option.map_none, Option.toList_none, List.eq_nil_iff_forall_not_mem]
    intro r hr
    rcases hc.own_reply hm hf hmem (mem_resultsOf.mp hr) with ⟨-, hgone⟩ | ⟨reply, hsome, -⟩
    · cases hup.kept.symm.trans hgone
    · cases hreply.symm.trans hsome

end Conversing

/-- Nobody waits for the other to make room, however little the channels hold: where neither end can
do anything by itself, every call has been resolved, with its own reply, unless the server
has none for it. -/
theorem all_answered {cfg : Config} {forthCap backCap : Option ℕ} {h : List ConversationEvent}
    {p : Conversation}
    (hrun : Run (Conversation.step cfg) anyAction (.start forthCap backCap) h p)
    (hm : Moderate cfg (lefts h)) (hup : Up h p) (hquiet : p.Quiet cfg) :
    ∀ q idx funcName args, .issued q idx funcName args ∈ lefts h →
      resultsOf q (lefts h) =
        ((cfg.replyTo (callObject idx funcName args)).map fun r =>
          r.outcomeFor funcName).toList := by
  intro q idx funcName args hmem
  have hc := Conversing.of_run hrun
  exact hc.results_at_rest hm (Conversing.faithful_of_run hrun hm) hup hquiet hmem

theorem ping_up : Up (pinged pingRun).2 (pinged pingRun).1 where
  connected := by decide +kernel
  reading := by decide +kernel
  kept := by decide +kernel
  well := by decide +kernel
  serving := by decide +kernel
  running := by decide +kernel
  opened := by decide +kernel
  exit := by decide +kernel
  forthOk := by decide +kernel
  backOk := by decide +kernel
  forthRoom := by decide +kernel
  backRoom := by decide +kernel

theorem ping_quiet : (pinged pingRun).1.Quiet pingConfig := by
  rintro (a | a) ha
  · cases a with
    | receive chunk =>
      cases chunk with
      | nil => cases ha
      | cons b bs => with_unfolding_all rfl
    | strand | next | transfer | written => with_unfolding_all rfl
    | connect | call | post | send | noMemory | overflow | readError | failed | destroy => cases ha
  · cases a with
    | receive chunk =>
      cases chunk with
      | nil => cases ha
      | cons b bs => with_unfolding_all rfl
    | next | run | post | closeTaken | strand | transfer | written => with_unfolding_all rfl
    | refused | disconnect | readError | reuse | closeSessions | overflow | closeFails | failed =>
      cases ha

theorem all_answered_ping : resultsOf 0 (lefts (pinged pingRun).2) = [.value (.boolean true)] :=
  all_answered (Run.of_actions _ _ _ pingRun (by decide +kernel))
    (ping_moderate (by decide +kernel) (by with_unfolding_all rfl)) ping_up ping_quiet
    0 1 [0x66] [] (by with_unfolding_all exact .tail _ (.head _))

end PromiseDemo.Rpc
