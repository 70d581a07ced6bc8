import PromiseDemo.Framework.Duplex
import PromiseDemo.Rpc.ClientNumbers
import PromiseDemo.Rpc.SessionServes

/-!
# A client and its session

The client of rpclib and the session that the server makes for it, joined by a connection.  Either
end may lose the connection at any time, a write may fail, and the channels may hold little.
-/

namespace PromiseDemo.Rpc

open Transition MsgPack PromiseStore Duplex

/-- A client, the session that serves it, and the bytes on their way. -/
abbrev Conversation := Pair ClientImpl ServerSession UInt8

abbrev ConversationAction := ClientAction ⊕ ServerSessionAction

abbrev ConversationEvent := ClientEvent ⊕ ServerSessionEvent

def clientSide : Endpoint ClientImpl ClientAction ClientEvent UInt8 where
  step := ClientImpl.step
  reads
    | .received chunk => chunk
    | _ => []
  writes
    | .writer (.sent bytes) => bytes
    | _ => []

/-- A closed session takes a last chunk off the socket and does not look at it. -/
def serverSide (cfg : Config) :
    Endpoint ServerSession ServerSessionAction ServerSessionEvent UInt8 where
  step := ServerSession.step cfg
  reads
    | .received chunk | .ignored chunk => chunk
    | _ => []
  writes
    | .writer (.sent bytes) => bytes
    | _ => []

namespace Conversation

def start (forthCap backCap : Option ℕ) : Conversation := ⟨{}, {}, [], [], forthCap, backCap⟩

def step (cfg : Config) : StepFn Conversation ConversationAction ConversationEvent :=
  Duplex.step clientSide (serverSide cfg)

end Conversation

/-! ## What the two have read and written -/

theorem clientSide_readsOf (h : List ClientEvent) :
    clientSide.readsOf h = (chunksOf h).flatten := by
  induction h with
  | nil => rfl
  | cons e h ih =>
    have hcons : clientSide.readsOf (e :: h) = clientSide.reads e ++ clientSide.readsOf h := rfl
    rw [hcons, ih]
    cases e <;> rfl

theorem clientSide_writesOf (h : List ClientEvent) :
    clientSide.writesOf h = sentOfWriter (wroteOf h) := by
  induction h with
  | nil => rfl
  | cons e h ih =>
    have hcons : clientSide.writesOf (e :: h) = clientSide.writes e ++ clientSide.writesOf h := rfl
    rw [hcons, ih]
    cases e with
    | writer e => cases e <;> rfl
    | _ => rfl

theorem serverSide_writesOf (cfg : Config) (h : List ServerSessionEvent) :
    (serverSide cfg).writesOf h = sentOfWriter (writerOf h) := by
  induction h with
  | nil => rfl
  | cons e h ih =>
    have hcons : (serverSide cfg).writesOf (e :: h) =
        (serverSide cfg).writes e ++ (serverSide cfg).writesOf h := rfl
    rw [hcons, ih]
    cases e with
    | writer e => cases e <;> rfl
    | _ => rfl

/-- The session has looked at all that it has read, until it stops reading. -/
structure Attentive (cfg : Config) (h : List ServerSessionEvent) (s : ServerSession) : Prop where
  heard : (receivedChunks h).flatten <+: (serverSide cfg).readsOf h
  all : s.phase ≠ .ended → (serverSide cfg).readsOf h = (receivedChunks h).flatten

namespace Attentive

variable {cfg : Config} {h es : List ServerSessionEvent} {s s' : ServerSession}

theorem looked (ha : Attentive cfg h s) (hphase : s'.phase ≠ .ended → s.phase ≠ .ended)
    (hread : (serverSide cfg).readsOf es = (receivedChunks es).flatten)
    (hopen : receivedChunks es ≠ [] → s.phase ≠ .ended) : Attentive cfg (h ++ es) s' := by
  refine ⟨?_, ?_⟩
  · rw [receivedChunks_append, List.flatten_append, Endpoint.readsOf_append, hread]
    by_cases hes : receivedChunks es = []
    · rw [hes, List.flatten_nil, List.append_nil, List.append_nil]
      exact ha.heard
    · rw [ha.all (hopen hes)]
  · intro hne
    rw [receivedChunks_append, List.flatten_append, Endpoint.readsOf_append, hread,
      ha.all (hphase hne)]

theorem stopped (ha : Attentive cfg h s) (hphase : s'.phase = .ended)
    (hes : receivedChunks es = []) : Attentive cfg (h ++ es) s' := by
  refine ⟨?_, fun hne => absurd hphase hne⟩
  rw [receivedChunks_append, hes, List.append_nil, Endpoint.readsOf_append]
  exact ha.heard.trans (List.prefix_append _ _)

theorem closeSessions (ha : Attentive cfg h s) : Attentive cfg h s.closeSessions := by
  unfold ServerSession.closeSessions
  split_ifs
  · exact ⟨ha.heard, ha.all⟩
  · exact ha

theorem step (ha : Attentive cfg h s) {a : ServerSessionAction}
    (hstep : s.step cfg a = some (s', es)) : Attentive cfg (h ++ es) s' := by
  obtain ⟨-, hact⟩ := sessionStep_of_step hstep
  cases hact with
  | receive hphase =>
    have hopen : s.phase ≠ .ended := by
      intro hended
      cases hphase.symm.trans hended
    unfold ServerSession.receive
    split_ifs
    · exact ha.stopped rfl rfl
    · refine ha.looked (fun _ => hopen) ?_ (fun _ => hopen)
      simp [Endpoint.readsOf, serverSide, receivedChunks]
  | next hphase =>
    have hopen : s.phase ≠ .ended := by
      intro hended
      cases hphase.symm.trans hended
    have hturn := sessionTurn s
    generalize s.next = q at hturn ⊢
    cases hturn with
    | closed => exact ha.stopped rfl rfl
    | posted | incomplete | parseError => exact ha.looked (fun _ => hopen) rfl (fun _ => hopen)
  | fails | post | reuse | closeTaken => exact ha.looked id rfl (by simp [receivedChunks])
  | lost | disconnect => exact ha.stopped rfl rfl
  | run hmsg =>
    unfold ServerSession.runTask
    split
    · exact ha.looked id rfl (by simp [receivedChunks])
    · exact ha.looked id rfl (by simp [receivedChunks])
  | closeSessions =>
    rw [List.append_nil]
    exact ha.closeSessions
  | @strand posted rest hstrand =>
    have hrest : Attentive cfg h { s with strand := rest } := ⟨ha.heard, ha.all⟩
    cases posted with
    | request r =>
      cases r with
      | close => exact ha.looked id rfl (by simp [receivedChunks, ServerSession.runPosted])
      | closeSessions =>
        rw [ServerSession.runPosted, List.append_nil]
        exact hrest.closeSessions
    | write | shutdown | leave =>
      exact ha.looked id rfl (by simp [receivedChunks, ServerSession.runPosted])
  | @io a b w ws hwrite hclose hw =>
    have hnone : receivedChunks (ws.map .writer) = [] := by simp [receivedChunks]
    refine ha.looked id ?_ (absurd hnone)
    rw [hnone]
    simp [Endpoint.readsOf, serverSide, List.flatMap_map]

end Attentive

/-- The invariants of the two ends and of the channels between them. -/
structure Conversing (cfg : Config) (h : List ConversationEvent) (p : Conversation) : Prop where
  conserved : Conserved clientSide (serverSide cfg) h p
  books : Books (lefts h) p.left
  numbering : Numbering (lefts h) p.left
  loaded : Loaded (lefts h) p.left
  serves : Serves cfg (rights h) p.right
  traced : Traced cfg (rights h) p.right
  attentive : Attentive cfg (rights h) p.right

namespace Conversing

variable {cfg : Config} {h es : List ConversationEvent} {p q : Conversation}

theorem start (forthCap backCap : Option ℕ) : Conversing cfg [] (.start forthCap backCap) where
  conserved := .init rfl rfl
  books := .init
  numbering := ⟨rfl, rfl, .refl _⟩
  loaded _ _ _ _ hmem := by cases hmem
  serves := .init
  traced := .init
  attentive := ⟨List.nil_prefix, fun _ => rfl⟩

theorem step (hc : Conversing cfg h p) {a : ConversationAction}
    (hstep : Conversation.step cfg p a = some (q, es)) : Conversing cfg (h ++ es) q := by
  have hconserved := hc.conserved.step hstep
  cases a with
  | inl a =>
    obtain ⟨c, ls, hleft, -, -, rfl, hq⟩ := step_inl.mp hstep
    have hpresent : lefts (h ++ ls.map .inl) = lefts h ++ ls := by simp
    have habsent : rights (h ++ ls.map (Sum.inl (β := ServerSessionEvent))) = rights h := by simp
    rw [hq] at hconserved ⊢
    refine ⟨hconserved, ?_, ?_, ?_, ?_, ?_, ?_⟩
    · rw [hpresent]
      exact hc.books.step hleft
    · rw [hpresent]
      exact hc.numbering.step hleft
    · rw [hpresent]
      exact hc.loaded.step hleft
    · rw [habsent]
      exact hc.serves
    · rw [habsent]
      exact hc.traced
    · rw [habsent]
      exact hc.attentive
  | inr a =>
    obtain ⟨s, rs, hright, -, -, rfl, hq⟩ := step_inr.mp hstep
    have hpresent : rights (h ++ rs.map .inr) = rights h ++ rs := by simp
    have habsent : lefts (h ++ rs.map (Sum.inr (α := ClientEvent))) = lefts h := by simp
    rw [hq] at hconserved ⊢
    refine ⟨hconserved, ?_, ?_, ?_, ?_, ?_, ?_⟩
    · rw [habsent]
      exact hc.books
    · rw [habsent]
      exact hc.numbering
    · rw [habsent]
      exact hc.loaded
    · rw [hpresent]
      exact hc.serves.step hright
    · rw [hpresent]
      exact hc.traced.step hc.serves hright
    · rw [hpresent]
      exact hc.attentive.step hright

theorem of_run {forthCap backCap : Option ℕ}
    (hrun : Run (Conversation.step cfg) anyAction (.start forthCap backCap) h p) :
    Conversing cfg h p :=
  hrun.invariant (.start forthCap backCap) fun hc _ hstep => hc.step hstep

end Conversing

/-! ## Requests -/

/-- The requests, in the order in which they were posted. -/
def requestObjects (h : List ClientEvent) : List Object :=
  h.filterMap fun e => match e with
    | .issued _ idx funcName args => some (callObject idx funcName args)
    | .notified funcName args => some (notificationObject funcName args)
    | _ => none

@[simp] theorem requestObjects_append (h k : List ClientEvent) :
    requestObjects (h ++ k) = requestObjects h ++ requestObjects k := List.filterMap_append

theorem issued_mem {h : List ClientEvent} {p : ℕ} {idx : ℤ} {funcName : Bytes}
    {args : List Object} (hmem : .issued p idx funcName args ∈ h) :
    idx ∈ issuedOf h ∧ callObject idx funcName args ∈ requestObjects h :=
  ⟨List.mem_filterMap.mpr ⟨_, hmem, rfl⟩, List.mem_filterMap.mpr ⟨_, hmem, rfl⟩⟩

/-- The id under which a server sees a request, if it takes it for a call. -/
def callId (o : Object) : Option ℕ := (convertCall o).map Call.id

theorem callId_callObject {idx : ℤ} (hlt : idx < 2 ^ 31) (funcName : Bytes) (args : List Object) :
    callId (callObject idx funcName args) =
      if 0 ≤ idx then some (castUnsigned 4 idx) else none := by
  split_ifs with hpos
  · rw [callId, convertCall_callObject hpos hlt]
    rfl
  · have hint : convertUint32 (.ofInt idx) = none := by
      rw [Object.ofInt, if_pos (by omega)]
      rfl
    have htype : convertInt8 (.positiveInteger 0) = some 0 := rfl
    simp only [callId, callObject, convertCall, htype, hint, Option.bind_eq_bind,
      Option.bind_some, Option.bind_none, Option.map_none]

theorem issued_of_callId {h : List ClientEvent} {o : Object} (hmem : o ∈ requestObjects h) {id : ℕ}
    (hid : callId o = some id) :
    ∃ p idx funcName args, .issued p idx funcName args ∈ h ∧ o = callObject idx funcName args := by
  obtain ⟨e, he, ho⟩ := List.mem_filterMap.mp hmem
  cases e with
  | issued p idx funcName args =>
    cases ho
    exact ⟨p, idx, funcName, args, he, rfl⟩
  | notified funcName args =>
    cases ho
    cases hid
  | _ => cases ho

theorem callIds_sublist {h : List ClientEvent} (hrange : ∀ idx ∈ issuedOf h, idx < 2 ^ 31) :
    List.Sublist ((requestObjects h).filterMap callId) ((issuedOf h).map (castUnsigned 4)) := by
  induction h with
  | nil => exact .refl _
  | cons e h ih =>
    have htail : ∀ idx ∈ issuedOf h, idx < 2 ^ 31 := by
      intro idx hidx
      apply hrange
      rw [show e :: h = [e] ++ h from rfl, issuedOf_append]
      exact List.mem_append_right _ hidx
    cases e with
    | issued p idx funcName args =>
      have hobjects : requestObjects (.issued p idx funcName args :: h) =
          callObject idx funcName args :: requestObjects h := rfl
      have hissued : issuedOf (.issued p idx funcName args :: h) = idx :: issuedOf h := rfl
      have hlt : idx < 2 ^ 31 := hrange idx (hissued ▸ List.mem_cons_self ..)
      rw [hobjects, hissued, List.map_cons, List.filterMap_cons, callId_callObject hlt]
      split_ifs
      · exact (ih htail).cons_cons _
      · exact (ih htail).cons _
    | _ => exact ih htail

namespace Numbering

variable {h : List ClientEvent} {c : ClientImpl}

theorem requestedOf_eq (hn : Numbering h c) : requestedOf h = (requestObjects h).map pack := by
  rw [requestedOf, requestObjects, List.map_filterMap]
  apply List.filterMap_congr
  intro e he
  cases e with
  | issued p idx funcName args =>
    obtain ⟨hlow, hhigh⟩ := hn.issued_range (issued_mem he).1
    exact congrArg some (packCall_eq hlow hhigh funcName args)
  | notified funcName args => exact congrArg some (packNotification_eq funcName args)
  | _ => rfl

theorem callIds_nodup (hn : Numbering h c) (hfew : (numbersOf h).length < 2 ^ 32) :
    ((requestObjects h).filterMap callId).Nodup :=
  (hn.ids_nodup hfew).sublist (callIds_sublist fun _ hidx => (hn.issued_range hidx).2)

end Numbering

/-- What the numbers and the format can carry: fewer than `2 ^ 31` calls, and no request or reply
that is too large. -/
structure Moderate (cfg : Config) (h : List ClientEvent) : Prop where
  few : (numbersOf h).length < 2 ^ 31
  requests : ∀ o ∈ requestObjects h, o.WellFormed
  replies : ∀ o ∈ requestObjects h, ∀ r, cfg.replyTo o = some r → r.toObject.WellFormed

theorem Moderate.front {cfg : Config} {h k : List ClientEvent} (hm : Moderate cfg (h ++ k)) :
    Moderate cfg h where
  few := by
    have hfew := hm.few
    rw [numbersOf_append, List.length_append] at hfew
    omega
  requests o ho := hm.requests o (requestObjects_append h k ▸ List.mem_append_left _ ho)
  replies o ho := hm.replies o (requestObjects_append h k ▸ List.mem_append_left _ ho)

/-! ## What each end has heard of the other -/

theorem callId_of_reply {cfg : Config} {o : Object} {r : Response} (h : cfg.replyTo o = some r) :
    callId o = some r.id := by
  obtain ⟨call, hcall, hid, -⟩ := serve_reply h
  rw [callId, hcall, hid]
  rfl

theorem convertResponse_reply {cfg : Config} {o : Object} {r : Response}
    (h : cfg.replyTo o = some r) :
    convertResponse r.toObject = some (r.id, r.error.getD .nil, r.result.getD .nil) := by
  have hlt := reply_id_lt h
  have hone : convertUint32 (.positiveInteger 1) = some 1 := rfl
  have hid : convertUint32 (.positiveInteger r.id) = some r.id := by
    rw [convertUint32, convertUnsigned, if_neg (by omega)]
  simp [Response.toObject, convertResponse, convertElement, hone, hid]

theorem replies_ids {cfg : Config} (msgs : List Object) :
    List.Sublist ((cfg.replies msgs).map Response.id) (msgs.filterMap callId) := by
  induction msgs with
  | nil => exact .refl _
  | cons o msgs ih =>
    rw [Config.replies, List.filterMap_cons, List.filterMap_cons]
    cases hreply : cfg.replyTo o with
    | none =>
      cases callId o with
      | none => exact ih
      | some id => exact ih.cons _
    | some r =>
      rw [callId_of_reply hreply, List.map_cons]
      exact ih.cons_cons _

namespace Conversing

variable {cfg : Config} {h : List ConversationEvent} {p : Conversation}

theorem requests_split (hc : Conversing cfg h p) :
    ∃ qs ss, requestObjects (lefts h) = qs ++ ss ∧ queuedOf (wroteOf (lefts h)) = qs.map pack ∧
      (p.left.destroyed = false → buffersOf p.left.strand = ss.map pack) := by
  have hrequested := hc.numbering.requestedOf_eq
  obtain ⟨rest, hrest⟩ := hc.books.front
  rw [hrequested] at hrest
  obtain ⟨qs, ss, hsplit, hqs, hss⟩ := List.map_eq_append_iff.mp hrest.symm
  refine ⟨qs, ss, hsplit, hqs.symm, ?_⟩
  intro hstay
  have horder := hc.books.order hstay
  rw [hrequested, ← hrest, List.append_cancel_left_eq] at horder
  rw [horder, hss]

/-- The session has read a front of the requests that were queued. -/
theorem session_front (hc : Conversing cfg h p) (hm : Moderate cfg (lefts h)) {qs ss : List Object}
    (hsplit : requestObjects (lefts h) = qs ++ ss)
    (hqueued : queuedOf (wroteOf (lefts h)) = qs.map pack) :
    ∃ ds u, Unpacker.readChunks (receivedChunks (rights h)) = (ds, some u) ∧ ds <+: qs := by
  have hwf : ∀ o ∈ qs, o.WellFormed := by
    intro o ho
    apply hm.requests
    rw [hsplit]
    exact List.mem_append_left _ ho
  have hsent : sentOfWriter (wroteOf (lefts h)) <+: packedStream qs := by
    have hprefix := hc.books.queue.sent_prefix
    rwa [hqueued, ← List.flatMap_def] at hprefix
  have hwrote := hc.conserved.forth
  rw [clientSide_writesOf] at hwrote
  have hread : (serverSide cfg).readsOf (rights h) <+: packedStream qs :=
    (hwrote ▸ List.prefix_append _ _).trans hsent
  exact Unpacker.readChunks_front hwf (hc.attentive.heard.trans hread)

theorem posted_front (hc : Conversing cfg h p) (hm : Moderate cfg (lefts h)) {qs ss : List Object}
    (hsplit : requestObjects (lefts h) = qs ++ ss)
    (hqueued : queuedOf (wroteOf (lefts h)) = qs.map pack) : postedOf (rights h) <+: qs := by
  obtain ⟨ds, u, hread, hds⟩ := hc.session_front hm hsplit hqueued
  have hfront := hc.serves.intake.front
  rw [hread] at hfront
  exact hfront.trans hds

theorem posted_requests (hc : Conversing cfg h p) (hm : Moderate cfg (lefts h)) :
    postedOf (rights h) <+: requestObjects (lefts h) := by
  obtain ⟨qs, ss, hsplit, hqueued, -⟩ := hc.requests_split
  rw [hsplit]
  exact (hc.posted_front hm hsplit hqueued).trans (List.prefix_append _ _)

theorem ran_posted (hc : Conversing cfg h p) {o : Object} (ho : o ∈ ranOf (rights h)) :
    o ∈ postedOf (rights h) := hc.serves.mem_posted.mpr (.inl ho)

theorem client_front (hc : Conversing cfg h p) (hm : Moderate cfg (lefts h)) :
    ∃ ds u, Unpacker.readChunks (chunksOf (lefts h)) = (ds, some u) ∧
      ds <+: (cfg.replies (ranOf (rights h))).map Response.toObject := by
  have hwf : ∀ o ∈ (cfg.replies (ranOf (rights h))).map Response.toObject, o.WellFormed := by
    intro o ho
    obtain ⟨r, hr, rfl⟩ := List.mem_map.mp ho
    obtain ⟨msg, hmsg, hreply⟩ := List.mem_filterMap.mp hr
    exact hm.replies msg ((hc.posted_requests hm).subset (hc.ran_posted hmsg)) r hreply
  have hsent : sentOfWriter (writerOf (rights h)) <+:
      packedStream ((cfg.replies (ranOf (rights h))).map Response.toObject) := by
    rw [← hc.serves.packed]
    exact hc.serves.queue.sent_prefix.trans (List.prefix_append _ _)
  have hwrote := hc.conserved.back
  rw [serverSide_writesOf, clientSide_readsOf] at hwrote
  have hread : (chunksOf (lefts h)).flatten <+:
      packedStream ((cfg.replies (ranOf (rights h))).map Response.toObject) :=
    (hwrote ▸ List.prefix_append _ _).trans hsent
  exact Unpacker.readChunks_front hwf hread

theorem responded_front (hc : Conversing cfg h p) (hm : Moderate cfg (lefts h)) :
    respondedOf (lefts h) <+: (cfg.replies (ranOf (rights h))).map Response.toObject := by
  obtain ⟨ds, u, hread, hds⟩ := hc.client_front hm
  have hfront := hc.books.intake.front
  rw [hread] at hfront
  exact hfront.trans hds

/-- A response that the client has taken is the server's reply to a request that it has sent. -/
theorem responded_reply (hc : Conversing cfg h p) (hm : Moderate cfg (lefts h)) {msg : Object}
    (hmsg : msg ∈ respondedOf (lefts h)) :
    ∃ o r, o ∈ postedOf (rights h) ∧ cfg.replyTo o = some r ∧ msg = r.toObject := by
  obtain ⟨r, hr, rfl⟩ := List.mem_map.mp ((hc.responded_front hm).subset hmsg)
  obtain ⟨o, ho, hreply⟩ := List.mem_filterMap.mp hr
  exact ⟨o, r, hc.ran_posted ho, hreply, rfl⟩

theorem callIds_nodup (hc : Conversing cfg h p) (hm : Moderate cfg (lefts h)) :
    ((requestObjects (lefts h)).filterMap callId).Nodup :=
  hc.numbering.callIds_nodup (by have := hm.few; omega)

theorem responded_nodup (hc : Conversing cfg h p) (hm : Moderate cfg (lefts h)) :
    (respondedIds (lefts h)).Nodup := by
  have hran : ((ranOf (rights h)).filterMap callId).Nodup := by
    have hposted := (hc.callIds_nodup hm).sublist
      ((hc.posted_requests hm).sublist.filterMap callId)
    have hserved := (hc.serves.tasks.filterMap callId).nodup_iff.mpr hposted
    rw [List.filterMap_append] at hserved
    exact (List.nodup_append.mp hserved).1
  have hids : ((cfg.replies (ranOf (rights h))).map Response.id).Nodup :=
    hran.sublist (replies_ids _)
  have hconvert : ((cfg.replies (ranOf (rights h))).map Response.toObject).filterMap
      (fun msg => (convertResponse msg).map Prod.fst) =
      (cfg.replies (ranOf (rights h))).map Response.id := by
    rw [List.filterMap_map, ← List.filterMap_eq_map]
    apply List.filterMap_congr
    intro r hr
    obtain ⟨o, -, hreply⟩ := List.mem_filterMap.mp hr
    rw [Function.comp_apply, convertResponse_reply hreply]
    rfl
  rw [← hconvert] at hids
  exact hids.sublist ((hc.responded_front hm).sublist.filterMap _)

end Conversing

end PromiseDemo.Rpc
