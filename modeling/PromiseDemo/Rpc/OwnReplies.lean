import PromiseDemo.Rpc.Conversation
import PromiseDemo.Rpc.Handlers

/-!
# Every call gets its own reply

Against the server of its own library the client makes no entry for a response that nobody waits
for, breaks no promise while it lives, and hands each call the reply to that call, in whichever
order the workers of the server end.
-/

namespace PromiseDemo.Rpc

open Transition MsgPack PromiseStore Duplex

theorem eq_of_nodup_filterMap {α β : Type*} {f : α → Option β} {l : List α}
    (hnodup : (l.filterMap f).Nodup) {a b : α} (ha : a ∈ l) (hb : b ∈ l) {x : β}
    (hfa : f a = some x) (hfb : f b = some x) : a = b := by
  induction l with
  | nil => cases ha
  | cons c l ih =>
    have hcons : ∀ y, f c = some y → (l.filterMap f).Nodup ∧ y ∉ l.filterMap f := by
      intro y hy
      rw [List.filterMap_cons, hy] at hnodup
      exact (List.nodup_cons.mp hnodup).symm
    rcases List.mem_cons.mp ha with rfl | ha'
    · rcases List.mem_cons.mp hb with rfl | hb'
      · rfl
      · exact absurd (List.mem_filterMap.mpr ⟨b, hb', hfb⟩) (hcons x hfa).2
    · rcases List.mem_cons.mp hb with rfl | hb'
      · exact absurd (List.mem_filterMap.mpr ⟨a, ha', hfa⟩) (hcons x hfb).2
      · exact ih (hnodup.sublist ((List.sublist_cons_self c l).filterMap f)) ha' hb'

theorem issued_unique {h : List ClientEvent} (hids : ((issuedOf h).map (castUnsigned 4)).Nodup)
    {p p' : ℕ} {idx idx' : ℤ} {funcName funcName' : Bytes} {args args' : List Object}
    (hmem : .issued p idx funcName args ∈ h) (hmem' : .issued p' idx' funcName' args' ∈ h)
    (hid : castUnsigned 4 idx = castUnsigned 4 idx') :
    p = p' ∧ idx = idx' ∧ funcName = funcName' ∧ args = args' := by
  rw [issuedOf, List.map_filterMap] at hids
  have heq := eq_of_nodup_filterMap hids hmem hmem' rfl (congrArg some hid.symm)
  simpa using heq

/-! ## A client whose peer answers what it was asked -/

/-- A response has satisfied the promise of its call. -/
def Answered (h : List ClientEvent) (msg : Object) : Prop :=
  ∀ id error result, convertResponse msg = some (id, error, result) →
    ∃ p idx funcName args, .issued p idx funcName args ∈ h ∧ castUnsigned 4 idx = id ∧
      .resolved p (resultFor funcName error result) ∈ h

theorem Answered.append {h : List ClientEvent} {msg : Object} (ha : Answered h msg)
    (es : List ClientEvent) : Answered (h ++ es) msg := by
  intro id error result hconv
  obtain ⟨p, idx, funcName, args, hmem, hid, hres⟩ := ha id error result hconv
  exact ⟨p, idx, funcName, args, List.mem_append_left _ hmem, hid, List.mem_append_left _ hres⟩

/-- Every entry belongs to a call, no promise is broken, and every response has satisfied the
promise of its call. -/
structure Faithful (h : List ClientEvent) (c : ClientImpl) : Prop where
  entries : ∀ id r, c.ongoingCalls.lookup id = some r →
    ∃ idx args, castUnsigned 4 idx = id ∧ .issued r.promise idx r.funcName args ∈ h
  unbroken : c.destroyed = false → ∀ p, .resolved p .brokenPromise ∉ h
  answered : ∀ msg ∈ respondedOf h, Answered h msg

namespace Faithful

variable {h es : List ClientEvent} {c c' : ClientImpl}

theorem init : Faithful [] {} where
  entries id r hr := by cases hr
  unbroken _ _ hmem := by cases hmem
  answered msg hmsg := by cases hmsg

theorem extend (hf : Faithful h c)
    (hentries : ∀ id r, c'.ongoingCalls.lookup id = some r → c.ongoingCalls.lookup id = some r ∨
      ∃ idx args, castUnsigned 4 idx = id ∧ .issued r.promise idx r.funcName args ∈ h)
    (hbroken : c'.destroyed = false → c.destroyed = false ∧ ∀ p, .resolved p .brokenPromise ∉ es)
    (hanswered : ∀ msg ∈ respondedOf es, Answered (h ++ es) msg) : Faithful (h ++ es) c' := by
  refine ⟨?_, ?_, ?_⟩
  · intro id r hr
    have hmade : ∃ idx args, castUnsigned 4 idx = id ∧
        .issued r.promise idx r.funcName args ∈ h := by
      rcases hentries id r hr with hold | hnew
      · exact hf.entries id r hold
      · exact hnew
    obtain ⟨idx, args, hid, hmem⟩ := hmade
    exact ⟨idx, args, hid, List.mem_append_left _ hmem⟩
  · intro hstay p hmem
    obtain ⟨hstay', hnone⟩ := hbroken hstay
    rcases List.mem_append.mp hmem with hold | hnew
    · exact hf.unbroken hstay' p hold
    · exact hnone p hnew
  · intro msg hmsg
    rw [respondedOf_append] at hmsg
    rcases List.mem_append.mp hmsg with hold | hnew
    · exact (hf.answered msg hold).append es
    · exact hanswered msg hnew

theorem quiet (hf : Faithful h c) (hongoing : c'.ongoingCalls = c.ongoingCalls)
    (hdestroyed : c'.destroyed = c.destroyed) (hresponded : respondedOf es = [])
    (hbroken : ∀ p, .resolved p .brokenPromise ∉ es) : Faithful (h ++ es) c' := by
  refine hf.extend ?_ ?_ ?_
  · intro id r hr
    rw [hongoing] at hr
    exact .inl hr
  · intro hstay
    exact ⟨hdestroyed ▸ hstay, hbroken⟩
  · intro msg hmsg
    rw [hresponded] at hmsg
    cases hmsg

theorem enter (hf : Faithful h c) (hb : Books h c)
    (hids : ((issuedOf h).map (castUnsigned 4)).Nodup) {idx : ℤ} {funcName buffer : Bytes} {p : ℕ}
    {rest : List Closure} (hstrand : c.strand = .call idx funcName p buffer :: rest) :
    Faithful (h ++ (ClientImpl.runClosure { c with strand := rest }
        (.call idx funcName p buffer)).2)
      (ClientImpl.runClosure { c with strand := rest } (.call idx funcName p buffer)).1 := by
  have hticket : (⟨idx, funcName, p⟩ : Ticket) ∈ tickets c.strand := by
    rw [hstrand]
    exact List.mem_cons_self ..
  obtain ⟨-, args, hmem⟩ := hb.accounts.calling _ hticket
  have hfree : c.ongoingCalls.lookup (castUnsigned 4 idx) = none := by
    rw [Option.eq_none_iff_forall_ne_some]
    intro r hr
    obtain ⟨idx', args', hid, hmem'⟩ := hf.entries _ r hr
    obtain ⟨hp, -⟩ := issued_unique hids hmem' hmem hid
    exact hb.accounts.apart _ hticket _ r hr hp
  simp only [ClientImpl.runClosure, hfree]
  refine hf.extend ?_ (fun hstay => ⟨hstay, by simp⟩) (by simp [respondedOf])
  intro id r hr
  have hinsert : (c.ongoingCalls.insert (castUnsigned 4 idx) ⟨funcName, p⟩).lookup id =
      some r := hr
  by_cases hid : id = castUnsigned 4 idx
  · subst hid
    rw [AList.lookup_insert] at hinsert
    cases hinsert
    exact .inr ⟨idx, args, rfl, hmem⟩
  · rw [AList.lookup_insert_ne hid] at hinsert
    exact .inl hinsert

theorem runClosure (hf : Faithful h c) (hb : Books h c)
    (hids : ((issuedOf h).map (castUnsigned 4)).Nodup) {closure : Closure} {rest : List Closure}
    (hstrand : c.strand = closure :: rest) :
    Faithful (h ++ (ClientImpl.runClosure { c with strand := rest } closure).2)
      (ClientImpl.runClosure { c with strand := rest } closure).1 := by
  cases closure with
  | call idx funcName p buffer => exact hf.enter hb hids hstrand
  | notify buffer => exact hf.quiet rfl rfl rfl (by simp [ClientImpl.runClosure])
  | erase id =>
    have haccounts := hb.accounts
    rw [hstrand] at haccounts
    have herases : erasesOf (.erase id :: rest) = id :: erasesOf rest := rfl
    rw [herases] at haccounts
    obtain ⟨r, hlookup, habandon, -⟩ := haccounts.erase
    simp only [ClientImpl.runClosure, hlookup, habandon]
    refine hf.extend ?_ (fun hstay => ⟨hstay, by simp⟩) (by simp [respondedOf])
    intro i q hq
    have hi : i ≠ id := by
      rintro rfl
      rw [AList.lookup_erase] at hq
      cases hq
    rw [AList.lookup_erase_ne hi] at hq
    exact .inl hq

theorem located (hf : Faithful h c) (hb : Books h c) (hstay : c.destroyed = false) {p : ℕ}
    {idx : ℤ} {funcName : Bytes} {args : List Object} (hmem : .issued p idx funcName args ∈ h)
    (hsent : ∀ buffer, .call idx funcName p buffer ∉ c.strand)
    (hfirst : castUnsigned 4 idx ∉ respondedIds h) :
    c.ongoingCalls.lookup (castUnsigned 4 idx) = some ⟨funcName, p⟩ ∧
      resultOf c.promises p = none := by
  have hnone : resultOf c.promises p = none := by
    rw [Option.eq_none_iff_forall_ne_some]
    intro r hr
    have hres : .resolved p r ∈ h := by
      rw [← mem_resultsOf, hb.accounts.results, hr]
      exact List.mem_singleton_self _
    rcases hb.accounts.reasons p r hres with rfl |
      ⟨msg, id, error, result, name, hmsg, hconv, -, hcall⟩
    · exact hf.unbroken hstay p hres
    · obtain ⟨rfl, -⟩ := hcall idx funcName args hmem
      exact hfirst (List.mem_filterMap.mpr ⟨msg, hmsg, by rw [hconv]; rfl⟩)
  refine ⟨?_, hnone⟩
  rcases hb.accounts.located hmem hnone with hticket | hentry
  · obtain ⟨closure, hclosure, heq⟩ := List.mem_filterMap.mp hticket
    cases closure with
    | call i n q buffer =>
      cases heq
      exact absurd hclosure (hsent buffer)
    | notify buffer => cases heq
    | erase id => cases heq
  · exact hentry

/-- One turn of the read loop, when the message answers a call that waits for it. -/
theorem next (hf : Faithful h c) (hb : Books h c) (hstay : c.destroyed = false)
    (hexpected : ∀ msg ∈ respondedOf c.next.2, ∀ id error result,
      convertResponse msg = some (id, error, result) → id ∉ respondedIds h ∧
        ∃ p idx funcName args, .issued p idx funcName args ∈ h ∧ castUnsigned 4 idx = id ∧
          ∀ buffer, .call idx funcName p buffer ∉ c.strand) :
    Faithful (h ++ c.next.2) c.next.1 := by
  unfold ClientImpl.next at hexpected ⊢
  cases hnext : c.unpacker.next with
  | incomplete u => exact hf.quiet rfl rfl rfl (by simp)
  | parseError => exact hf.quiet rfl rfl rfl (by simp)
  | object msg u =>
    rw [hnext] at hexpected
    dsimp only at hexpected ⊢
    cases hconv : convertResponse msg with
    | none =>
      refine hf.extend (fun _ _ hr => .inl hr) (fun _ => ⟨hstay, by simp⟩) ?_
      intro m hm id error result hm'
      obtain rfl : m = msg := by simpa [respondedOf] using hm
      rw [hconv] at hm'
      cases hm'
    | some t =>
      obtain ⟨id, error, result⟩ := t
      have hmsg : ∀ es, msg ∈ respondedOf (.responded msg :: es) := fun es =>
        List.mem_cons_self ..
      rw [hconv] at hexpected
      dsimp only at hexpected ⊢
      have hcall : id ∉ respondedIds h ∧
          ∃ p idx funcName args, .issued p idx funcName args ∈ h ∧ castUnsigned 4 idx = id ∧
            ∀ buffer, .call idx funcName p buffer ∉ c.strand := by
        split at hexpected
        · exact hexpected msg (hmsg _) id error result hconv
        · exact hexpected msg (hmsg _) id error result hconv
      obtain ⟨hfirst, p, idx, funcName, args, hmem, rfl, hsent⟩ := hcall
      obtain ⟨hentry, hnone⟩ := hf.located hb hstay hmem hsent hfirst
      have hw : Waiting c.promises p := ⟨hb.accounts.bound _ _ hentry, hnone⟩
      obtain ⟨s', hok, -⟩ := satisfy_of_waiting hw (resultFor funcName error result)
      simp only [ClientImpl.ongoingAt, hentry, hok]
      refine hf.extend (fun _ _ hr => .inl hr) (fun _ => ⟨hstay, ?_⟩) ?_
      · intro q hq
        simp only [List.mem_cons, reduceCtorEq, ClientEvent.resolved.injEq, List.not_mem_nil,
          or_false, false_or] at hq
        have hvalue := hq.2
        unfold resultFor at hvalue
        split_ifs at hvalue
      · intro m hm id' error' result' hm'
        obtain rfl : m = msg := by simpa [respondedOf] using hm
        rw [hconv] at hm'
        cases hm'
        exact ⟨p, idx, funcName, args, List.mem_append_left _ hmem, rfl, by simp⟩

theorem step (hf : Faithful h c) (hb : Books h c)
    (hids : ((issuedOf h).map (castUnsigned 4)).Nodup) {a : ClientAction}
    (hstep : c.step a = some (c', es))
    (hexpected : ∀ msg ∈ respondedOf es, ∀ id error result,
      convertResponse msg = some (id, error, result) → id ∉ respondedIds h ∧
        ∃ p idx funcName args, .issued p idx funcName args ∈ h ∧ castUnsigned 4 idx = id ∧
          ∀ buffer, .call idx funcName p buffer ∉ c.strand) :
    Faithful (h ++ es) c' := by
  obtain ⟨-, hstay, hact⟩ := clientStep_of_step hstep
  cases hact with
  | connected | refused | call | post | send | receive | exhausts | readError =>
    exact hf.quiet rfl rfl rfl (by simp [ClientImpl.takeNumber])
  | io hwrite hclose hw => exact hf.quiet rfl rfl (by simp [respondedOf]) (by simp)
  | strand hstrand => exact hf.runClosure hb hids hstrand
  | next hphase => exact hf.next hb hstay hexpected
  | destroy hphase =>
    refine hf.extend (fun id r hr => by cases hr) (fun hkept => by cases hkept) ?_
    intro msg hmsg
    obtain ⟨e, he, heq⟩ := List.mem_filterMap.mp hmsg
    obtain ⟨q, rfl⟩ := abandonAll_broken _ _ e he
    cases heq

end Faithful

/-! ## The client of a server of its own library -/

namespace Conversing

variable {cfg : Config} {h : List ConversationEvent} {p : Conversation}

theorem left_strand (hc : Conversing cfg h p) (hm : Moderate cfg (lefts h))
    (hstay : p.left.destroyed = false) {q id : ℕ} {idx : ℤ} {funcName : Bytes} {args : List Object}
    (hmem : .issued q idx funcName args ∈ lefts h)
    (hid : callId (callObject idx funcName args) = some id)
    (hposted : callObject idx funcName args ∈ postedOf (rights h)) (buffer : Bytes) :
    .call idx funcName q buffer ∉ p.left.strand := by
  intro hstrand
  obtain ⟨qs, ss, hsplit, hqueued, hstays⟩ := hc.requests_split
  obtain ⟨args', hmem', hbuffer⟩ := hc.loaded idx funcName q buffer hstrand
  obtain ⟨-, -, rfl⟩ := hc.books.accounts.unique _ _ _ _ _ _ _ hmem hmem'
  obtain ⟨hlow, hhigh⟩ := hc.numbering.issued_range (issued_mem hmem).1
  have hin : buffer ∈ buffersOf p.left.strand := List.mem_filterMap.mpr ⟨_, hstrand, rfl⟩
  rw [hstays hstay, hbuffer, packCall_eq hlow hhigh] at hin
  obtain ⟨o, ho, heq⟩ := List.mem_map.mp hin
  have hwf : ∀ o ∈ ss, o.WellFormed := by
    intro o ho
    apply hm.requests
    rw [hsplit]
    exact List.mem_append_right _ ho
  obtain rfl := pack_inj (hwf o ho) (hm.requests _ (issued_mem hmem).2) heq
  -- the request would be among those queued and among those that are not
  have hqs := (hc.posted_front hm hsplit hqueued).subset hposted
  have hnodup := hc.callIds_nodup hm
  rw [hsplit, List.filterMap_append, List.nodup_append] at hnodup
  exact hnodup.2.2 id (List.mem_filterMap.mpr ⟨_, hqs, hid⟩) id
    (List.mem_filterMap.mpr ⟨_, ho, hid⟩) rfl

theorem posted_call (hc : Conversing cfg h p) (hm : Moderate cfg (lefts h)) {o : Object}
    (ho : o ∈ postedOf (rights h)) {id : ℕ} (hid : callId o = some id) :
    ∃ q idx funcName args, .issued q idx funcName args ∈ lefts h ∧
      o = callObject idx funcName args ∧ castUnsigned 4 idx = id := by
  obtain ⟨q, idx, funcName, args, hmem, rfl⟩ :=
    issued_of_callId ((hc.posted_requests hm).subset ho) hid
  rw [callId_callObject (hc.numbering.issued_range (issued_mem hmem).1).2] at hid
  obtain ⟨-, hkey⟩ := Option.ite_none_right_eq_some.mp hid
  exact ⟨q, idx, funcName, args, hmem, rfl, Option.some.inj hkey⟩

theorem ids_nodup (hc : Conversing cfg h p) (hm : Moderate cfg (lefts h)) :
    ((issuedOf (lefts h)).map (castUnsigned 4)).Nodup :=
  hc.numbering.ids_nodup (by have := hm.few; omega)

theorem faithful_of_run {forthCap backCap : Option ℕ}
    (hrun : Run (Conversation.step cfg) anyAction (.start forthCap backCap) h p)
    (hm : Moderate cfg (lefts h)) : Faithful (lefts h) p.left := by
  induction hrun with
  | refl => exact .init
  | @tail h p p' a es hfront _ hstep ih =>
    have hc := Conversing.of_run hfront
    have hc' := hc.step hstep
    rw [lefts_append] at hm
    have hf := ih hm.front
    cases a with
    | inr a =>
      obtain ⟨s, rs, -, -, -, rfl, hq⟩ := step_inr.mp hstep
      rw [lefts_append, lefts_map_inr, List.append_nil, hq]
      exact hf
    | inl a =>
      obtain ⟨c, ls, hleft, -, -, rfl, hq⟩ := step_inl.mp hstep
      obtain ⟨-, hstay, -⟩ := clientStep_of_step hleft
      rw [lefts_append, lefts_map_inl, hq]
      rw [lefts_map_inl] at hm
      have hmoderate : Moderate cfg (lefts (h ++ ls.map .inl)) := by
        rw [lefts_append, lefts_map_inl]
        exact hm
      refine hf.step hc.books (hc.ids_nodup hm.front) hleft ?_
      intro msg hmsg id error result hconv
      have hnodup := hc'.responded_nodup hmoderate
      have hmsg' : msg ∈ respondedOf (lefts (h ++ ls.map (Sum.inl (β := ServerSessionEvent)))) := by
        rw [lefts_append, lefts_map_inl, respondedOf_append]
        exact List.mem_append_right _ hmsg
      obtain ⟨o, r, ho, hreply, rfl⟩ := hc'.responded_reply hmoderate hmsg'
      rw [rights_append, rights_map_inl, List.append_nil] at ho
      rw [convertResponse_reply hreply] at hconv
      cases hconv
      obtain ⟨q, idx, funcName, args, hmem, rfl, hkey⟩ :=
        hc.posted_call hm.front ho (callId_of_reply hreply)
      rw [lefts_append, lefts_map_inl, respondedIds_append, List.nodup_append] at hnodup
      have hnew : r.id ∈ respondedIds ls :=
        List.mem_filterMap.mpr ⟨_, hmsg, by rw [convertResponse_reply hreply]; rfl⟩
      exact ⟨fun hold => hnodup.2.2 r.id hold r.id hnew rfl, q, idx, funcName, args, hmem, hkey,
        hc.left_strand hm.front hstay hmem (callId_of_reply hreply) ho⟩

theorem client_alive (hc : Conversing cfg h p) (hm : Moderate cfg (lefts h)) :
    p.left.terminated = false := by
  by_contra hdead
  rcases hc.books.terminated (by simpa using hdead) with hfail | ⟨msg, hmsg, hconv⟩ | hdup
  · obtain ⟨ds, u, hread, -⟩ := hc.client_front hm
    rw [hread] at hfail
    cases hfail
  · obtain ⟨o, r, -, hreply, rfl⟩ := hc.responded_reply hm hmsg
    rw [convertResponse_reply hreply] at hconv
    cases hconv
  · exact hdup (hc.responded_nodup hm)

theorem server_terminated (hc : Conversing cfg h p) (hm : Moderate cfg (lefts h))
    (hdead : p.right.terminated = true) :
    ∃ o ∈ requestObjects (lefts h), cfg.serve o = .terminated := by
  rcases hc.serves.terminated hdead with hfail | ⟨o, ho, hserve⟩
  · obtain ⟨qs, ss, hsplit, hqueued, -⟩ := hc.requests_split
    obtain ⟨ds, u, hread, -⟩ := hc.session_front hm hsplit hqueued
    rw [hread] at hfail
    cases hfail
  · exact ⟨o, (hc.posted_requests hm).subset (hc.serves.mem_posted.mpr (.inr ho)), hserve⟩

end Conversing

/-- What a reply means to the call of a function. -/
def Response.outcomeFor (r : Response) (funcName : Bytes) : CallResult :=
  resultFor funcName (r.error.getD .nil) (r.result.getD .nil)

theorem Conversing.own_reply {cfg : Config} {h : List ConversationEvent} {p : Conversation}
    (hc : Conversing cfg h p) (hm : Moderate cfg (lefts h)) (hf : Faithful (lefts h) p.left) {q : ℕ}
    {idx : ℤ} {funcName : Bytes} {args : List Object}
    (hmem : .issued q idx funcName args ∈ lefts h) {r : CallResult}
    (hres : .resolved q r ∈ lefts h) :
    (r = .brokenPromise ∧ p.left.destroyed = true) ∨
      ∃ reply, cfg.replyTo (callObject idx funcName args) = some reply ∧
        r = reply.outcomeFor funcName := by
  rcases hc.books.accounts.reasons q r hres with rfl |
    ⟨msg, id, error, result, name, hmsg, hconv, rfl, hcall⟩
  · left
    refine ⟨rfl, ?_⟩
    by_contra hstay
    exact hf.unbroken (by simpa using hstay) q hres
  · right
    obtain ⟨hid, rfl⟩ := hcall idx funcName args hmem
    obtain ⟨o, reply, ho, hreply, rfl⟩ := hc.responded_reply hm hmsg
    rw [convertResponse_reply hreply] at hconv
    cases hconv
    obtain ⟨q', idx', funcName', args', hmem', rfl, hkey⟩ :=
      hc.posted_call hm ho (callId_of_reply hreply)
    obtain ⟨-, rfl, rfl, rfl⟩ := issued_unique (hc.ids_nodup hm) hmem hmem' (hid.trans hkey.symm)
    exact ⟨reply, hreply, rfl⟩

/-- However the two ends and the channels are interleaved, in whichever order the workers end,
and whenever the connection is lost, the client's process lives on, and a future is resolved with
the server's reply to its own call or, once the client is destroyed, with a broken promise. -/
theorem own_replies {cfg : Config} {forthCap backCap : Option ℕ} {h : List ConversationEvent}
    {p : Conversation}
    (hrun : Run (Conversation.step cfg) anyAction (.start forthCap backCap) h p)
    (hm : Moderate cfg (lefts h)) :
    p.left.terminated = false ∧
      ∀ q idx funcName args, .issued q idx funcName args ∈ lefts h →
        ∀ r, .resolved q r ∈ lefts h →
          (r = .brokenPromise ∧ p.left.destroyed = true) ∨
            ∃ reply, cfg.replyTo (callObject idx funcName args) = some reply ∧
              r = reply.outcomeFor funcName := by
  have hc := Conversing.of_run hrun
  refine ⟨hc.client_alive hm, ?_⟩
  intro q idx funcName args hmem r hres
  exact hc.own_reply hm (Conversing.faithful_of_run hrun hm) hmem hres

/-- A client calls the function of `pingConfig`. -/
def pingCall : List ConversationAction :=
  [.inl (.connect true), .inl (.call [0x66] []), .inl (.post 0)]

/-- Request and reply pass through channels that hold three bytes. -/
def pingRun : List ConversationAction :=
  pingCall ++ [.inl .strand, .inl (.transfer 3), .inr (.receive [148, 0, 1]), .inr .next,
    .inl (.transfer 3), .inr (.receive [161, 102, 144]), .inr .next, .inr .next, .inr (.run 0 0),
    .inr .strand, .inl .written, .inr (.transfer 3), .inl (.receive [148, 1, 1]), .inl .next,
    .inr (.transfer 2), .inr .written, .inl (.receive [192, 195]), .inl .next, .inl .next,
    .inl .strand]

/-- Where such actions lead. -/
abbrev pinged (as : List ConversationAction) : Conversation × List ConversationEvent :=
  afterAll (Conversation.step pingConfig) anyAction (.start (some 3) (some 3)) as

theorem ping_moderate {h : List ClientEvent} (hfew : (numbersOf h).length = 1)
    (hobjects : requestObjects h = [callObject 1 [0x66] []]) : Moderate pingConfig h := by
  have hreply : pingConfig.replyTo (callObject 1 [0x66] []) =
      some (.makeResult 1 (.boolean true)) := rfl
  refine ⟨by omega, ?_, ?_⟩
  · intro o ho
    rw [hobjects, List.mem_singleton] at ho
    subst ho
    refine .array (by decide) ?_
    simp only [List.forall_mem_cons]
    refine ⟨.positiveInteger (by decide), .positiveInteger (by decide), .str (by decide),
      .array (by decide) (List.forall_mem_nil _), List.forall_mem_nil _⟩
  · intro o ho r hr
    rw [hobjects, List.mem_singleton] at ho
    subst ho
    cases hreply.symm.trans hr
    refine .array (by decide) ?_
    simp only [List.forall_mem_cons]
    exact ⟨.positiveInteger (by decide), .positiveInteger (by decide), .nil, .boolean true,
      List.forall_mem_nil _⟩

theorem own_replies_ping :
    (pinged pingRun).1.left.terminated = false ∧
      ∀ q idx funcName args, .issued q idx funcName args ∈ lefts (pinged pingRun).2 →
        ∀ r, .resolved q r ∈ lefts (pinged pingRun).2 →
          (r = .brokenPromise ∧ (pinged pingRun).1.left.destroyed = true) ∨
            ∃ reply, pingConfig.replyTo (callObject idx funcName args) = some reply ∧
              r = reply.outcomeFor funcName :=
  own_replies (Run.of_actions _ _ _ pingRun (by decide +kernel))
    (ping_moderate (by decide +kernel) (by with_unfolding_all rfl))

/-- Tasks start in the order in which the requests were posted, one for each, so that nothing is
served twice; and only a request can end the server. -/
theorem requests_served {cfg : Config} {forthCap backCap : Option ℕ}
    {h : List ConversationEvent} {p : Conversation}
    (hrun : Run (Conversation.step cfg) anyAction (.start forthCap backCap) h p)
    (hm : Moderate cfg (lefts h)) :
    postedOf (rights h) <+: requestObjects (lefts h) ∧
      (ranOf (rights h) ++ p.right.tasks).Perm (postedOf (rights h)) ∧
      (p.right.terminated = true →
        ∃ o ∈ requestObjects (lefts h), cfg.serve o = .terminated) := by
  have hc := Conversing.of_run hrun
  exact ⟨hc.posted_requests hm, hc.serves.tasks, hc.server_terminated hm⟩

theorem requests_served_ping :
    postedOf (rights (pinged pingRun).2) <+: requestObjects (lefts (pinged pingRun).2) ∧
      (ranOf (rights (pinged pingRun).2) ++ (pinged pingRun).1.right.tasks).Perm
        (postedOf (rights (pinged pingRun).2)) ∧
      ((pinged pingRun).1.right.terminated = true →
        ∃ o ∈ requestObjects (lefts (pinged pingRun).2), pingConfig.serve o = .terminated) :=
  requests_served (Run.of_actions _ _ _ pingRun (by decide +kernel))
    (ping_moderate (by decide +kernel) (by with_unfolding_all rfl))

end PromiseDemo.Rpc
