import PromiseDemo.Rpc.ClientNumbers

/-!
# Futures

What a user of the client can rely on whatever the peer does, and what not: a lost connection is
not told to those who wait, and `wait_all_responses` does not wait.
-/

namespace PromiseDemo.Rpc

open Transition MsgPack PromiseStore

/-! ## Futures -/

/-- The client is destroyed after it. -/
def brokenRun : List ClientAction := oneCall ++ [.destroy]

/-- Its connection is lost after it. -/
def lostRun : List ClientAction := oneCall ++ [.readError true]

/-- Whatever the peer does, a future is resolved at most once, and by a response that names the
number of its call, unless its promise was broken.  Until then its call is in the strand or
entered under its number; once the client is destroyed it is resolved. -/
theorem client_futures {h : List ClientEvent} {c : ClientImpl}
    (hrun : Run ClientImpl.step anyAction {} h c) :
    (∀ p, (resultsOf p h).length ≤ 1) ∧
      ∀ p idx funcName args, .issued p idx funcName args ∈ h →
        (∀ r, .resolved p r ∈ h → r = .brokenPromise ∨ ∃ msg ∈ respondedOf h, ∃ error result,
          convertResponse msg = some (castUnsigned 4 idx, error, result) ∧
            r = resultFor funcName error result) ∧
        (resultsOf p h = [] → (∃ buffer, .call idx funcName p buffer ∈ c.strand) ∨
          c.ongoingCalls.lookup (castUnsigned 4 idx) = some ⟨funcName, p⟩) ∧
        (c.destroyed = true → resultsOf p h ≠ []) := by
  have hb := Books.of_run hrun
  have ha := hb.accounts
  have hlocated : ∀ {p idx funcName args}, .issued p idx funcName args ∈ h → resultsOf p h = [] →
      (∃ buffer, .call idx funcName p buffer ∈ c.strand) ∨
        c.ongoingCalls.lookup (castUnsigned 4 idx) = some ⟨funcName, p⟩ := by
    intro p idx funcName args hmem hnone
    rw [ha.results, Option.toList_eq_nil_iff] at hnone
    rcases ha.located hmem hnone with hticket | hentry
    · obtain ⟨closure, hclosure, heq⟩ := List.mem_filterMap.mp hticket
      cases closure with
      | call i n q buffer =>
        cases heq
        exact .inl ⟨buffer, hclosure⟩
      | notify buffer => cases heq
      | erase id => cases heq
    · exact .inr hentry
  refine ⟨?_, ?_⟩
  · intro p
    rw [ha.results]
    cases resultOf c.promises p <;> simp
  · intro p idx funcName args hmem
    refine ⟨?_, hlocated hmem, ?_⟩
    · intro r hr
      rcases ha.reasons p r hr with hbroken | ⟨msg, id, error, result, n, hmsg, hconv, heq, hcall⟩
      · exact .inl hbroken
      · obtain ⟨hkey, rfl⟩ := hcall idx funcName args hmem
        rw [← hkey] at hconv
        exact .inr ⟨msg, hmsg, error, result, hconv, heq⟩
    · intro hgone hnone
      obtain ⟨hstrand, hongoing⟩ := hb.gone hgone
      rcases hlocated hmem hnone with ⟨buffer, hin⟩ | hentry
      · rw [hstrand] at hin
        cases hin
      · rw [hongoing] at hentry
        cases hentry

theorem client_futures_broken :
    (∀ p, (resultsOf p (historyOf brokenRun)).length ≤ 1) ∧
      ∀ p idx funcName args,
        .issued p idx funcName args ∈ (historyOf brokenRun) →
        (∀ r, .resolved p r ∈ (historyOf brokenRun) →
          r = .brokenPromise ∨
            ∃ msg ∈ respondedOf (historyOf brokenRun),
              ∃ error result, convertResponse msg = some (castUnsigned 4 idx, error, result) ∧
                r = resultFor funcName error result) ∧
        (resultsOf p (historyOf brokenRun) = [] →
          (∃ buffer, .call idx funcName p buffer ∈
              (reachedBy brokenRun).strand) ∨
            (reachedBy brokenRun).ongoingCalls.lookup
              (castUnsigned 4 idx) = some ⟨funcName, p⟩) ∧
        ((reachedBy brokenRun).destroyed = true →
          resultsOf p (historyOf brokenRun) ≠ []) :=
  client_futures (Run.of_actions ClientImpl.step anyAction {} brokenRun rfl)

/-! ## A lost connection -/

theorem runClosure_broken {c : ClientImpl} {closure : Closure} {q : ℕ} {r : CallResult}
    (hmem : .resolved q r ∈ (c.runClosure closure).2) : r = .brokenPromise := by
  have hrun := closureStep c closure
  generalize c.runClosure closure = x at hrun hmem
  have hbroken : ∀ {es : List ClientEvent}, (∀ e ∈ es, ∃ q, e = .resolved q .brokenPromise) →
      .resolved q r ∈ es → r = .brokenPromise := by
    intro es hes hres
    obtain ⟨p, heq⟩ := hes _ hres
    exact (ClientEvent.resolved.inj heq).2
  cases hrun with
  | queued _ _ _ hes =>
    rcases List.mem_append.mp hmem with hres | hqueued
    · exact hbroken hes hres
    · simp at hqueued
  | erased _ _ hes => exact hbroken hes hmem

theorem runClosure_phase (c : ClientImpl) (closure : Closure) :
    (c.runClosure closure).1.phase = c.phase ∧
      (c.runClosure closure).1.isConnected = c.isConnected ∧
      (c.runClosure closure).1.destroyed = c.destroyed := by
  have hrun := closureStep c closure
  generalize c.runClosure closure = q at hrun ⊢
  cases hrun <;> exact ⟨rfl, rfl, rfl⟩

theorem next_connected (c : ClientImpl) :
    c.next.1.isConnected = c.isConnected ∧ c.next.1.destroyed = c.destroyed := by
  have hnext := nextStep c
  generalize c.next = q at hnext ⊢
  cases hnext <;> exact ⟨rfl, rfl⟩

/-- The number of the call has been named by a response, or is that of another call. -/
def Displaced (h : List ClientEvent) (p : ℕ) : Prop :=
  ∃ idx funcName args, .issued p idx funcName args ∈ h ∧ (castUnsigned 4 idx ∈ respondedIds h ∨
    ∃ q idx' funcName' args', q ≠ p ∧ .issued q idx' funcName' args' ∈ h ∧
      castUnsigned 4 idx' = castUnsigned 4 idx)

theorem Displaced.mono {h : List ClientEvent} {p : ℕ} (hd : Displaced h p)
    (es : List ClientEvent) : Displaced (h ++ es) p := by
  obtain ⟨idx, funcName, args, hmem, hwhy⟩ := hd
  refine ⟨idx, funcName, args, List.mem_append_left _ hmem, ?_⟩
  rw [respondedIds_append]
  refine hwhy.imp (List.mem_append_left _) ?_
  rintro ⟨q, idx', funcName', args', hne, hmem', hkey⟩
  exact ⟨q, idx', funcName', args', hne, List.mem_append_left _ hmem', hkey⟩

theorem runClosure_displaced {h : List ClientEvent} {c : ClientImpl} (hb : Books h c)
    (he : Entered h c) (hl : Loaded h c) {closure : Closure} {rest : List Closure}
    (hstrand : c.strand = closure :: rest) {p : ℕ} {r : CallResult}
    (hmem : .resolved p r ∈ (ClientImpl.runClosure { c with strand := rest } closure).2) :
    Displaced h p := by
  have haccounts := hb.accounts
  rw [hstrand] at haccounts
  cases closure with
  | call idx funcName q buffer =>
    have htickets : tickets (.call idx funcName q buffer :: rest) =
        ⟨idx, funcName, q⟩ :: tickets rest := rfl
    have herases : erasesOf (.call idx funcName q buffer :: rest) = erasesOf rest := rfl
    rw [htickets, herases] at haccounts
    obtain ⟨s', habandon, -⟩ := haccounts.drop
    obtain ⟨args, hissued, -⟩ := hl idx funcName q buffer (hstrand ▸ List.mem_cons_self ..)
    unfold ClientImpl.runClosure at hmem
    dsimp only at hmem habandon
    split at hmem
    · simp at hmem
    · next entry hlookup =>
      rw [habandon] at hmem
      obtain ⟨rfl, -⟩ : p = q ∧ r = .brokenPromise := by simpa using hmem
      refine ⟨idx, funcName, args, hissued, ?_⟩
      rcases he _ entry hlookup with ⟨idx', args', hkey, hmem'⟩ | hnamed
      · exact .inr ⟨entry.promise, idx', entry.funcName, args',
          haccounts.apart _ (List.mem_cons_self ..) _ entry hlookup, hmem', hkey⟩
      · exact .inl hnamed
  | notify buffer => simp [ClientImpl.runClosure] at hmem
  | erase id =>
    have herases : erasesOf (.erase id :: rest) = id :: erasesOf rest := rfl
    rw [herases] at haccounts
    obtain ⟨entry, hlookup, habandon, -⟩ := haccounts.erase
    simp [ClientImpl.runClosure, hlookup, habandon] at hmem

theorem ended_step {h : List ClientEvent} {c c' : ClientImpl} (hb : Books h c)
    (he : Entered h c) (hl : Loaded h c) {a : ClientAction} {es : List ClientEvent}
    (hended : c.phase = .ended) (hstep : c.step a = some (c', es)) :
    c'.phase = .ended ∧ ∀ p r, .resolved p r ∈ es →
      r = .brokenPromise ∧ (c'.destroyed = true ∨ Displaced h p) := by
  obtain ⟨-, -, hact⟩ := clientStep_of_step hstep
  cases hact with
  | connected | refused | call | post | send | io => exact ⟨hended, by simp [ClientImpl.takeNumber]⟩
  | strand hstrand =>
    refine ⟨(runClosure_phase _ _).1.trans hended, ?_⟩
    intro p r hmem
    exact ⟨runClosure_broken hmem, .inr (runClosure_displaced hb he hl hstrand hmem)⟩
  | receive hopen hphase => cases hended.symm.trans hphase
  | next hphase => cases hended.symm.trans hphase
  | exhausts hphase => cases hended.symm.trans hphase
  | readError hopen hphase => cases hended.symm.trans hphase
  | destroy hphase =>
    refine ⟨hended, fun p r hmem => ?_⟩
    obtain ⟨q, heq⟩ := abandonAll_broken _ _ _ hmem
    exact ⟨(ClientEvent.resolved.inj heq).2, .inl rfl⟩

theorem connected_step {c c' : ClientImpl} {a : ClientAction} {es : List ClientEvent}
    (hc : c.phase = .reading ∨ c.isConnected = true) (hstep : c.step a = some (c', es)) :
    c'.phase = .reading ∨ c'.isConnected = true := by
  obtain ⟨-, -, hact⟩ := clientStep_of_step hstep
  cases hact with
  | connected hstate => exact .inr rfl
  | refused | call | post | send | exhausts | io | destroy => exact hc
  | strand hstrand =>
    obtain ⟨hphase, hconn, -⟩ := runClosure_phase { c with strand := _ } _
    rw [hphase, hconn]
    exact hc
  | receive hopen hphase => exact .inr hopen
  | readError hopen hphase => exact .inr hopen
  | next hphase =>
    have hconn : c.isConnected = true := hc.resolve_left (by rw [hphase]; nofun)
    exact .inr ((next_connected c).1.trans hconn)

/-- Nothing tells those who wait that the connection is lost: calls are accepted as before, and
neither they nor the calls outstanding get a result.  Only the client's end breaks their promises,
or a number that is entered already. -/
theorem lost_connection {h₀ h : List ClientEvent} {c₀ c : ClientImpl}
    (hrun₀ : Run ClientImpl.step anyAction {} h₀ c₀) (hended : c₀.phase = .ended)
    (hrun : Run ClientImpl.step anyAction c₀ h c) :
    c.phase = .ended ∧ (∀ p r, .resolved p r ∈ h →
        r = .brokenPromise ∧ (c.destroyed = true ∨ Displaced (h₀ ++ h) p)) ∧
      (c.terminated = false → c.destroyed = false → c.exhausted = false →
        ∀ funcName args, (c.step (.call funcName args)).isSome = true) := by
  have hconn : c.phase = .reading ∨ c.isConnected = true :=
    (hrun₀.trans hrun).invariant (I := fun _ c => c.phase = .reading ∨ c.isConnected = true)
      (.inl rfl) fun hc _ hstep => connected_step hc hstep
  have hkept : c.phase = .ended ∧ ∀ p r, .resolved p r ∈ h →
      r = .brokenPromise ∧ (c.destroyed = true ∨ Displaced (h₀ ++ h) p) := by
    clear hconn
    induction hrun with
    | refl => exact ⟨hended, by simp⟩
    | @tail h c c' a es hfront _ hstep ih =>
      obtain ⟨hphase, hbroken⟩ := ih
      have hall := hrun₀.trans hfront
      obtain ⟨he, hl⟩ := Entered.of_run hall
      obtain ⟨hphase', hbroken'⟩ := ended_step (.of_run hall) he hl hphase hstep
      refine ⟨hphase', ?_⟩
      intro p r hmem
      rw [← List.append_assoc]
      rcases List.mem_append.mp hmem with hold | hnew
      · obtain ⟨hr, hgone | hdisplaced⟩ := hbroken p r hold
        · cases (clientStep_of_step hstep).2.1.symm.trans hgone
        · exact ⟨hr, .inr (hdisplaced.mono es)⟩
      · exact (hbroken' p r hnew).imp_right (Or.imp_right (Displaced.mono · es))
  refine ⟨hkept.1, hkept.2, ?_⟩
  intro halive hstay hwell funcName args
  have hopen : c.isConnected = true := hconn.resolve_left (by rw [hkept.1]; nofun)
  rw [ClientImpl.step, if_pos ⟨halive, hstay, hwell⟩, ClientImpl.act, if_pos hopen]
  rfl

/-- A call that is outstanding when the server goes, and one made afterwards. -/
theorem lost_connection_calls :
    (afterAll ClientImpl.step anyAction (reachedBy lostRun) oneCall.tail).1.phase = .ended ∧
      (∀ p r, .resolved p r ∈
          (afterAll ClientImpl.step anyAction (reachedBy lostRun) oneCall.tail).2 →
        r = .brokenPromise ∧
          ((afterAll ClientImpl.step anyAction (reachedBy lostRun) oneCall.tail).1.destroyed =
              true ∨
            Displaced (historyOf lostRun ++
              (afterAll ClientImpl.step anyAction (reachedBy lostRun) oneCall.tail).2) p)) ∧
      ((afterAll ClientImpl.step anyAction (reachedBy lostRun) oneCall.tail).1.terminated = false →
        (afterAll ClientImpl.step anyAction (reachedBy lostRun) oneCall.tail).1.destroyed = false →
        (afterAll ClientImpl.step anyAction (reachedBy lostRun) oneCall.tail).1.exhausted = false →
        ∀ funcName args,
          ((afterAll ClientImpl.step anyAction (reachedBy lostRun) oneCall.tail).1.step
            (.call funcName args)).isSome = true) :=
  lost_connection (Run.of_actions ClientImpl.step anyAction {} lostRun rfl) rfl
    (Run.of_actions ClientImpl.step anyAction _ oneCall.tail rfl)

/-! ## `wait_all_responses` -/

theorem waitAllResponses_iff {s : Store CallResult} {ps : List ℕ} (hnodup : ps.Nodup)
    (hbound : ∀ p ∈ ps, p < s.length) :
    ClientImpl.waitAllResponses s ps = .error .futureAlreadyRetrieved ↔
      ∃ p ∈ ps, isRetrieved s p = true := by
  induction ps generalizing s with
  | nil => simp [ClientImpl.waitAllResponses]
  | cons p ps ih =>
    obtain ⟨hnot, hnodup'⟩ := List.nodup_cons.mp hnodup
    rw [ClientImpl.waitAllResponses]
    cases hret : isRetrieved s p with
    | true =>
      rw [getFuture_of_retrieved hret]
      exact iff_of_true rfl ⟨p, List.mem_cons_self .., hret⟩
    | false =>
      obtain ⟨s', hok, hlen, -, hsame⟩ :=
        getFuture_of_not_retrieved (hbound p (List.mem_cons_self ..)) hret
      have hbound' : ∀ q ∈ ps, q < s'.length := by
        intro q hq
        rw [hlen]
        exact hbound q (List.mem_cons_of_mem _ hq)
      rw [hok]
      dsimp only
      rw [ih hnodup' hbound']
      constructor
      · rintro ⟨q, hq, hq'⟩
        rw [hsame q fun heq => hnot (heq ▸ hq)] at hq'
        exact ⟨q, List.mem_cons_of_mem _ hq, hq'⟩
      · rintro ⟨q, hq, hq'⟩
        rcases List.mem_cons.mp hq with rfl | hq
        · rw [hret] at hq'
          cases hq'
        · exact ⟨q, hq, by rw [hsame q fun heq => hnot (heq ▸ hq)]; exact hq'⟩

theorem waitAllResponses_retrieves {s s' : Store CallResult} {ps : List ℕ} (hnodup : ps.Nodup)
    (hbound : ∀ p ∈ ps, p < s.length) (hok : ClientImpl.waitAllResponses s ps = .ok s') :
    s'.length = s.length ∧ (∀ p ∈ ps, isRetrieved s' p = true) ∧
      ∀ q, isRetrieved s q = true → isRetrieved s' q = true := by
  induction ps generalizing s with
  | nil =>
    cases hok
    exact ⟨rfl, List.forall_mem_nil _, fun _ h => h⟩
  | cons p ps ih =>
    obtain ⟨-, hnodup'⟩ := List.nodup_cons.mp hnodup
    rw [ClientImpl.waitAllResponses] at hok
    cases hret : isRetrieved s p with
    | true =>
      rw [getFuture_of_retrieved hret] at hok
      cases hok
    | false =>
      obtain ⟨t, ht, hlen, hnew, hsame⟩ :=
        getFuture_of_not_retrieved (hbound p (List.mem_cons_self ..)) hret
      rw [ht] at hok
      have hbound' : ∀ q ∈ ps, q < t.length := by
        intro q hq
        rw [hlen]
        exact hbound q (List.mem_cons_of_mem _ hq)
      obtain ⟨hlen', hall, hkept⟩ := ih hnodup' hbound' hok
      refine ⟨hlen'.trans hlen, ?_, ?_⟩
      · intro q hq
        rcases List.mem_cons.mp hq with rfl | hq
        · exact hkept q hnew
        · exact hall q hq
      · intro q hq
        refine hkept q ?_
        rw [hsame q fun heq => by rw [heq, hret] at hq; cases hq]
        exact hq

theorem Accounts.ongoing_nodup {h : List ClientEvent} {calls : List Ticket} {erases : List ℕ}
    {ongoing : AList fun _ : ℕ => OngoingCall} {s : Store CallResult}
    (ha : Accounts h calls erases ongoing s) : (ongoingPromises ongoing).Nodup := by
  apply List.Nodup.map_on _ ongoing.nodupKeys.nodup
  rintro ⟨id, r⟩ hr ⟨id', r'⟩ hr' heq
  have hlook := AList.mem_lookup_iff.mpr hr
  have hlook' := AList.mem_lookup_iff.mpr hr'
  obtain rfl := ha.inj id id' r r' hlook hlook' heq
  obtain rfl := Option.mem_unique hlook hlook'
  rfl

/-- `wait_all_responses` throws instead of waiting whenever a call is entered, in whichever order
the map is walked: the future of every call has been handed out.  Where it does not throw it hands
out those of the entries that no call has made, and throws if it is called again. -/
theorem wait_all_responses {h : List ClientEvent} {c : ClientImpl}
    (hrun : Run ClientImpl.step anyAction {} h c) {ps : List ℕ}
    (hps : ps.Perm (ongoingPromises c.ongoingCalls)) :
    (ClientImpl.waitAllResponses c.promises ps = .error .futureAlreadyRetrieved ↔
      ∃ id r idx args, c.ongoingCalls.lookup id = some r ∧
        .issued r.promise idx r.funcName args ∈ h) ∧
    ∀ promises, ClientImpl.waitAllResponses c.promises ps = .ok promises →
      ∀ qs : List ℕ, qs.Perm (ongoingPromises c.ongoingCalls) → qs ≠ [] →
        ClientImpl.waitAllResponses promises qs = .error .futureAlreadyRetrieved := by
  have ha := (Books.of_run hrun).accounts
  have hbound : ∀ p ∈ ps, p < c.promises.length := by
    intro p hp
    obtain ⟨id, r, hr, rfl⟩ := mem_ongoingPromises.mp (hps.subset hp)
    exact ha.bound id r hr
  have hnodup := hps.nodup_iff.mpr ha.ongoing_nodup
  constructor
  · rw [waitAllResponses_iff hnodup hbound]
    constructor
    · rintro ⟨p, hp, hret⟩
      obtain ⟨id, r, hr, rfl⟩ := mem_ongoingPromises.mp (hps.subset hp)
      obtain ⟨idx, funcName, args, hmem⟩ := (ha.futures _).mp hret
      rcases ha.entries id r hr with ⟨idx', args', -, hmem'⟩ | hother
      · exact ⟨id, r, idx', args', hr, hmem'⟩
      · exact absurd hmem (hother idx funcName args)
    · rintro ⟨id, r, idx, args, hr, hmem⟩
      exact ⟨r.promise, hps.symm.subset (mem_ongoingPromises.mpr ⟨id, r, hr, rfl⟩),
        (ha.futures _).mpr ⟨idx, r.funcName, args, hmem⟩⟩
  · intro promises hok qs hqs hne
    obtain ⟨hlen, hall, -⟩ := waitAllResponses_retrieves hnodup hbound hok
    have hin : ∀ q ∈ qs, q ∈ ps := fun q hq => (hqs.trans hps.symm).subset hq
    rw [waitAllResponses_iff (hqs.nodup_iff.mpr ha.ongoing_nodup)
      fun q hq => hlen ▸ hbound q (hin q hq)]
    obtain ⟨q, hq⟩ := List.exists_mem_of_ne_nil qs hne
    exact ⟨q, hq, hall q (hin q hq)⟩

theorem wait_all_responses_one :
    (ClientImpl.waitAllResponses (reachedBy oneCall).promises [0] =
        .error .futureAlreadyRetrieved ↔
      ∃ id r idx args, (reachedBy oneCall).ongoingCalls.lookup id = some r ∧
        .issued r.promise idx r.funcName args ∈ historyOf oneCall) ∧
    ∀ promises, ClientImpl.waitAllResponses (reachedBy oneCall).promises [0] = .ok promises →
      ∀ qs : List ℕ, qs.Perm (ongoingPromises (reachedBy oneCall).ongoingCalls) → qs ≠ [] →
        ClientImpl.waitAllResponses promises qs = .error .futureAlreadyRetrieved :=
  wait_all_responses (Run.of_actions ClientImpl.step anyAction {} oneCall rfl) (.refl [0])

/-! ## What ends the client -/

theorem runClosure_well (c : ClientImpl) (closure : Closure) :
    (c.runClosure closure).1.exhausted = c.exhausted := by
  have hrun := closureStep c closure
  generalize c.runClosure closure = q at hrun ⊢
  cases hrun <;> rfl

theorem next_well (c : ClientImpl) : c.next.1.exhausted = c.exhausted := by
  have hnext := nextStep c
  generalize c.next = q at hnext ⊢
  cases hnext <;> rfl

/-- What a response has to be for its constructor to call itself. -/
def NestedError (msg : Object) : Prop :=
  ∃ id error result, convertResponse msg = some (id, error, result) ∧ error.nests = true

/-- A client that is exhausted was parsing an array or a map, or a response with a nested error. -/
theorem exhausted_step {h : List ClientEvent} {c c' : ClientImpl} (hb : Books h c)
    {a : ClientAction} {es : List ClientEvent} (hstep : c.step a = some (c', es))
    (hexhausted : c'.exhausted = true) :
    Unpacker.Opens (chunksOf (h ++ es)) (respondedOf (h ++ es)) ∨
      ∃ msg ∈ (Unpacker.readChunks (chunksOf (h ++ es))).1, NestedError msg := by
  have hwell : c.exhausted = false := by
    rw [ClientImpl.step, Option.ite_none_right_eq_some] at hstep
    exact hstep.1.2.2
  obtain ⟨-, -, hact⟩ := clientStep_of_step hstep
  cases hact with
  | connected | refused | call | post | send | receive | readError | io | destroy =>
    cases hwell.symm.trans hexhausted
  | strand hstrand =>
    rw [runClosure_well] at hexhausted
    cases hwell.symm.trans hexhausted
  | next hphase =>
    rw [next_well] at hexhausted
    cases hwell.symm.trans hexhausted
  | exhausts hphase ha =>
    have hintake := hb.intake
    rw [hphase] at hintake
    rw [List.append_nil]
    rcases ha with ⟨-, hopens⟩ | ⟨-, hnested⟩
    · exact .inl ((hintake.holds (by simp)).opens hopens)
    · right
      unfold ClientImpl.nested at hnested
      split at hnested
      · next msg u hnext =>
        obtain ⟨⟨id, error, result⟩, hconv, hnests⟩ := (Option.any_eq_true _ _).mp hnested
        refine ⟨msg, ?_, id, error, result, hconv, hnests⟩
        exact (hintake.object hnext).front.subset (List.mem_append_right _ (List.mem_singleton_self _))
      · cases hnested

/-- Only the peer ends the client's process: by a malformed stream, by a message that is not a
response, by answering one number twice; by an array or a map that there is no memory for, or by an
error whose objects hold objects, deeper than the stack. -/
theorem client_terminates {h : List ClientEvent} {c : ClientImpl}
    (hrun : Run ClientImpl.step anyAction {} h c) :
    (c.terminated = true → (Unpacker.readChunks (chunksOf h)).2 = none ∨
      (∃ msg ∈ (Unpacker.readChunks (chunksOf h)).1, convertResponse msg = none) ∨
      ¬((Unpacker.readChunks (chunksOf h)).1.filterMap fun msg =>
        (convertResponse msg).map Prod.fst).Nodup) ∧
    (c.exhausted = true → Unpacker.Opens (chunksOf h) (respondedOf h) ∨
      ∃ msg ∈ (Unpacker.readChunks (chunksOf h)).1, NestedError msg) := by
  have hb := Books.of_run hrun
  have hfront := hb.intake.front
  refine ⟨?_, ?_⟩
  · intro hterminated
    rcases hb.terminated hterminated with hfail | ⟨msg, hmsg, hconv⟩ | hdup
    · exact .inl hfail
    · exact .inr (.inl ⟨msg, hfront.subset hmsg, hconv⟩)
    · refine .inr (.inr fun hnodup => hdup ?_)
      exact hnodup.sublist (hfront.sublist.filterMap _)
  · intro hexhausted
    cases hrun with
    | refl => cases hexhausted
    | tail hbefore _ hstep => exact exhausted_step (.of_run hbefore) hstep hexhausted

theorem client_terminates_c1 :
    (Unpacker.readChunks (chunksOf [.received [0xc1], .terminated])).2 = none ∨
      (∃ msg ∈ (Unpacker.readChunks (chunksOf [.received [0xc1], .terminated])).1,
        convertResponse msg = none) ∨
      ¬((Unpacker.readChunks (chunksOf [.received [0xc1], .terminated])).1.filterMap fun msg =>
        (convertResponse msg).map Prod.fst).Nodup := by
  have hfail : Unpacker.next ⟨.init, [0xc1]⟩ = .parseError := by
    rw [Unpacker.next, Context.init, execute_c1]
  have hnext : (reachedBy [.connect true, .receive [0xc1]]).step .next =
      some ({ reachedBy [.connect true, .receive [0xc1]] with terminated := true },
        [.terminated]) := by
    have hparse : (reachedBy [.connect true, .receive [0xc1]]).unpacker.next = .parseError := hfail
    have hparsing : (reachedBy [.connect true, .receive [0xc1]]).phase = .parsing := rfl
    rw [ClientImpl.step, if_pos ⟨rfl, rfl, rfl⟩, ClientImpl.act, if_pos hparsing, ClientImpl.next,
      hparse]
  have hrun : Run ClientImpl.step anyAction {} [.received [0xc1]]
      (reachedBy [.connect true, .receive [0xc1]]) :=
    Run.of_actions ClientImpl.step anyAction {} [.connect true, .receive [0xc1]] rfl
  exact (client_terminates (hrun.tail trivial hnext)).1 rfl

/-! ## Requests -/

theorem runClosure_writer (c : ClientImpl) (closure : Closure) :
    ((c.runClosure closure).1.writer = c.writer ∧ wroteOf (c.runClosure closure).2 = []) ∨
      ∃ buffer, (c.runClosure closure).1.writer = c.writer.write buffer ∧
        wroteOf (c.runClosure closure).2 = [.queued buffer] := by
  have hrun := closureStep c closure
  generalize c.runClosure closure = q at hrun ⊢
  cases hrun with
  | queued _ _ buffer hes =>
    have hwrote : wroteOf _ = [] := filterMap_broken hes fun _ => rfl
    refine .inr ⟨buffer, rfl, ?_⟩
    rw [wroteOf_append, hwrote]
    rfl
  | erased _ _ hes => exact .inl ⟨rfl, filterMap_broken hes fun _ => rfl⟩

theorem next_writer (c : ClientImpl) : c.next.1.writer = c.writer ∧ wroteOf c.next.2 = [] := by
  have hnext := nextStep c
  generalize c.next = q at hnext ⊢
  cases hnext <;> exact ⟨rfl, rfl⟩

theorem writer_step {c c' : ClientImpl} {a : ClientAction} {es : List ClientEvent}
    (hstep : c.step a = some (c', es)) :
    (c'.writer = c.writer ∧ wroteOf es = []) ∨
      Run AsyncWriter.step anyAction c.writer (wroteOf es) c'.writer := by
  obtain ⟨-, -, hact⟩ := clientStep_of_step hstep
  cases hact with
  | connected | refused | call | post | send | receive | exhausts | readError =>
    exact .inl ⟨rfl, rfl⟩
  | @strand closure rest hstrand =>
    rcases runClosure_writer { c with strand := rest } closure with hsame | ⟨buffer, hwrite, hwrote⟩
    · exact .inl hsame
    · right
      rw [hwrite, hwrote]
      exact .single (a := .write buffer) trivial rfl
  | next hphase => exact .inl (next_writer c)
  | io hwrite hclose hw =>
    right
    rw [wroteOf_map_writer]
    exact .single trivial hw
  | destroy hphase =>
    exact .inl ⟨rfl, filterMap_broken (abandonAll_broken _ _) fun _ => rfl⟩

theorem writer_run {h : List ClientEvent} {c : ClientImpl}
    (hrun : Run ClientImpl.step anyAction {} h c) :
    Run AsyncWriter.step anyAction {} (wroteOf h) c.writer :=
  hrun.project ClientImpl.writer wroteOf rfl wroteOf_append fun _ hstep => writer_step hstep

/-- Requests reach the socket whole and in the order in which they were posted; a client at rest
whose writes have not failed has sent them all.  After one write has failed no request is sent
any more, and those who call are not told. -/
theorem client_sends {h : List ClientEvent} {c : ClientImpl}
    (hrun : Run ClientImpl.step anyAction {} h c) :
    sentOfWriter (wroteOf h) <+: (requestedOf h).flatten ∧
      (c.destroyed = false → c.strand = [] → c.writer.writing = none →
        .writeFailed ∉ wroteOf h → sentOfWriter (wroteOf h) = (requestedOf h).flatten) ∧
      ∀ before after, h = before ++ .writer .writeFailed :: after →
        sentOfWriter (wroteOf after) = [] := by
  have hb := Books.of_run hrun
  refine ⟨?_, ?_, ?_⟩
  · obtain ⟨rest, hrest⟩ := hb.front
    rw [← hrest, List.flatten_append]
    exact hb.queue.sent_prefix.trans (List.prefix_append _ _)
  · intro hstay hstrand hidle hok
    have horder := hb.order hstay
    rw [hstrand] at horder
    rw [← horder, hb.queue.sent_all hidle hb.exit hok]
    exact congrArg List.flatten (List.append_nil _).symm
  · rintro before after rfl
    have hwrote : wroteOf (before ++ .writer .writeFailed :: after) =
        wroteOf before ++ .writeFailed :: wroteOf after := wroteOf_append _ _
    exact (stalled_of_failed (writer_run hrun) hwrote).sent

/-- A notification is sent before the connection is made, and a call follows. -/
def earlyRun : List ClientAction := [.send [0x66] [], .strand, .failed] ++ oneCall

theorem client_sends_early :
    sentOfWriter (wroteOf (historyOf earlyRun)) <+:
        (requestedOf (historyOf earlyRun)).flatten ∧
      ((reachedBy earlyRun).destroyed = false →
        (reachedBy earlyRun).strand = [] →
        (reachedBy earlyRun).writer.writing = none →
        .writeFailed ∉ wroteOf (historyOf earlyRun) →
        sentOfWriter (wroteOf (historyOf earlyRun)) =
          (requestedOf (historyOf earlyRun)).flatten) ∧
      ∀ before after, historyOf earlyRun =
          before ++ .writer .writeFailed :: after →
        sentOfWriter (wroteOf after) = [] :=
  client_sends (Run.of_actions ClientImpl.step anyAction {} earlyRun rfl)

end PromiseDemo.Rpc
