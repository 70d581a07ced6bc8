import PromiseDemo.Rpc.Client

/-!
# The client's accounts

Every promise that `async_call` has made and nobody has satisfied is in the strand or in
`ongoing_calls_`, under the number of its call.  The accounts hold against any peer: a response
to a number that is not in use makes an entry of its own, which a later call can run into.
-/

namespace PromiseDemo.Rpc

open Transition MsgPack PromiseStore

/-! ## What a history shows -/

/-- The chunks that the read handler has taken up. -/
def chunksOf (h : List ClientEvent) : List Bytes :=
  h.filterMap fun e => match e with
    | .received chunk => some chunk
    | _ => none

/-- The messages that have been taken off the unpacker. -/
def respondedOf (h : List ClientEvent) : List Object :=
  h.filterMap fun e => match e with
    | .responded msg => some msg
    | _ => none

/-- The numbers that responses have named. -/
def respondedIds (h : List ClientEvent) : List ℕ :=
  (respondedOf h).filterMap fun msg => (convertResponse msg).map Prod.fst

/-- What a promise has been satisfied with. -/
def resultsOf (p : ℕ) (h : List ClientEvent) : List CallResult :=
  h.filterMap fun e => match e with
    | .resolved q r => if q = p then some r else none
    | _ => none

@[simp] theorem chunksOf_append (h k : List ClientEvent) :
    chunksOf (h ++ k) = chunksOf h ++ chunksOf k := List.filterMap_append

@[simp] theorem respondedOf_append (h k : List ClientEvent) :
    respondedOf (h ++ k) = respondedOf h ++ respondedOf k := List.filterMap_append

@[simp] theorem respondedIds_append (h k : List ClientEvent) :
    respondedIds (h ++ k) = respondedIds h ++ respondedIds k := by
  simp [respondedIds]

@[simp] theorem resultsOf_append (p : ℕ) (h k : List ClientEvent) :
    resultsOf p (h ++ k) = resultsOf p h ++ resultsOf p k := List.filterMap_append

theorem mem_resultsOf {p : ℕ} {r : CallResult} {h : List ClientEvent} :
    r ∈ resultsOf p h ↔ .resolved p r ∈ h := by
  simp only [resultsOf, List.mem_filterMap]
  constructor
  · rintro ⟨e, he, hr⟩
    cases e with
    | resolved q r' =>
      simp only [Option.ite_none_right_eq_some, Option.some.injEq] at hr
      obtain ⟨rfl, rfl⟩ := hr
      exact he
    | _ => cases hr
  · intro hmem
    exact ⟨_, hmem, by simp⟩

/-- The event bears neither on the promises nor on the calls. -/
def ClientEvent.neutral : ClientEvent → Bool
  | .issued _ _ _ _ | .resolved _ _ => false
  | _ => true

theorem resultsOf_neutral {p : ℕ} {es : List ClientEvent} (hes : ∀ e ∈ es, e.neutral = true) :
    resultsOf p es = [] := by
  rw [resultsOf, List.filterMap_eq_nil_iff]
  intro e he
  cases e with
  | resolved q r => cases hes _ he
  | _ => rfl

/-! ## The accounts -/

/-- The calls that are posted and not entered, the ids whose entries are to be erased, the map
and the shared states, after history `h`. -/
structure Accounts (h : List ClientEvent) (calls : List Ticket) (erases : List ℕ)
    (ongoing : AList fun _ : ℕ => OngoingCall) (s : Store CallResult) : Prop where
  distinct : (calls.map Ticket.promise).Nodup
  apart : ∀ t ∈ calls, ∀ id r, ongoing.lookup id = some r → r.promise ≠ t.promise
  inj : ∀ id id' r r', ongoing.lookup id = some r → ongoing.lookup id' = some r' →
    r.promise = r'.promise → id = id'
  bound : ∀ id r, ongoing.lookup id = some r → r.promise < s.length
  waiting : ∀ p, Waiting s p → (∃ t ∈ calls, t.promise = p) ∨
    ∃ id r, ongoing.lookup id = some r ∧ r.promise = p
  calling : ∀ t ∈ calls, resultOf s t.promise = none ∧
    ∃ args, .issued t.promise t.idx t.funcName args ∈ h
  entries : ∀ id r, ongoing.lookup id = some r →
    (∃ idx args, castUnsigned 4 idx = id ∧ .issued r.promise idx r.funcName args ∈ h) ∨
      ∀ idx funcName args, .issued r.promise idx funcName args ∉ h
  erasing : ∀ id, id ∈ erases ↔
    ∃ r, ongoing.lookup id = some r ∧ resultOf s r.promise ≠ none
  once : erases.Nodup
  answered : ∀ id ∈ erases, id ∈ respondedIds h
  futures : ∀ p, isRetrieved s p = true ↔ ∃ idx funcName args, .issued p idx funcName args ∈ h
  unique : ∀ p idx idx' funcName funcName' args args', .issued p idx funcName args ∈ h →
    .issued p idx' funcName' args' ∈ h → idx = idx' ∧ funcName = funcName' ∧ args = args'
  results : ∀ p, resultsOf p h = (resultOf s p).toList
  reasons : ∀ p r, .resolved p r ∈ h → r = .brokenPromise ∨
    ∃ msg id error result funcName, msg ∈ respondedOf h ∧
      convertResponse msg = some (id, error, result) ∧ r = resultFor funcName error result ∧
      ∀ idx name args, .issued p idx name args ∈ h → castUnsigned 4 idx = id ∧ name = funcName

namespace Accounts

variable {h es : List ClientEvent} {calls : List Ticket} {erases : List ℕ}
  {ongoing : AList fun _ : ℕ => OngoingCall} {s : Store CallResult}

theorem init : Accounts [] [] [] ∅ [] where
  distinct := List.nodup_nil
  apart t ht := by cases ht
  inj id id' r r' hr := by cases hr
  bound id r hr := by cases hr
  waiting p hp := absurd hp.1 (Nat.not_lt_zero _)
  calling t ht := by cases ht
  entries id r hr := by cases hr
  erasing id := by simp
  once := List.nodup_nil
  answered id hid := by cases hid
  futures p := by simp [isRetrieved]
  unique p idx idx' funcName funcName' args args' hmem := by cases hmem
  results p := by simp [resultsOf, resultOf]
  reasons p r hmem := by cases hmem

/-- Events that bear on no promise keep the accounts. -/
theorem neutral (ha : Accounts h calls erases ongoing s) (hes : ∀ e ∈ es, e.neutral = true) :
    Accounts (h ++ es) calls erases ongoing s := by
  have hissued : ∀ p idx funcName args, .issued p idx funcName args ∈ h ++ es ↔
      ClientEvent.issued p idx funcName args ∈ h := by
    intro p idx funcName args
    rw [List.mem_append, or_iff_left]
    intro hmem
    cases hes _ hmem
  have hresolved : ∀ p r, .resolved p r ∈ h ++ es → ClientEvent.resolved p r ∈ h := by
    intro p r hmem
    rcases List.mem_append.mp hmem with hmem | hmem
    · exact hmem
    · cases hes _ hmem
  refine ⟨ha.distinct, ha.apart, ha.inj, ha.bound, ha.waiting, ?_, ?_, ha.erasing, ha.once, ?_, ?_,
    ?_, ?_, ?_⟩
  · simp only [hissued]
    exact ha.calling
  · simp only [hissued]
    exact ha.entries
  · intro id hid
    rw [respondedIds_append]
    exact List.mem_append_left _ (ha.answered id hid)
  · simp only [hissued]
    exact ha.futures
  · simp only [hissued]
    exact ha.unique
  · intro p
    rw [resultsOf_append, resultsOf_neutral hes, List.append_nil, ha.results]
  · simp only [hissued]
    intro p r hmem
    rcases ha.reasons p r (hresolved p r hmem) with hbroken | ⟨msg, id, e, o, n, hmsg, hrest⟩
    · exact .inl hbroken
    · refine .inr ⟨msg, id, e, o, n, ?_, hrest⟩
      rw [respondedOf_append]
      exact List.mem_append_left _ hmsg

theorem calling_bound (ha : Accounts h calls erases ongoing s) {t : Ticket} (ht : t ∈ calls) :
    t.promise < s.length := by
  obtain ⟨-, args, hmem⟩ := ha.calling t ht
  by_contra hle
  have hret := (ha.futures t.promise).mpr ⟨t.idx, t.funcName, args, hmem⟩
  rw [isRetrieved, List.getElem?_eq_none (by omega)] at hret
  cases hret

theorem issued_bound (ha : Accounts h calls erases ongoing s) {p : ℕ} {idx : ℤ}
    {funcName : Bytes} {args : List Object} (hmem : .issued p idx funcName args ∈ h) :
    p < s.length := by
  by_contra hle
  have hret := (ha.futures p).mpr ⟨idx, funcName, args, hmem⟩
  rw [isRetrieved, List.getElem?_eq_none (by omega)] at hret
  cases hret

theorem resolved_result (ha : Accounts h calls erases ongoing s) {p : ℕ} {r : CallResult}
    (hmem : .resolved p r ∈ h) : resultOf s p = some r := by
  have hr := mem_resultsOf.mpr hmem
  rw [ha.results, Option.mem_toList] at hr
  exact hr

theorem issue (ha : Accounts h calls erases ongoing s) (idx : ℤ) (funcName : Bytes)
    (args : List Object) :
    Accounts (h ++ [.issued s.length idx funcName args]) (calls ++ [⟨idx, funcName, s.length⟩])
      erases ongoing (s ++ [{ retrieved := true }]) := by
  have hissued : ∀ {p i n as}, p < s.length →
      (.issued p i n as ∈ h ++ [.issued s.length idx funcName args] ↔ .issued p i n as ∈ h) := by
    intro p i n as hp
    simp only [List.mem_append, List.mem_singleton, ClientEvent.issued.injEq]
    constructor
    · rintro (hmem | ⟨rfl, -⟩)
      · exact hmem
      · omega
    · exact .inl
  have hnew : ∀ {p i n as}, .issued p i n as ∈ h ++ [.issued s.length idx funcName args] →
      .issued p i n as ∈ h ∨ p = s.length ∧ i = idx ∧ n = funcName ∧ as = args := by
    intro p i n as hmem
    simpa using hmem
  refine ⟨?_, ?_, ha.inj, ?_, ?_, ?_, ?_, ?_, ha.once, ?_, ?_, ?_, ?_, ?_⟩
  · rw [List.map_append, List.map_singleton, List.nodup_append]
    refine ⟨ha.distinct, List.nodup_singleton _, ?_⟩
    intro p hp q hq
    obtain ⟨t, ht, rfl⟩ := List.mem_map.mp hp
    rw [List.mem_singleton] at hq
    have hlt := ha.calling_bound ht
    dsimp only at hq
    omega
  · intro t ht id r hr
    rcases List.mem_append.mp ht with ht | ht
    · exact ha.apart t ht id r hr
    · rw [List.mem_singleton.mp ht]
      have hlt := ha.bound id r hr
      dsimp only
      omega
  · intro id r hr
    have hlt := ha.bound id r hr
    rw [List.length_append]
    omega
  · rintro p ⟨hlt, hnone⟩
    rw [resultOf_append_new] at hnone
    rw [List.length_append, List.length_singleton] at hlt
    by_cases hp : p = s.length
    · exact .inl ⟨⟨idx, funcName, s.length⟩, by simp, hp.symm⟩
    · rcases ha.waiting p ⟨by omega, hnone⟩ with ⟨t, ht, htp⟩ | hentry
      · exact .inl ⟨t, List.mem_append_left _ ht, htp⟩
      · exact .inr hentry
  · intro t ht
    rw [resultOf_append_new]
    rcases List.mem_append.mp ht with ht | ht
    · obtain ⟨hnone, as, hmem⟩ := ha.calling t ht
      exact ⟨hnone, as, List.mem_append_left _ hmem⟩
    · rw [List.mem_singleton.mp ht]
      exact ⟨resultOf_of_length_le le_rfl, args, by simp⟩
  · intro id r hr
    have hlt := ha.bound id r hr
    simp only [hissued hlt]
    exact ha.entries id r hr
  · intro id
    simp only [resultOf_append_new]
    exact ha.erasing id
  · intro id hid
    rw [respondedIds_append]
    exact List.mem_append_left _ (ha.answered id hid)
  · intro p
    rw [isRetrieved_append_new]
    split_ifs with hp
    · rw [hp]
      exact iff_of_true rfl ⟨idx, funcName, args, by simp⟩
    · rw [ha.futures]
      constructor
      · rintro ⟨i, n, as, hmem⟩
        exact ⟨i, n, as, List.mem_append_left _ hmem⟩
      · rintro ⟨i, n, as, hmem⟩
        rcases hnew hmem with hold | ⟨rfl, -⟩
        · exact ⟨i, n, as, hold⟩
        · exact absurd rfl hp
  · intro p i i' n n' as as' hmem hmem'
    rcases hnew hmem with hold | ⟨rfl, rfl, rfl, rfl⟩ <;>
      rcases hnew hmem' with hold' | ⟨hp', rfl, rfl, rfl⟩
    · exact ha.unique p i i' n n' as as' hold hold'
    · have := ha.issued_bound hold
      omega
    · have := ha.issued_bound hold'
      omega
    · exact ⟨rfl, rfl, rfl⟩
  · intro p
    rw [resultOf_append_new, resultsOf_append, ha.results]
    simp [resultsOf]
  · intro p r hmem
    have hold : .resolved p r ∈ h := by simpa using hmem
    have hlt := lt_length_of_result (ha.resolved_result hold)
    simp only [hissued hlt]
    rcases ha.reasons p r hold with hbroken | ⟨msg, id, e, o, n, hmsg, hrest⟩
    · exact .inl hbroken
    · refine .inr ⟨msg, id, e, o, n, ?_, hrest⟩
      rw [respondedOf_append]
      exact List.mem_append_left _ hmsg

theorem enter {t : Ticket} (ha : Accounts h (t :: calls) erases ongoing s)
    (hfree : ongoing.lookup (castUnsigned 4 t.idx) = none) :
    Accounts h calls erases
      (ongoing.insert (castUnsigned 4 t.idx) ⟨t.funcName, t.promise⟩) s := by
  obtain ⟨hnone, args, hmem⟩ := ha.calling t (List.mem_cons_self ..)
  have hlook : ∀ {id r}, (ongoing.insert (castUnsigned 4 t.idx) ⟨t.funcName, t.promise⟩).lookup id =
      some r → (id = castUnsigned 4 t.idx ∧ r = ⟨t.funcName, t.promise⟩) ∨
        (id ≠ castUnsigned 4 t.idx ∧ ongoing.lookup id = some r) := by
    intro id r hr
    by_cases hid : id = castUnsigned 4 t.idx
    · subst hid
      rw [AList.lookup_insert] at hr
      exact .inl ⟨rfl, (Option.some.inj hr).symm⟩
    · rw [AList.lookup_insert_ne hid] at hr
      exact .inr ⟨hid, hr⟩
  have hkeep : ∀ {id r}, ongoing.lookup id = some r →
      (ongoing.insert (castUnsigned 4 t.idx) ⟨t.funcName, t.promise⟩).lookup id = some r := by
    intro id r hr
    rw [AList.lookup_insert_ne, hr]
    rintro rfl
    rw [hfree] at hr
    cases hr
  have hapart := ha.apart t (List.mem_cons_self ..)
  refine ⟨(List.nodup_cons.mp ha.distinct).2, ?_, ?_, ?_, ?_, ?_, ?_, ?_, ha.once, ha.answered,
    ha.futures, ha.unique, ha.results, ha.reasons⟩
  · intro u hu id r hr
    rcases hlook hr with ⟨-, rfl⟩ | ⟨-, hr⟩
    · have hnot := (List.nodup_cons.mp ha.distinct).1
      intro heq
      exact hnot (List.mem_map.mpr ⟨u, hu, heq.symm⟩)
    · exact ha.apart u (List.mem_cons_of_mem _ hu) id r hr
  · intro id id' r r' hr hr' heq
    rcases hlook hr with ⟨rfl, rfl⟩ | ⟨-, hr⟩ <;> rcases hlook hr' with ⟨rfl, rfl⟩ | ⟨-, hr'⟩
    · rfl
    · exact absurd heq.symm (hapart _ _ hr')
    · exact absurd heq (hapart _ _ hr)
    · exact ha.inj id id' r r' hr hr' heq
  · intro id r hr
    rcases hlook hr with ⟨-, rfl⟩ | ⟨-, hr⟩
    · exact ha.calling_bound (List.mem_cons_self ..)
    · exact ha.bound id r hr
  · intro p hp
    rcases ha.waiting p hp with ⟨u, hu, rfl⟩ | ⟨id, r, hr, rfl⟩
    · rcases List.mem_cons.mp hu with rfl | hu
      · exact .inr ⟨_, _, AList.lookup_insert _, rfl⟩
      · exact .inl ⟨u, hu, rfl⟩
    · exact .inr ⟨id, r, hkeep hr, rfl⟩
  · intro u hu
    exact ha.calling u (List.mem_cons_of_mem _ hu)
  · intro id r hr
    rcases hlook hr with ⟨rfl, rfl⟩ | ⟨-, hr⟩
    · exact .inl ⟨t.idx, args, rfl, hmem⟩
    · exact ha.entries id r hr
  · intro id
    rw [ha.erasing]
    constructor
    · rintro ⟨r, hr, hsome⟩
      exact ⟨r, hkeep hr, hsome⟩
    · rintro ⟨r, hr, hsome⟩
      rcases hlook hr with ⟨-, rfl⟩ | ⟨-, hr⟩
      · exact absurd hnone hsome
      · exact ⟨r, hr, hsome⟩

theorem satisfied (ha : Accounts h calls erases ongoing s) {p : ℕ} (hw : Waiting s p)
    {r : CallResult} {s' : Store CallResult} (hok : satisfy s p r = .ok s') (msgs : List Object)
    {es : List ClientEvent} (hes : es = msgs.map .responded ++ [.resolved p r]) :
    (∀ q, resultOf s' q = if q = p then some r else resultOf s q) ∧ s'.length = s.length ∧
      (∀ q i n as, .issued q i n as ∈ h ++ es ↔ ClientEvent.issued q i n as ∈ h) ∧
      (∀ q, isRetrieved s' q = true ↔
        ∃ idx funcName args, ClientEvent.issued q idx funcName args ∈ h) ∧
      ∀ q, resultsOf q (h ++ es) = (resultOf s' q).toList := by
  obtain ⟨s₁, hok₁, hlen, hres, -⟩ := satisfy_of_waiting hw r
  obtain rfl : s₁ = s' := Except.ok.inj (hok₁.symm.trans hok)
  refine ⟨hres, hlen, ?_, ?_, ?_⟩
  · intro q i n as
    rw [hes]
    simp
  · intro q
    rw [satisfy_isRetrieved hok]
    exact ha.futures q
  · intro q
    have hnil : resultsOf q (msgs.map .responded) = [] := by
      apply resultsOf_neutral
      intro e he
      obtain ⟨msg, -, rfl⟩ := List.mem_map.mp he
      rfl
    rw [hes, resultsOf_append, resultsOf_append, hnil, List.nil_append, ha.results, hres]
    by_cases hq : q = p
    · subst hq
      simp [resultsOf, hw.2]
    · simp [resultsOf, hq, Ne.symm hq]

theorem drop {t : Ticket} (ha : Accounts h (t :: calls) erases ongoing s) :
    ∃ s', abandon s t.promise = (s', [.resolved t.promise .brokenPromise]) ∧
      Accounts (h ++ [.resolved t.promise .brokenPromise]) calls erases ongoing s' := by
  have hhead := List.mem_cons_self (a := t) (l := calls)
  have hw : Waiting s t.promise := ⟨ha.calling_bound hhead, (ha.calling t hhead).1⟩
  obtain ⟨s', hok, -⟩ := satisfy_of_waiting hw .brokenPromise
  obtain ⟨hres, hlen, hissued, hret, hresults⟩ := ha.satisfied hw hok [] rfl
  refine ⟨s', by rw [abandon, hok], ?_⟩
  have hnot := (List.nodup_cons.mp ha.distinct).1
  refine ⟨(List.nodup_cons.mp ha.distinct).2, ?_, ha.inj, ?_, ?_, ?_, ?_, ?_, ha.once, ?_, ?_, ?_,
    hresults, ?_⟩
  · intro u hu
    exact ha.apart u (List.mem_cons_of_mem _ hu)
  · intro id r hr
    rw [hlen]
    exact ha.bound id r hr
  · rintro p ⟨hlt, hnone⟩
    rw [hres] at hnone
    split_ifs at hnone with hp
    rcases ha.waiting p ⟨hlen ▸ hlt, hnone⟩ with ⟨u, hu, rfl⟩ | hentry
    · rcases List.mem_cons.mp hu with rfl | hu
      · exact absurd rfl hp
      · exact .inl ⟨u, hu, rfl⟩
    · exact .inr hentry
  · intro u hu
    obtain ⟨hnone, args, hmem⟩ := ha.calling u (List.mem_cons_of_mem _ hu)
    rw [hres, if_neg fun heq => hnot (List.mem_map.mpr ⟨u, hu, heq⟩)]
    exact ⟨hnone, args, List.mem_append_left _ hmem⟩
  · intro id r hr
    rcases ha.entries id r hr with ⟨idx, args, hkey, hmem⟩ | hother
    · exact .inl ⟨idx, args, hkey, List.mem_append_left _ hmem⟩
    · refine .inr fun idx funcName args hmem => hother idx funcName args ?_
      exact (hissued _ _ _ _).mp hmem
  · intro id
    rw [ha.erasing]
    constructor
    · rintro ⟨r, hr, hsome⟩
      exact ⟨r, hr, by rwa [hres, if_neg (ha.apart t hhead id r hr)]⟩
    · rintro ⟨r, hr, hsome⟩
      exact ⟨r, hr, by rwa [hres, if_neg (ha.apart t hhead id r hr)] at hsome⟩
  · intro id hid
    rw [respondedIds_append]
    exact List.mem_append_left _ (ha.answered id hid)
  · intro p
    rw [hret]
    simp only [List.mem_append, List.mem_singleton, reduceCtorEq, or_false]
  · intro p i i' n n' as as' hmem hmem'
    exact ha.unique p i i' n n' as as' ((hissued _ _ _ _).mp hmem) ((hissued _ _ _ _).mp hmem')
  · intro p r hmem
    rcases List.mem_append.mp hmem with hold | hnew
    · rcases ha.reasons p r hold with hbroken | ⟨msg, id, e, o, n, hmsg, hconv, hr, hcall⟩
      · exact .inl hbroken
      · refine .inr ⟨msg, id, e, o, n, ?_, hconv, hr, ?_⟩
        · rw [respondedOf_append]
          exact List.mem_append_left _ hmsg
        · intro idx name args hmem'
          exact hcall idx name args ((hissued _ _ _ _).mp hmem')
    · simp only [List.mem_singleton, ClientEvent.resolved.injEq] at hnew
      exact .inl hnew.2

theorem erase {id : ℕ} (ha : Accounts h calls (id :: erases) ongoing s) :
    ∃ r, ongoing.lookup id = some r ∧ abandon s r.promise = (s, []) ∧
      Accounts h calls erases (ongoing.erase id) s := by
  obtain ⟨r, hr, hsome⟩ := (ha.erasing id).mp (List.mem_cons_self ..)
  obtain ⟨o, ho⟩ := Option.ne_none_iff_exists'.mp hsome
  have hlook : ∀ {i q}, (ongoing.erase id).lookup i = some q →
      i ≠ id ∧ ongoing.lookup i = some q := by
    intro i q hq
    have hi : i ≠ id := by
      rintro rfl
      rw [AList.lookup_erase] at hq
      cases hq
    exact ⟨hi, by rwa [AList.lookup_erase_ne hi] at hq⟩
  refine ⟨r, hr, by rw [abandon, satisfy_of_result ho], ?_⟩
  refine ⟨ha.distinct, fun t ht i q hq => ha.apart t ht i q (hlook hq).2,
    fun i i' q q' hq hq' => ha.inj i i' q q' (hlook hq).2 (hlook hq').2,
    fun i q hq => ha.bound i q (hlook hq).2, ?_, ha.calling,
    fun i q hq => ha.entries i q (hlook hq).2, ?_, (List.nodup_cons.mp ha.once).2,
    fun i hi => ha.answered i (List.mem_cons_of_mem _ hi), ha.futures, ha.unique, ha.results,
    ha.reasons⟩
  · intro p hp
    rcases ha.waiting p hp with hcall | ⟨i, q, hq, rfl⟩
    · exact .inl hcall
    · have hi : i ≠ id := by
        rintro rfl
        rw [hr] at hq
        obtain rfl := Option.some.inj hq
        exact hsome hp.2
      exact .inr ⟨i, q, (AList.lookup_erase_ne hi).trans hq, rfl⟩
  · intro i
    have hnot := (List.nodup_cons.mp ha.once).1
    constructor
    · intro hi
      obtain ⟨q, hq, hsat⟩ := (ha.erasing i).mp (List.mem_cons_of_mem _ hi)
      refine ⟨q, ?_, hsat⟩
      rw [AList.lookup_erase_ne, hq]
      rintro rfl
      exact hnot hi
    · rintro ⟨q, hq, hsat⟩
      obtain ⟨hi, hq⟩ := hlook hq
      exact (List.mem_cons.mp ((ha.erasing i).mpr ⟨q, hq, hsat⟩)).resolve_left hi

theorem makeEntry {id : ℕ} (ha : Accounts h calls erases ongoing s)
    (hfree : ongoing.lookup id = none) :
    Accounts h calls erases (ongoing.insert id { promise := s.length }) (create s) := by
  have hcreate : create s = s ++ [{ retrieved := false }] := rfl
  have hlook : ∀ {i q}, (ongoing.insert id { promise := s.length }).lookup i = some q →
      (i = id ∧ q = { promise := s.length }) ∨ (i ≠ id ∧ ongoing.lookup i = some q) := by
    intro i q hq
    by_cases hi : i = id
    · subst hi
      rw [AList.lookup_insert] at hq
      exact .inl ⟨rfl, (Option.some.inj hq).symm⟩
    · rw [AList.lookup_insert_ne hi] at hq
      exact .inr ⟨hi, hq⟩
  have hkeep : ∀ {i q}, ongoing.lookup i = some q →
      (ongoing.insert id { promise := s.length }).lookup i = some q := by
    intro i q hq
    rw [AList.lookup_insert_ne, hq]
    rintro rfl
    rw [hfree] at hq
    cases hq
  rw [hcreate]
  refine ⟨ha.distinct, ?_, ?_, ?_, ?_, ?_, ?_, ?_, ha.once, ha.answered, ?_, ha.unique, ?_,
    ha.reasons⟩
  · intro t ht i q hq
    rcases hlook hq with ⟨-, rfl⟩ | ⟨-, hq⟩
    · have hlt := ha.calling_bound ht
      dsimp only
      omega
    · exact ha.apart t ht i q hq
  · intro i i' q q' hq hq' heq
    rcases hlook hq with ⟨rfl, rfl⟩ | ⟨-, hold⟩ <;>
      rcases hlook hq' with ⟨rfl, rfl⟩ | ⟨-, hold'⟩
    · rfl
    · have hlt := ha.bound _ _ hold'
      dsimp only at heq
      omega
    · have hlt := ha.bound _ _ hold
      dsimp only at heq
      omega
    · exact ha.inj i i' q q' hold hold' heq
  · intro i q hq
    rw [List.length_append, List.length_singleton]
    rcases hlook hq with ⟨-, rfl⟩ | ⟨-, hq⟩
    · exact Nat.lt_succ_self _
    · exact (ha.bound i q hq).trans (Nat.lt_succ_self _)
  · rintro p ⟨hlt, hnone⟩
    rw [resultOf_append_new] at hnone
    rw [List.length_append, List.length_singleton] at hlt
    by_cases hp : p = s.length
    · exact .inr ⟨id, _, AList.lookup_insert _, hp.symm⟩
    · rcases ha.waiting p ⟨by omega, hnone⟩ with hcall | ⟨i, q, hq, rfl⟩
      · exact .inl hcall
      · exact .inr ⟨i, q, hkeep hq, rfl⟩
  · intro t ht
    rw [resultOf_append_new]
    exact ha.calling t ht
  · intro i q hq
    rcases hlook hq with ⟨-, rfl⟩ | ⟨-, hq⟩
    · right
      intro idx funcName args hmem
      exact absurd (ha.issued_bound hmem) (lt_irrefl _)
    · exact ha.entries i q hq
  · intro i
    simp only [resultOf_append_new]
    rw [ha.erasing]
    constructor
    · rintro ⟨q, hq, hsat⟩
      exact ⟨q, hkeep hq, hsat⟩
    · rintro ⟨q, hq, hsat⟩
      rcases hlook hq with ⟨-, rfl⟩ | ⟨-, hq⟩
      · exact absurd (resultOf_of_length_le le_rfl) hsat
      · exact ⟨q, hq, hsat⟩
  · intro p
    rw [isRetrieved_append_new]
    split_ifs with hp
    · rw [hp]
      refine iff_of_false (by simp) ?_
      rintro ⟨idx, funcName, args, hmem⟩
      exact absurd (ha.issued_bound hmem) (lt_irrefl _)
    · exact ha.futures p
  · intro p
    rw [resultOf_append_new]
    exact ha.results p

theorem answer {id : ℕ} {call : OngoingCall} {msg error result : Object}
    (ha : Accounts h calls erases ongoing s) (hcall : ongoing.lookup id = some call)
    (hnone : resultOf s call.promise = none)
    (hconv : convertResponse msg = some (id, error, result)) :
    ∃ s', satisfy s call.promise (resultFor call.funcName error result) = .ok s' ∧
      Accounts
        (h ++ [.responded msg, .resolved call.promise (resultFor call.funcName error result)])
        calls (erases ++ [id]) ongoing s' := by
  set r := resultFor call.funcName error result with hr
  have hw : Waiting s call.promise := ⟨ha.bound id call hcall, hnone⟩
  obtain ⟨s', hok, -⟩ := satisfy_of_waiting hw r
  obtain ⟨hres, hlen, -, hret, hresults⟩ := ha.satisfied hw hok [msg] rfl
  have hissued : ∀ q i n as, .issued q i n as ∈ h ++ [.responded msg, .resolved call.promise r] ↔
      ClientEvent.issued q i n as ∈ h := by
    intro q i n as
    simp
  have hids : respondedIds [.responded msg, .resolved call.promise r] = [id] := by
    simp [respondedIds, respondedOf, hconv]
  have hfresh : id ∉ erases := by
    intro hid
    obtain ⟨q, hq, hsat⟩ := (ha.erasing id).mp hid
    obtain rfl := Option.some.inj (hcall.symm.trans hq)
    exact hsat hnone
  refine ⟨s', hok, ?_⟩
  refine ⟨ha.distinct, ha.apart, ha.inj, ?_, ?_, ?_, ?_, ?_, ?_, ?_, ?_, ?_, hresults, ?_⟩
  · intro i q hq
    rw [hlen]
    exact ha.bound i q hq
  · rintro p ⟨hlt, hp⟩
    rw [hres] at hp
    split_ifs at hp
    exact ha.waiting p ⟨hlen ▸ hlt, hp⟩
  · intro t ht
    obtain ⟨hwait, args, hmem⟩ := ha.calling t ht
    rw [hres, if_neg (ha.apart t ht id call hcall).symm]
    exact ⟨hwait, args, List.mem_append_left _ hmem⟩
  · intro i q hq
    rcases ha.entries i q hq with ⟨idx, args, hkey, hmem⟩ | hother
    · exact .inl ⟨idx, args, hkey, List.mem_append_left _ hmem⟩
    · exact .inr fun idx funcName args hmem =>
        hother idx funcName args ((hissued _ _ _ _).mp hmem)
  · intro i
    rw [List.mem_append, List.mem_singleton, ha.erasing]
    constructor
    · rintro (⟨q, hq, hsat⟩ | rfl)
      · refine ⟨q, hq, ?_⟩
        rw [hres]
        split_ifs
        · nofun
        · exact hsat
      · exact ⟨call, hcall, by rw [hres, if_pos rfl]; nofun⟩
    · rintro ⟨q, hq, hsat⟩
      rw [hres] at hsat
      split_ifs at hsat with hp
      · exact .inr (ha.inj i id q call hq hcall hp)
      · exact .inl ⟨q, hq, hsat⟩
  · rw [List.nodup_append]
    refine ⟨ha.once, List.nodup_singleton _, ?_⟩
    intro i hi j hj heq
    rw [List.mem_singleton] at hj
    exact hfresh (hj ▸ heq ▸ hi)
  · intro i hi
    rw [respondedIds_append, hids]
    rcases List.mem_append.mp hi with hi | hi
    · exact List.mem_append_left _ (ha.answered i hi)
    · exact List.mem_append_right _ hi
  · intro p
    rw [hret]
    simp only [hissued]
  · intro p i i' n n' as as' hmem hmem'
    exact ha.unique p i i' n n' as as' ((hissued _ _ _ _).mp hmem) ((hissued _ _ _ _).mp hmem')
  · intro p r' hmem
    simp only [hissued]
    rw [respondedOf_append]
    rcases List.mem_append.mp hmem with hold | hnew
    · rcases ha.reasons p r' hold with hbroken | ⟨m, i, e, o, n, hm, hrest⟩
      · exact .inl hbroken
      · exact .inr ⟨m, i, e, o, n, List.mem_append_left _ hm, hrest⟩
    · have heq : p = call.promise ∧ r' = r := by simpa using hnew
      obtain ⟨rfl, rfl⟩ := heq
      refine .inr ⟨msg, id, error, result, call.funcName, ?_, hconv, hr, ?_⟩
      · simp [respondedOf]
      · intro idx name args hmem'
        rcases ha.entries id call hcall with ⟨idx', args', hkey, hmem''⟩ | hother
        · obtain ⟨rfl, rfl, -⟩ := ha.unique _ _ _ _ _ _ _ hmem' hmem''
          exact ⟨hkey, rfl⟩
        · exact absurd hmem' (hother idx name args)

theorem repeated (ha : Accounts h calls erases ongoing s) {id : ℕ} {call : OngoingCall}
    (hcall : ongoing.lookup id = some call) (hsat : resultOf s call.promise ≠ none) :
    id ∈ respondedIds h := ha.answered id ((ha.erasing id).mpr ⟨call, hcall, hsat⟩)

theorem located (ha : Accounts h calls erases ongoing s) {p : ℕ} {idx : ℤ} {funcName : Bytes}
    {args : List Object} (hmem : .issued p idx funcName args ∈ h) (hnone : resultOf s p = none) :
    ⟨idx, funcName, p⟩ ∈ calls ∨ ongoing.lookup (castUnsigned 4 idx) = some ⟨funcName, p⟩ := by
  rcases ha.waiting p ⟨ha.issued_bound hmem, hnone⟩ with ⟨t, ht, rfl⟩ | ⟨id, r, hr, rfl⟩
  · obtain ⟨-, args', hmem'⟩ := ha.calling t ht
    obtain ⟨rfl, rfl, -⟩ := ha.unique _ _ _ _ _ _ _ hmem hmem'
    exact .inl ht
  · rcases ha.entries id r hr with ⟨idx', args', hkey, hmem'⟩ | hother
    · obtain ⟨rfl, rfl, -⟩ := ha.unique _ _ _ _ _ _ _ hmem hmem'
      right
      rw [hkey, hr]
    · exact absurd hmem (hother _ _ _)

end Accounts

/-! ## The end of a client -/

section Abandon

variable {h : List ClientEvent} {s : Store CallResult}

theorem abandon_spec {p : ℕ} (hp : p < s.length)
    (hresults : ∀ q, resultsOf q h = (resultOf s q).toList) :
    (abandon s p).1.length = s.length ∧
      (∀ q, isRetrieved (abandon s p).1 q = isRetrieved s q) ∧
      (∀ q, resultOf (abandon s p).1 q =
        if q = p then (resultOf s q).or (some .brokenPromise) else resultOf s q) ∧
      ∀ q, resultsOf q (h ++ (abandon s p).2) = (resultOf (abandon s p).1 q).toList := by
  cases hres : resultOf s p with
  | none =>
    obtain ⟨s', hok, hlen, hres', -⟩ := satisfy_of_waiting ⟨hp, hres⟩ CallResult.brokenPromise
    have habandon : abandon s p = (s', [.resolved p .brokenPromise]) := by rw [abandon, hok]
    rw [habandon]
    refine ⟨hlen, satisfy_isRetrieved hok, ?_, ?_⟩
    · intro q
      rw [hres']
      by_cases hq : q = p
      · simp [hq, hres]
      · simp [hq]
    · intro q
      rw [resultsOf_append, hresults, hres']
      by_cases hq : q = p
      · subst hq
        simp [resultsOf, hres]
      · simp [resultsOf, hq, Ne.symm hq]
  | some o =>
    have habandon : abandon s p = (s, []) := by rw [abandon, satisfy_of_result hres]
    rw [habandon]
    refine ⟨rfl, fun _ => rfl, ?_, ?_⟩
    · intro q
      by_cases hq : q = p
      · simp [hq, hres]
      · simp [hq]
    · intro q
      rw [List.append_nil]
      exact hresults q

theorem abandonAll_spec {ps : List ℕ} (hps : ∀ p ∈ ps, p < s.length)
    (hresults : ∀ q, resultsOf q h = (resultOf s q).toList) :
    (abandonAll s ps).1.length = s.length ∧
      (∀ q, isRetrieved (abandonAll s ps).1 q = isRetrieved s q) ∧
      (∀ q, resultOf (abandonAll s ps).1 q =
        if q ∈ ps then (resultOf s q).or (some .brokenPromise) else resultOf s q) ∧
      ∀ q, resultsOf q (h ++ (abandonAll s ps).2) = (resultOf (abandonAll s ps).1 q).toList := by
  induction ps generalizing h s with
  | nil =>
    refine ⟨rfl, fun _ => rfl, fun _ => by simp [abandonAll], ?_⟩
    simpa [abandonAll] using hresults
  | cons p ps ih =>
    obtain ⟨hlen, hret, hres, hout⟩ := abandon_spec (hps p (List.mem_cons_self ..)) hresults
    have hps' : ∀ q ∈ ps, q < (abandon s p).1.length := by
      intro q hq
      rw [hlen]
      exact hps q (List.mem_cons_of_mem _ hq)
    obtain ⟨hlen', hret', hres', hout'⟩ := ih hps' hout
    refine ⟨hlen'.trans hlen, ?_, ?_, ?_⟩
    · intro q
      rw [abandonAll, hret', hret]
    · intro q
      rw [abandonAll, hres', hres]
      by_cases hq : q = p
      · subst hq
        by_cases hmem : q ∈ ps
        · cases resultOf s q <;> simp [hmem]
        · simp [hmem]
      · simp [hq]
    · intro q
      rw [abandonAll, ← List.append_assoc]
      exact hout' q

end Abandon

theorem mem_ongoingPromises {m : AList fun _ : ℕ => OngoingCall} {p : ℕ} :
    p ∈ ongoingPromises m ↔ ∃ id r, m.lookup id = some r ∧ r.promise = p := by
  simp only [ongoingPromises, List.mem_map]
  constructor
  · rintro ⟨⟨id, r⟩, hmem, rfl⟩
    exact ⟨id, r, AList.mem_lookup_iff.mpr hmem, rfl⟩
  · rintro ⟨id, r, hr, rfl⟩
    exact ⟨⟨id, r⟩, AList.mem_lookup_iff.mp hr, rfl⟩

namespace Accounts

variable {h : List ClientEvent} {calls : List Ticket} {erases : List ℕ}
  {ongoing : AList fun _ : ℕ => OngoingCall} {s : Store CallResult}

theorem destroy (ha : Accounts h calls erases ongoing s) :
    Accounts (h ++ (abandonAll s (calls.map Ticket.promise ++ ongoingPromises ongoing)).2) [] [] ∅
      (abandonAll s (calls.map Ticket.promise ++ ongoingPromises ongoing)).1 := by
  set ps := calls.map Ticket.promise ++ ongoingPromises ongoing with hps
  have hmem : ∀ p, p ∈ ps ↔ (∃ t ∈ calls, t.promise = p) ∨
      ∃ id r, ongoing.lookup id = some r ∧ r.promise = p := by
    intro p
    rw [hps, List.mem_append, List.mem_map, mem_ongoingPromises]
  have hlt : ∀ p ∈ ps, p < s.length := by
    intro p hp
    rcases (hmem p).mp hp with ⟨t, ht, rfl⟩ | ⟨id, r, hr, rfl⟩
    · exact ha.calling_bound ht
    · exact ha.bound id r hr
  obtain ⟨hlen, hret, hres, hout⟩ := abandonAll_spec hlt ha.results
  have hissued : ∀ p i n as, .issued p i n as ∈ h ++ (abandonAll s ps).2 ↔
      ClientEvent.issued p i n as ∈ h := by
    intro p i n as
    rw [List.mem_append, or_iff_left]
    intro hnew
    obtain ⟨q, hq⟩ := abandonAll_broken _ _ _ hnew
    cases hq
  have hsettled : ∀ p, p ∈ ps → resultOf (abandonAll s ps).1 p ≠ none := by
    intro p hp
    rw [hres, if_pos hp]
    cases resultOf s p <;> nofun
  refine ⟨List.nodup_nil, by simp, by simp, by simp, ?_, by simp, by simp, by simp,
    List.nodup_nil, by simp, ?_, ?_, hout, ?_⟩
  · rintro p ⟨hbound, hnone⟩
    by_cases hp : p ∈ ps
    · exact absurd hnone (hsettled p hp)
    · rw [hres, if_neg hp] at hnone
      exact absurd ((hmem p).mpr (ha.waiting p ⟨hlen ▸ hbound, hnone⟩)) hp
  · intro p
    rw [hret]
    simp only [hissued]
    exact ha.futures p
  · intro p i i' n n' as as' hm hm'
    exact ha.unique p i i' n n' as as' ((hissued _ _ _ _).mp hm) ((hissued _ _ _ _).mp hm')
  · intro p r hm
    simp only [hissued]
    rw [respondedOf_append]
    rcases List.mem_append.mp hm with hold | hnew
    · rcases ha.reasons p r hold with hbroken | ⟨m, i, e, o, n, hmsg, hrest⟩
      · exact .inl hbroken
      · exact .inr ⟨m, i, e, o, n, List.mem_append_left _ hmsg, hrest⟩
    · obtain ⟨q, hq⟩ := abandonAll_broken _ _ _ hnew
      exact .inl (ClientEvent.resolved.inj hq).2

end Accounts

end PromiseDemo.Rpc
