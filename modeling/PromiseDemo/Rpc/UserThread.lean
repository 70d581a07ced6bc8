import PromiseDemo.Framework.FutureProgram
import PromiseDemo.Rpc.Completion

/-!
# A thread that uses the client

A program that calls functions, keeps the futures and fetches the results, while the I/O thread,
the server and the connection do their part.
-/

namespace PromiseDemo.Rpc

open Transition MsgPack PromiseStore Duplex FutureProgram

/-! ## Results -/

/-- A function's name and its arguments. -/
abbrev UserCall := Bytes × List Object

/-- What a call of the server's function comes to, if the server replies. -/
def Config.outcome (cfg : Config) (c : UserCall) : Option CallResult :=
  (cfg.replyTo (callObject 1 c.1 c.2)).map (Response.outcomeFor · c.1)

/-- A response under another number. -/
def Response.under (r : Response) (id : ℕ) : Response := { r with id }

theorem dispatchCall_under {msg msg' : Object} {call : Call} {id : ℕ} (overlay : Object → ℕ)
    (funcs : Funcs) (suppressExceptions : Bool) (hcall : convertCall msg = some call)
    (hcall' : convertCall msg' = some { call with id }) :
    dispatchCall overlay funcs suppressExceptions msg' =
      { dispatchCall overlay funcs suppressExceptions msg with
        response := (dispatchCall overlay funcs suppressExceptions msg).response.map
          (Response.under · id) } := by
  unfold dispatchCall
  rw [hcall, hcall']
  dsimp only
  cases find funcs call.name with
  | none => rfl
  | some func =>
    dsimp only
    cases (func call.args).result with
    | ok o => rfl
    | error t => cases t <;> cases suppressExceptions <;> rfl

theorem capture_under (resp : Response) (handler : ThisHandler) (id : ℕ) :
    (resp.under id).capture handler = (resp.capture handler).map (Response.under · id) := by
  unfold Response.capture
  cases handler.captured with
  | none => rfl
  | some slot =>
    cases slot with
    | error =>
      dsimp only
      rw [Response.captureError, Response.captureError, Response.under]
      cases resp.error <;> rfl
    | resp => rfl

theorem outcome_eq (cfg : Config) {idx : ℤ} (hpos : 0 ≤ idx) (hlt : idx < 2 ^ 31)
    (funcName : Bytes) (args : List Object) :
    (cfg.replyTo (callObject idx funcName args)).map (Response.outcomeFor · funcName) =
      cfg.outcome (funcName, args) := by
  have hone := convertCall_callObject (by decide : (0 : ℤ) ≤ 1) (by decide) funcName args
  have hcall := convertCall_callObject hpos hlt funcName args
  have hsize : ∀ idx, viaArraySize cfg.overlay (callObject idx funcName args) = 4 := fun _ => rfl
  have hdispatch := dispatchCall_under cfg.overlay cfg.funcs cfg.suppressExceptions hone hcall
  unfold Config.outcome Config.replyTo Config.serve dispatch
  rw [hsize, hsize, if_neg (by decide), if_pos rfl, if_neg (by decide), if_pos rfl, hdispatch]
  generalize dispatchCall cfg.overlay cfg.funcs cfg.suppressExceptions
    (callObject 1 funcName args) = d
  obtain ⟨response, run⟩ := d
  cases response with
  | none => rfl
  | some resp =>
    simp only [Option.map_some, FuncRun.finish, capture_under]
    split_ifs
    · rfl
    · cases resp.capture (run.getD { result := .ok .nil }).handler with
      | none => rfl
      | some r =>
        dsimp only [Option.map_some, Response.under]
        cases r.isEmpty <;> rfl

/-! ## Steps -/

abbrev UserProgram (ω : Type) := Program UserCall CallResult ω

/-- Where the thread is: before a statement, in `async_call` after the call has its number, in
`wait_any` before it looks at its `i`-th future, or out of its program by the exception of
`wait_conn`. -/
inductive UserThread (ω : Type)
  | running (t : UserProgram ω)
  | posting (c : UserCall) (rest : ℕ → UserProgram ω)
  | polling (ps : List ℕ) (i : ℕ) (rest : ℕ → UserProgram ω)
  | refused

/-- A thread, the conversation that it uses, the futures whose results it has fetched, and what
it has printed. -/
structure UserSystem (ω : Type) where
  conversation : Conversation
  thread : UserThread ω
  taken : List ℕ := []
  printed : List ω := []

/-- A step of the thread, or one that the thread has no part in. -/
inductive UserAction
  | user
  | other (a : ConversationAction)

/-- What only a thread that uses the client does. -/
def ClientAction.byUser : ClientAction → Bool
  | .call _ _ | .post _ | .send _ _ | .destroy => true
  | .connect _ | .strand | .receive _ | .next | .noMemory | .overflow | .readError _
  | .transfer _ | .written | .failed => false

/-- What only the task of another session does. -/
def ServerSessionAction.byOthers : ServerSessionAction → Bool
  | .reuse _ _ => true
  | _ => false

/-- What takes no part of the thread, on a server that has no other client. -/
def otherAction : ConversationAction → Bool :=
  Sum.elim (fun a => !a.byUser) fun a => !a.byOthers

namespace UserSystem

variable {ω : Type}

def start (forthCap backCap : Option ℕ) (t : UserProgram ω) : UserSystem ω :=
  { conversation := .start forthCap backCap, thread := .running t }

/-- `valid`, and `wait_for` without the waiting. -/
def ready (s : UserSystem ω) (p : ℕ) : Bool :=
  p ∉ s.taken && (resultOf s.conversation.left.promises p).isSome

/-- The thread's next step.  It waits in `wait_conn` and in `get`, and goes round in the loops of
`wait_any`. -/
def user (cfg : Config) (s : UserSystem ω) : Option (UserSystem ω × List ConversationEvent) :=
  match s.thread with
  | .running .done => none
  | .running (.print line rest) =>
      some ({ s with thread := .running rest, printed := s.printed ++ [line] }, [])
  | .running (.call c rest) =>
      if s.conversation.left.isConnected = false ∧ s.conversation.left.connectionEc = true then
        some ({ s with thread := .refused }, [])
      else
        (Conversation.step cfg s.conversation (.inl (.call c.1 c.2))).map fun q =>
          ({ s with conversation := q.1, thread := .posting c rest }, q.2)
  | .posting _ rest =>
      (Conversation.step cfg s.conversation (.inl (.post 0))).map fun q =>
        ({ s with
            conversation := q.1
            thread := .running (rest s.conversation.left.promises.length) }, q.2)
  | .running (.get p rest) =>
      if p ∈ s.taken then none
      else (resultOf s.conversation.left.promises p).map fun r =>
        ({ s with thread := .running (rest r), taken := p :: s.taken }, [])
  | .running (.waitAny ps rest) => some ({ s with thread := .polling ps 0 rest }, [])
  | .polling ps i rest =>
      match ps[i]? with
      | none => some ({ s with thread := .polling ps 0 rest }, [])
      | some p =>
          if s.ready p then some ({ s with thread := .running (rest i) }, [])
          else some ({ s with thread := .polling ps (i + 1) rest }, [])
  | .refused => none

def step (cfg : Config) : StepFn (UserSystem ω) UserAction ConversationEvent
  | s, .user => s.user cfg
  | s, .other a =>
      if otherAction a then
        (Conversation.step cfg s.conversation a).map fun q =>
          ({ s with conversation := q.1 }, q.2)
      else none

end UserSystem

/-- What a step of the thread can do. -/
inductive UserStep {ω : Type} (cfg : Config) (s : UserSystem ω) :
    UserSystem ω → List ConversationEvent → Prop
  | print {line : ω} {rest : UserProgram ω} (hthread : s.thread = .running (.print line rest)) :
      UserStep cfg s { s with thread := .running rest, printed := s.printed ++ [line] } []
  | refused {c : UserCall} {rest : ℕ → UserProgram ω}
      (hthread : s.thread = .running (.call c rest))
      (hno : s.conversation.left.connectionEc = true) :
      UserStep cfg s { s with thread := .refused } []
  | call {c : UserCall} {rest : ℕ → UserProgram ω} {q : Conversation}
      {es : List ConversationEvent} (hthread : s.thread = .running (.call c rest))
      (hq : Conversation.step cfg s.conversation (.inl (.call c.1 c.2)) = some (q, es)) :
      UserStep cfg s { s with conversation := q, thread := .posting c rest } es
  | post {c : UserCall} {rest : ℕ → UserProgram ω} {q : Conversation}
      {es : List ConversationEvent} (hthread : s.thread = .posting c rest)
      (hq : Conversation.step cfg s.conversation (.inl (.post 0)) = some (q, es)) :
      UserStep cfg s
        { s with
          conversation := q
          thread := .running (rest s.conversation.left.promises.length) } es
  | get {p : ℕ} {rest : CallResult → UserProgram ω} {r : CallResult}
      (hthread : s.thread = .running (.get p rest))
      (hr : resultOf s.conversation.left.promises p = some r) :
      UserStep cfg s { s with thread := .running (rest r), taken := p :: s.taken } []
  | wait {ps : List ℕ} {rest : ℕ → UserProgram ω}
      (hthread : s.thread = .running (.waitAny ps rest)) :
      UserStep cfg s { s with thread := .polling ps 0 rest } []
  | poll {ps : List ℕ} {i : ℕ} {rest : ℕ → UserProgram ω} (j : ℕ)
      (hthread : s.thread = .polling ps i rest) :
      UserStep cfg s { s with thread := .polling ps j rest } []
  | found {ps : List ℕ} {i : ℕ} {rest : ℕ → UserProgram ω}
      (hthread : s.thread = .polling ps i rest) (hi : i < ps.length) :
      UserStep cfg s { s with thread := .running (rest i) } []

theorem userStep_of_user {ω : Type} {cfg : Config} {s s' : UserSystem ω}
    {es : List ConversationEvent} (hstep : s.user cfg = some (s', es)) : UserStep cfg s s' es := by
  rw [UserSystem.user] at hstep
  split at hstep
  · cases hstep
  · next line rest hthread =>
    cases hstep
    exact .print hthread
  · next c rest hthread =>
    split_ifs at hstep with hno
    · cases hstep
      exact .refused hthread hno.2
    · obtain ⟨⟨q, es'⟩, hq, heq⟩ := Option.map_eq_some_iff.mp hstep
      cases heq
      exact .call hthread hq
  · next c rest hthread =>
    obtain ⟨⟨q, es'⟩, hq, heq⟩ := Option.map_eq_some_iff.mp hstep
    cases heq
    exact .post hthread hq
  · next p rest hthread =>
    rw [Option.ite_none_left_eq_some, Option.map_eq_some_iff] at hstep
    obtain ⟨-, r, hr, heq⟩ := hstep
    cases heq
    exact .get hthread hr
  · next ps rest hthread =>
    cases hstep
    exact .wait hthread
  · next ps i rest hthread =>
    split at hstep
    · cases hstep
      exact .poll 0 hthread
    · next p hp =>
      split_ifs at hstep
      · cases hstep
        exact .found hthread (List.getElem?_eq_some_iff.mp hp).1
      · cases hstep
        exact .poll (i + 1) hthread
  · cases hstep

theorem UserSystem.conversation_run {ω : Type} {cfg : Config} {s t : UserSystem ω}
    {h : List ConversationEvent} (hrun : Run (UserSystem.step cfg) anyAction s h t) :
    Run (Conversation.step cfg) anyAction s.conversation h t.conversation := by
  refine hrun.project UserSystem.conversation id rfl (fun _ _ => rfl) ?_
  intro t u a es _ hstep
  cases a with
  | other a =>
    rw [UserSystem.step, Option.ite_none_right_eq_some, Option.map_eq_some_iff] at hstep
    obtain ⟨-, q, hq, heq⟩ := hstep
    cases heq
    exact .inr (.single trivial hq)
  | user =>
    cases userStep_of_user hstep with
    | call hthread hq => exact .inr (.single trivial hq)
    | post hthread hq => exact .inr (.single trivial hq)
    | print | refused | get | wait | poll | found => exact .inl ⟨rfl, rfl⟩

/-! ## What the conversation does for the thread -/

section Actions

variable {cfg : Config} {p q : Conversation} {es : List ConversationEvent}

theorem other_step {a : ConversationAction} (ha : otherAction a = true)
    (hstep : Conversation.step cfg p a = some (q, es)) :
    (q.left.numbered = p.left.numbered ∧ q.left.destroyed = p.left.destroyed) ∧
      ∀ e ∈ lefts es, e.byUser = false := by
  cases a with
  | inr a =>
    obtain ⟨s, rs, -, -, -, rfl, hq⟩ := step_inr.mp hstep
    rw [hq, lefts_map_inr]
    exact ⟨⟨rfl, rfl⟩, nofun⟩
  | inl a =>
    obtain ⟨c, ls, hleft, -, -, rfl, hq⟩ := step_inl.mp hstep
    rw [hq, lefts_map_inl]
    obtain ⟨-, -, hact⟩ := clientStep_of_step hleft
    cases hact with
    | connected | refused | exhausts | readError => exact ⟨⟨rfl, rfl⟩, nofun⟩
    | receive | io => exact ⟨⟨rfl, rfl⟩, by simp [ClientEvent.byUser]⟩
    | call | post | send | destroy => cases ha
    | strand =>
      exact ⟨⟨(runClosure_quiet _ _).2.2, (runClosure_phase _ _).2.2⟩,
        fun e he => (runClosure_events _ _ e he).1⟩
    | next =>
      exact ⟨⟨(next_quiet _).2.2, (next_connected _).2⟩, fun e he => (next_events _ e he).1⟩

theorem call_step {c : UserCall}
    (hstep : Conversation.step cfg p (.inl (.call c.1 c.2)) = some (q, es)) :
    q.left.destroyed = p.left.destroyed ∧ ∃ idx,
      q.left.numbered = p.left.numbered ++ [⟨idx, c.1, c.2⟩] ∧ es = [.inl (.numbered idx)] := by
  obtain ⟨c', ls, hleft, -, -, rfl, hq⟩ := step_inl.mp hstep
  rw [hq]
  obtain ⟨-, -, hact⟩ := clientStep_of_step hleft
  cases hact with
  | call hopen => exact ⟨rfl, _, rfl, rfl⟩
  | io hwrite hclose hw hio => cases hio
  | exhausts hphase hwhy => simp at hwhy

theorem post_step {n : Numbered} (hnumbered : p.left.numbered = [n])
    (hstep : Conversation.step cfg p (.inl (.post 0)) = some (q, es)) :
    q.left.destroyed = p.left.destroyed ∧ q.left.numbered = [] ∧
      es = [.inl (.issued p.left.promises.length n.idx n.funcName n.args)] := by
  obtain ⟨c', ls, hleft, -, -, rfl, hq⟩ := step_inl.mp hstep
  rw [hq]
  obtain ⟨-, -, hact⟩ := clientStep_of_step hleft
  cases hact with
  | post hn =>
    rw [hnumbered] at hn
    cases hn
    exact ⟨rfl, by rw [hnumbered]; rfl, rfl⟩
  | io hwrite hclose hw hio => cases hio
  | exhausts hphase hwhy => simp at hwhy

end Actions

/-! ## What the thread sees -/

def UserThread.Sees {ω : Type} (answer : UserCall → Option CallResult) (owned : ℕ → Option UserCall)
    (Q : List ω → Prop) : UserThread ω → Prop
  | .running t => t.Sees answer owned Q
  | .posting c rest => (Program.call c rest).Sees answer owned Q
  | .polling ps _ rest => (Program.waitAny ps rest).Sees answer owned Q
  | .refused => True

/-- The call that the thread has a number for. -/
def UserThread.pending {ω : Type} : UserThread ω → List UserCall
  | .posting c _ => [c]
  | .running _ | .polling _ _ _ | .refused => []

/-- What is left of the program still prints what it should, with the futures that the thread
owns. -/
structure Following {ω : Type} (cfg : Config) (Q : List ω → Prop) (owned : ℕ → Option UserCall)
    (h : List ConversationEvent) (s : UserSystem ω) : Prop where
  sees : s.thread.Sees cfg.outcome owned fun lines => Q (s.printed ++ lines)
  issued : ∀ p c, owned p = some c → ∃ idx, .issued p idx c.1 c.2 ∈ lefts h
  fetched : ∀ p ∈ s.taken,
    owned p = none ∧ ∃ (idx : ℤ) (c : UserCall), .issued p idx c.1 c.2 ∈ lefts h
  numbered : s.conversation.left.numbered.map (fun n => (n.funcName, n.args)) = s.thread.pending
  kept : s.conversation.left.destroyed = false

theorem Books.issued_lt {c : ClientImpl} {h : List ClientEvent} (hb : Books h c) {p : ℕ} {idx : ℤ}
    {funcName : Bytes} {args : List Object} (hmem : .issued p idx funcName args ∈ h) :
    p < c.promises.length := by
  have hretrieved := (hb.accounts.futures p).mpr ⟨idx, funcName, args, hmem⟩
  rw [isRetrieved, Option.any_eq_true] at hretrieved
  obtain ⟨st, hst, -⟩ := hretrieved
  exact (List.getElem?_eq_some_iff.mp hst).1

namespace Following

variable {ω : Type} {cfg : Config} {Q : List ω → Prop} {owned : ℕ → Option UserCall}
  {h es : List ConversationEvent} {s s' : UserSystem ω}

theorem extend (hf : Following cfg Q owned h s)
    (hsees : s'.thread.Sees cfg.outcome owned fun lines => Q (s'.printed ++ lines))
    (htaken : s'.taken = s.taken)
    (hnumbered : s'.conversation.left.numbered.map (fun n => (n.funcName, n.args)) =
      s'.thread.pending)
    (hkept : s'.conversation.left.destroyed = s.conversation.left.destroyed) :
    Following cfg Q owned (h ++ es) s' := by
  refine ⟨hsees, ?_, ?_, hnumbered, hkept.trans hf.kept⟩
  · intro p c hp
    obtain ⟨idx, hmem⟩ := hf.issued p c hp
    rw [lefts_append]
    exact ⟨idx, List.mem_append_left _ hmem⟩
  · intro p hp
    rw [htaken] at hp
    obtain ⟨hnone, idx, c, hmem⟩ := hf.fetched p hp
    rw [lefts_append]
    exact ⟨hnone, idx, c, List.mem_append_left _ hmem⟩

theorem other (hf : Following cfg Q owned h s) {a : ConversationAction}
    (hstep : s.step cfg (.other a) = some (s', es)) : Following cfg Q owned (h ++ es) s' := by
  rw [UserSystem.step, Option.ite_none_right_eq_some, Option.map_eq_some_iff] at hstep
  obtain ⟨ha, q, hq, heq⟩ := hstep
  cases heq
  obtain ⟨⟨hnumbered, hkept⟩, -⟩ := other_step ha hq
  refine hf.extend hf.sees rfl ?_ hkept
  rw [hnumbered]
  exact hf.numbered

theorem post (hf : Following cfg Q owned h s) (hc : Conversing cfg h s.conversation)
    {c : UserCall} {rest : ℕ → UserProgram ω} {q : Conversation}
    (hthread : s.thread = .posting c rest)
    (hstep : Conversation.step cfg s.conversation (.inl (.post 0)) = some (q, es)) :
    Following cfg Q (Function.update owned s.conversation.left.promises.length (some c)) (h ++ es)
      { s with
        conversation := q
        thread := .running (rest s.conversation.left.promises.length) } := by
  have hpending := hf.numbered
  rw [hthread] at hpending
  obtain ⟨n, hn, hcall⟩ := List.map_eq_singleton_iff.mp hpending
  obtain ⟨hkept, hnone, rfl⟩ := post_step hn hstep
  have hold : ∀ p idx (d : UserCall), .issued p idx d.1 d.2 ∈ lefts h →
      p ≠ s.conversation.left.promises.length := fun p idx d hmem =>
    (hc.books.issued_lt hmem).ne
  have hfresh : owned s.conversation.left.promises.length = none := by
    rw [Option.eq_none_iff_forall_ne_some]
    intro d hd
    obtain ⟨idx, hmem⟩ := hf.issued _ d hd
    exact hold _ idx d hmem rfl
  have hsees := hf.sees
  rw [hthread] at hsees
  refine ⟨hsees _ hfresh, ?_, ?_, by rw [hnone]; rfl, hkept.trans hf.kept⟩
  · intro p d hp
    rw [lefts_append]
    by_cases heq : p = s.conversation.left.promises.length
    · subst heq
      rw [Function.update_self] at hp
      cases hp
      subst hcall
      exact ⟨n.idx, List.mem_append_right _ (List.mem_singleton_self _)⟩
    · rw [Function.update_of_ne heq] at hp
      obtain ⟨idx, hmem⟩ := hf.issued p d hp
      exact ⟨idx, List.mem_append_left _ hmem⟩
  · intro p hp
    obtain ⟨hgone, idx, d, hmem⟩ := hf.fetched p hp
    rw [Function.update_of_ne (hold p idx d hmem), lefts_append]
    exact ⟨hgone, idx, d, List.mem_append_left _ hmem⟩

theorem result (hf : Following cfg Q owned h s) (hc : Conversing cfg h s.conversation)
    (hm : Moderate cfg (lefts h)) (hfaithful : Faithful (lefts h) s.conversation.left) {p : ℕ}
    {c : UserCall} (hp : owned p = some c) {r : CallResult}
    (hr : resultOf s.conversation.left.promises p = some r) : cfg.outcome c = some r := by
  obtain ⟨idx, hmem⟩ := hf.issued p c hp
  have hres : .resolved p r ∈ lefts h := by
    rw [← mem_resultsOf, hc.books.accounts.results, hr]
    exact List.mem_singleton_self _
  rcases hc.own_reply hm hfaithful hmem hres with ⟨-, hgone⟩ | ⟨reply, hreply, rfl⟩
  · cases hf.kept.symm.trans hgone
  · have heq := outcome_eq cfg (hc.numbering.issued_pos hm.few (issued_mem hmem).1)
      (hc.numbering.issued_range (issued_mem hmem).1).2 c.1 c.2
    rw [hreply] at heq
    exact heq.symm

theorem get (hf : Following cfg Q owned h s) (hc : Conversing cfg h s.conversation)
    (hm : Moderate cfg (lefts h)) (hfaithful : Faithful (lefts h) s.conversation.left) {p : ℕ}
    {rest : CallResult → UserProgram ω} {r : CallResult}
    (hthread : s.thread = .running (.get p rest))
    (hr : resultOf s.conversation.left.promises p = some r) :
    Following cfg Q (Function.update owned p none) h
      { s with thread := .running (rest r), taken := p :: s.taken } := by
  have hsees := hf.sees
  have hnumbered := hf.numbered
  rw [hthread] at hsees hnumbered
  obtain ⟨c, hc', hrest⟩ := hsees
  obtain ⟨idx, hmem⟩ := hf.issued p c hc'
  refine ⟨hrest r (hf.result hc hm hfaithful hc' hr), ?_, ?_, hnumbered, hf.kept⟩
  · intro q d hq
    by_cases heq : q = p
    · subst heq
      rw [Function.update_self] at hq
      cases hq
    · rw [Function.update_of_ne heq] at hq
      exact hf.issued q d hq
  · intro q hq
    rcases List.mem_cons.mp hq with rfl | hq'
    · exact ⟨Function.update_self .., idx, c, hmem⟩
    · obtain ⟨hgone, hissued⟩ := hf.fetched q hq'
      refine ⟨?_, hissued⟩
      by_cases heq : q = p
      · rw [heq, Function.update_self]
      · rw [Function.update_of_ne heq, hgone]

theorem user (hf : Following cfg Q owned h s) (hc : Conversing cfg h s.conversation)
    (hm : Moderate cfg (lefts h)) (hfaithful : Faithful (lefts h) s.conversation.left)
    (hstep : s.user cfg = some (s', es)) : ∃ owned', Following cfg Q owned' (h ++ es) s' := by
  have hsees := hf.sees
  have hnumbered := hf.numbered
  cases userStep_of_user hstep with
  | print hthread =>
    rw [hthread] at hsees hnumbered
    refine ⟨owned, hf.extend ?_ rfl hnumbered rfl⟩
    simp only [List.append_assoc]
    exact hsees
  | refused hthread =>
    rw [hthread] at hnumbered
    exact ⟨owned, hf.extend trivial rfl hnumbered rfl⟩
  | call hthread hq =>
    rw [hthread] at hsees hnumbered
    obtain ⟨hkept, idx, hone, -⟩ := call_step hq
    have hnil := List.map_eq_nil_iff.mp hnumbered
    refine ⟨owned, hf.extend hsees rfl ?_ hkept⟩
    rw [hone, hnil]
    rfl
  | post hthread hq => exact ⟨_, hf.post hc hthread hq⟩
  | get hthread hr =>
    rw [List.append_nil]
    exact ⟨_, hf.get hc hm hfaithful hthread hr⟩
  | wait hthread =>
    rw [hthread] at hsees hnumbered
    exact ⟨owned, hf.extend hsees rfl hnumbered rfl⟩
  | poll j hthread =>
    rw [hthread] at hsees hnumbered
    exact ⟨owned, hf.extend hsees rfl hnumbered rfl⟩
  | found hthread hi =>
    rw [hthread] at hsees hnumbered
    exact ⟨owned, hf.extend (hsees.2.2 _ hi) rfl hnumbered rfl⟩

theorem start {t : UserProgram ω} (ht : t.Sees cfg.outcome (fun _ => none) Q)
    (forthCap backCap : Option ℕ) :
    Following cfg Q (fun _ => none) [] (.start forthCap backCap t) where
  sees := ht
  issued _ _ hp := by cases hp
  fetched _ hp := by cases hp
  numbered := rfl
  kept := rfl

theorem of_run {t : UserProgram ω} {forthCap backCap : Option ℕ}
    (ht : t.Sees cfg.outcome (fun _ => none) Q)
    (hrun : Run (UserSystem.step cfg) anyAction (.start forthCap backCap t) h s)
    (hm : Moderate cfg (lefts h)) : ∃ owned, Following cfg Q owned h s := by
  induction hrun with
  | refl => exact ⟨_, .start ht forthCap backCap⟩
  | @tail h s s' a es hfront _ hstep ih =>
    rw [lefts_append] at hm
    obtain ⟨owned, hf⟩ := ih hm.front
    have hrun' := UserSystem.conversation_run hfront
    cases a with
    | other a => exact ⟨owned, hf.other hstep⟩
    | user =>
      exact hf.user (.of_run hrun') hm.front (Conversing.faithful_of_run hrun' hm.front) hstep

/-- The program has printed what it should when it is done, and its futures are valid. -/
theorem outcome (hf : Following cfg Q owned h s) :
    (s.thread = .running .done → Q s.printed) ∧
      ∀ p rest, s.thread = .running (.get p rest) → p ∉ s.taken := by
  have hsees := hf.sees
  refine ⟨?_, ?_⟩
  · intro hdone
    rw [hdone] at hsees
    have hQ : Q (s.printed ++ []) := hsees
    rwa [List.append_nil] at hQ
  · intro p rest hget htaken
    rw [hget] at hsees
    obtain ⟨c, hc, -⟩ := hsees
    cases (hf.fetched p htaken).1.symm.trans hc

end Following

/-- However the thread, the I/O thread, the server's threads and the channels take turns, the
thread sees the replies to its own calls and nothing else: what it has printed when it is done is
what it prints if each call is answered on the spot.  It never fetches a future twice, and its
client's process lives on. -/
theorem user_sees {ω : Type} {cfg : Config} {t : UserProgram ω} {Q : List ω → Prop}
    (ht : t.Sees cfg.outcome (fun _ => none) Q) {forthCap backCap : Option ℕ}
    {h : List ConversationEvent} {s : UserSystem ω}
    (hrun : Run (UserSystem.step cfg) anyAction (.start forthCap backCap t) h s)
    (hm : Moderate cfg (lefts h)) :
    (s.thread = .running .done → Q s.printed) ∧
      (∀ p rest, s.thread = .running (.get p rest) → p ∉ s.taken) ∧
      s.conversation.left.terminated = false := by
  obtain ⟨owned, hf⟩ := Following.of_run ht hrun hm
  obtain ⟨hdone, hvalid⟩ := hf.outcome
  exact ⟨hdone, hvalid, (Conversing.of_run (UserSystem.conversation_run hrun)).client_alive hm⟩

/-- A program that calls the function of `pingConfig` and says so. -/
def pinging : UserProgram Unit := .call ([0x66], []) fun p => .get p fun _ => .print () .done

def pingingCall : List UserAction := [.other (.inl (.connect true)), .user, .user]

/-- The thread's call, what the others do for it, and the thread's last steps. -/
def pingingRun : List UserAction :=
  pingingCall ++ (pingRun.drop pingCall.length).map .other ++ [.user, .user]

abbrev pingedBy (as : List UserAction) : UserSystem Unit × List ConversationEvent :=
  afterAll (UserSystem.step pingConfig) anyAction (.start (some 3) (some 3) pinging) as

theorem pinging_sees : pinging.Sees pingConfig.outcome (fun _ => none) (· = [()]) := by
  apply Program.callGet_sees
  intro r owned _
  exact rfl

theorem user_sees_ping : (pingedBy pingingRun).1.printed = [()] :=
  (user_sees pinging_sees (Run.of_actions _ _ _ pingingRun (by decide +kernel))
    (ping_moderate (by decide +kernel) (by with_unfolding_all rfl))).1 (by with_unfolding_all rfl)

/-! ## What the thread waits for -/

/-- The thread cannot go on before a result arrives. -/
def UserSystem.Waits {ω : Type} (s : UserSystem ω) : Prop :=
  match s.thread with
  | .running (.get p _) => resultOf s.conversation.left.promises p = none
  | .running (.waitAny ps _) | .polling ps _ _ => ∀ p ∈ ps, s.ready p = false
  | _ => False

theorem Following.ready {ω : Type} {cfg : Config} {Q : List ω → Prop}
    {owned : ℕ → Option UserCall} {h : List ConversationEvent} {s : UserSystem ω}
    (hf : Following cfg Q owned h s) {q : Conversation}
    (hresults : ∀ p c, owned p = some c → resultOf q.left.promises p ≠ none) {p : ℕ}
    (hp : owned p ≠ none) : ({ s with conversation := q } : UserSystem ω).ready p = true := by
  obtain ⟨c, hc⟩ := Option.ne_none_iff_exists'.mp hp
  have hvalid : p ∉ s.taken := fun htaken => hp (hf.fetched p htaken).1
  simp [UserSystem.ready, hvalid, Option.isSome_iff_ne_none, hresults p c hc]

theorem Following.not_waits {ω : Type} {cfg : Config} {Q : List ω → Prop}
    {owned : ℕ → Option UserCall} {h : List ConversationEvent} {s : UserSystem ω}
    (hf : Following cfg Q owned h s) {q : Conversation}
    (hresults : ∀ p c, owned p = some c → resultOf q.left.promises p ≠ none) :
    ¬({ s with conversation := q } : UserSystem ω).Waits := by
  have hsees := hf.sees
  have hall : ∀ ps : List ℕ, ps ≠ [] → (∀ p ∈ ps, owned p ≠ none) →
      ¬∀ p ∈ ps, ({ s with conversation := q } : UserSystem ω).ready p = false := by
    intro ps hne hps hnone
    obtain ⟨p, hp⟩ := List.exists_mem_of_ne_nil ps hne
    cases (hf.ready hresults (hps p hp)).symm.trans (hnone p hp)
  unfold UserSystem.Waits
  dsimp only
  split
  · next p rest hthread =>
    rw [hthread] at hsees
    obtain ⟨c, hc, -⟩ := hsees
    exact hresults p c hc
  · next ps rest hthread =>
    rw [hthread] at hsees
    exact hall ps hsees.1 hsees.2.1
  · next ps i rest hthread =>
    rw [hthread] at hsees
    exact hall ps hsees.1 hsees.2.1
  · exact id

/-- Once the two ends have nothing left to do, the results of the thread's futures are there. -/
theorem Following.results_at_rest {ω : Type} {cfg : Config} {Q : List ω → Prop}
    {owned : ℕ → Option UserCall} {h : List ConversationEvent} {s : UserSystem ω}
    (hf : Following cfg Q owned h s) {forthCap backCap : Option ℕ}
    (hrun : Run (Conversation.step cfg) anyAction (.start forthCap backCap) h s.conversation)
    (hm : Moderate cfg (lefts h)) (hplain : Plain cfg (lefts h))
    (hanswers : ∀ p idx funcName args, .issued p idx funcName args ∈ lefts h →
      cfg.outcome (funcName, args) ≠ none)
    (hs : Steady h s.conversation) {as : List ConversationAction} {q : Conversation}
    {k : List ConversationEvent}
    (hexec : exec (Conversation.step cfg) (fun _ a => ownAction a = true) s.conversation as =
      some (q, k)) (hquiet : q.Quiet cfg) (hfailure : q.right.failure = none) (p : ℕ)
    (c : UserCall) (hp : owned p = some c) :
    resultOf q.left.promises p ≠ none := by
  have hc := Conversing.of_run hrun
  have hc' := Conversing.of_run (hrun.trans (Run.of_exec hexec).any)
  intro hnone
  obtain ⟨idx, hmem⟩ := hf.issued p c hp
  have heq := (hs.answered hrun hm hplain hexec).2 hquiet hfailure p idx c.1 c.2 hmem
  rw [outcome_eq cfg (hc.numbering.issued_pos hm.few (issued_mem hmem).1)
    (hc.numbering.issued_range (issued_mem hmem).1).2, hc'.books.accounts.results, hnone,
    Option.toList_none] at heq
  exact hanswers p idx c.1 c.2 hmem (Option.toList_eq_nil_iff.mp heq.symm)

/-- A thread whose calls have replies never waits in vain: whatever the two ends do by themselves,
they have done after a bounded number of steps, and then the result that the thread waits for is
there, unless the server has failed. -/
theorem user_goes_on {ω : Type} {cfg : Config} {t : UserProgram ω} {Q : List ω → Prop}
    (ht : t.Sees cfg.outcome (fun _ => none) Q) {forthCap backCap : Option ℕ}
    {h : List ConversationEvent} {s : UserSystem ω}
    (hrun : Run (UserSystem.step cfg) anyAction (.start forthCap backCap t) h s)
    (hm : Moderate cfg (lefts h)) (hplain : Plain cfg (lefts h))
    (hanswers : ∀ p idx funcName args, .issued p idx funcName args ∈ lefts h →
      cfg.outcome (funcName, args) ≠ none)
    (hs : Steady h s.conversation) :
    ∀ as q k, exec (Conversation.step cfg) (fun _ a => ownAction a = true) s.conversation as =
        some (q, k) →
      as.length ≤ s.conversation.budget cfg h ∧
        (q.Quiet cfg → q.right.failure = none →
          ¬({ s with conversation := q } : UserSystem ω).Waits) := by
  intro as q k hexec
  obtain ⟨owned, hf⟩ := Following.of_run ht hrun hm
  have hrun' := UserSystem.conversation_run hrun
  refine ⟨(hs.answered hrun' hm hplain hexec).1, ?_⟩
  intro hquiet hfailure
  exact hf.not_waits (hf.results_at_rest hrun' hm hplain hanswers hs hexec hquiet hfailure)

theorem pinging_answers (p : ℕ) (idx : ℤ) (funcName : Bytes) (args : List Object)
    (hmem : .issued p idx funcName args ∈ lefts (pingedBy pingingCall).2) :
    pingConfig.outcome (funcName, args) ≠ none := by
  have hlefts : lefts (pingedBy pingingCall).2 = [.numbered 1, .issued 0 1 [0x66] []] := rfl
  rw [hlefts] at hmem
  simp only [List.mem_cons, List.not_mem_nil, or_false, reduceCtorEq, false_or,
    ClientEvent.issued.injEq] at hmem
  obtain ⟨-, -, rfl, rfl⟩ := hmem
  exact Option.some_ne_none _

/-- The two ends after the call, with nothing left to do. -/
abbrev pingRest : Conversation :=
  (afterAll (Conversation.step pingConfig) (fun _ a => ownAction a = true)
    (pingedBy pingingCall).1.conversation (pingRun.drop pingCall.length)).1

theorem user_goes_on_ping :
    (pingRun.drop pingCall.length).length ≤
        (pingedBy pingingCall).1.conversation.budget pingConfig (pingedBy pingingCall).2 ∧
      (pingRest.Quiet pingConfig → pingRest.right.failure = none →
        ¬({ (pingedBy pingingCall).1 with conversation := pingRest } : UserSystem Unit).Waits) :=
  user_goes_on pinging_sees (Run.of_actions _ _ _ pingingCall rfl) (ping_moderate rfl rfl)
    ping_plain pinging_answers ping_steady (pingRun.drop pingCall.length) pingRest _
    (exec_eq_afterAll _ _ _ _ (by decide +kernel))

end PromiseDemo.Rpc
