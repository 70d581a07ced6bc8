import Mathlib.Logic.Function.Basic
import PromiseDemo.Rpc.SessionServes

/-!
# The server

The accept loop of `server.cc`, the list of sessions, the requests to stop, and what the tasks of
one session do to the responses of another.  Each thread has a `this_handler` and a flag
`this_server().stopping()` of its own, and the accept handler looks at the flag of the thread that
it happens to run on.
-/

namespace PromiseDemo.Rpc

open Transition MsgPack

/-- Does a task leave the flag of its thread set?  Every task clears it first. -/
def Config.stops (c : Config) (msg : Object) : Bool :=
  (dispatch c.overlay c.funcs c.suppressExceptions msg).run.any FuncRun.stop

/-- How an accept ends.  An `unnamed` connection is one that is gone before the handler asks for
its `remote_endpoint()`, which throws. -/
inductive AcceptOutcome
  | connected
  | failed
  | unnamed

/-- All sessions so far, whether an accept is under way, and the flags of the threads.  A session
is in `sessions_` as long as it is `listed`. -/
structure ServerImpl where
  sessions : List ServerSession := []
  accepting : Bool := true
  stopping : ℕ → Bool := fun _ => false
  stopped : Bool := false
  terminated : Bool := false

/-- What the threads do.  `accept` is the accept handler, `run` a task and `strand` the write
strand of a session; a session's other steps concern nobody else.  `stop` is `server::stop`. -/
inductive ServerImplAction
  | accept (thread : ℕ) (outcome : AcceptOutcome)
  | run (thread n i : ℕ)
  | strand (n : ℕ)
  | closeSessions
  | session (n : ℕ) (a : ServerSessionAction)
  | stop

inductive ServerImplEvent
  | accepted (thread : ℕ) (ok : Bool)
  | unnamed
  | ended (thread : ℕ) (stop : Bool)
  | session (n : ℕ) (e : ServerSessionEvent)
  | stopped

def ServerSessionAction.alone : ServerSessionAction → Bool
  | .receive _ | .next | .refused | .disconnect | .readError | .post _ | .closeTaken | .overflow
  | .closeFails | .transfer _ | .written | .failed => true
  | .run _ _ | .reuse _ _ | .closeSessions | .strand => false

/-- What is left to a handler that is running when the `io_service` is stopped, and what other
threads can ask for. -/
def ServerImplAction.finishing : ServerImplAction → Bool
  | .session _ .next | .session _ .refused | .session _ (.post _) | .session _ .closeTaken => true
  | .closeSessions | .stop => true
  | .accept _ _ | .run _ _ _ | .strand _ | .session _ _ => false

/-- A task of session `n` has set an object of its thread, with so many sessions around. -/
def others (n : ℕ) : ℕ → List ServerImplEvent
  | 0 => []
  | k + 1 => others n k ++ if k = n then [] else [.session k .reused]

namespace ServerImpl

def Alive (s : ServerImpl) : Prop := s.terminated = false ∧ ∀ t ∈ s.sessions, t.Alive

instance (s : ServerImpl) : Decidable s.Alive := inferInstanceAs (Decidable (_ ∧ _))

/-- The accept handler.  An accept that fails, or that `cancel` ends, is armed again like one that
succeeds, unless the flag of the handler's thread is set. -/
def accept (s : ServerImpl) (thread : ℕ) : AcceptOutcome → ServerImpl × List ServerImplEvent
  | .connected =>
      ({ s with sessions := s.sessions ++ [{}], accepting := !s.stopping thread },
        [.accepted thread true])
  | .failed => ({ s with accepting := !s.stopping thread }, [.accepted thread false])
  | .unnamed => ({ s with terminated := true }, [.unnamed])

/-- `close_sessions`, up to the closing of the sessions that it has taken off the list. -/
def closeSessions (s : ServerImpl) : ServerImpl :=
  { s with sessions := s.sessions.map ServerSession.closeSessions }

def onSession (c : Config) (s : ServerImpl) (n : ℕ) (t : ServerSession) (a : ServerSessionAction) :
    Option (ServerImpl × List ServerImplEvent) :=
  (t.step c a).map fun q =>
    ({ s with sessions := s.sessions.set n q.1 }, q.2.map (.session n))

/-- A task of session `n` has ended on a thread.  What it has set takes the place of what the
thread's last task has set, of whichever session that was. -/
def ended (c : Config) (s : ServerImpl) (thread n : ℕ) (msg : Object) :
    ServerSession × List ServerSessionEvent → ServerImpl × List ServerImplEvent
  | (t, es) =>
      ({ s with
          sessions :=
            (if c.touches msg then s.sessions.map fun u => u.reuse thread (c.handler msg)
              else s.sessions).set n t
          stopping := Function.update s.stopping thread (c.stops msg) },
        es.map (.session n) ++ (if c.touches msg then others n s.sessions.length else []) ++
          [.ended thread (c.stops msg)])

/-- What happens in a process that has not ended. -/
def act (c : Config) (s : ServerImpl) :
    ServerImplAction → Option (ServerImpl × List ServerImplEvent)
  | .accept thread outcome => if s.accepting then some (s.accept thread outcome) else none
  | .run thread n i =>
      match s.sessions[n]? with
      | none => none
      | some t =>
          match t.tasks[i]? with
          | none => none
          | some msg => (t.step c (.run thread i)).map (s.ended c thread n msg)
  | .strand n =>
      match s.sessions[n]? with
      | none => none
      | some t =>
          match t.strand, t.wrong with
          | .request .closeSessions :: rest, none =>
              some ({ s with
                sessions := s.sessions.set n { t with strand := rest } }.closeSessions, [])
          | _, _ => onSession c s n t .strand
  | .closeSessions => some (s.closeSessions, [])
  | .session n a =>
      match s.sessions[n]? with
      | none => none
      | some t => if a.alone then onSession c s n t a else none
  | .stop => some ({ s with stopped := true }, [.stopped])

def step (c : Config) (s : ServerImpl) (a : ServerImplAction) :
    Option (ServerImpl × List ServerImplEvent) :=
  if s.Alive ∧ (s.stopped = true → a.finishing = true) then s.act c a else none

end ServerImpl

/-- What a step of the server can do. -/
inductive ServerImplStep (c : Config) (s : ServerImpl) :
    ServerImpl → List ServerImplEvent → Prop
  | accept (thread : ℕ) (outcome : AcceptOutcome) (haccepting : s.accepting = true) :
      ServerImplStep c s (s.accept thread outcome).1 (s.accept thread outcome).2
  | own {n : ℕ} {t t' : ServerSession} {b : ServerSessionAction} {es : List ServerSessionEvent}
      (ht : s.sessions[n]? = some t) (hown : t.step c b = some (t', es)) :
      ServerImplStep c s { s with sessions := s.sessions.set n t' } (es.map (.session n))
  | run {n i : ℕ} {t t' : ServerSession} {es : List ServerSessionEvent} (thread : ℕ) (msg : Object)
      (ht : s.sessions[n]? = some t) (hown : t.step c (.run thread i) = some (t', es)) :
      ServerImplStep c s (s.ended c thread n msg (t', es)).1 (s.ended c thread n msg (t', es)).2
  | closedBy {n : ℕ} {t : ServerSession} {rest : List Posted} (ht : s.sessions[n]? = some t)
      (hstrand : t.strand = .request .closeSessions :: rest) (hright : t.wrong = none) :
      ServerImplStep c s
        { s with
          sessions := (s.sessions.set n { t with strand := rest }).map
            ServerSession.closeSessions } []
  | closed : ServerImplStep c s s.closeSessions []
  | stop : ServerImplStep c s { s with stopped := true } [.stopped]

theorem onSession_step {c : Config} {s s' : ServerImpl} {n : ℕ} {t : ServerSession}
    {b : ServerSessionAction} {es : List ServerImplEvent} (ht : s.sessions[n]? = some t)
    (hone : s.onSession c n t b = some (s', es)) : ServerImplStep c s s' es := by
  obtain ⟨⟨t', ls⟩, hown, heq⟩ := Option.map_eq_some_iff.mp hone
  cases heq
  exact .own ht hown

theorem serverImplStep_of_step {c : Config} {s s' : ServerImpl} {a : ServerImplAction}
    {es : List ServerImplEvent} (hstep : s.step c a = some (s', es)) :
    s.Alive ∧ ServerImplStep c s s' es := by
  rw [ServerImpl.step, Option.ite_none_right_eq_some] at hstep
  obtain ⟨⟨halive, -⟩, hact⟩ := hstep
  refine ⟨halive, ?_⟩
  cases a with
  | accept thread outcome =>
    rw [ServerImpl.act, Option.ite_none_right_eq_some] at hact
    obtain ⟨haccepting, heq⟩ := hact
    have hone := ServerImplStep.accept (c := c) thread outcome haccepting
    rwa [Option.some.inj heq] at hone
  | run thread n i =>
    rw [ServerImpl.act] at hact
    split at hact
    · cases hact
    · next t ht =>
      split at hact
      · cases hact
      · next msg hmsg =>
        obtain ⟨⟨t', ls⟩, hown, heq⟩ := Option.map_eq_some_iff.mp hact
        cases heq
        exact .run thread msg ht hown
  | strand n =>
    rw [ServerImpl.act] at hact
    split at hact
    · cases hact
    · next t ht =>
      split at hact
      · next rest hstrand hright =>
        cases hact
        exact .closedBy ht hstrand hright
      · exact onSession_step ht hact
  | closeSessions =>
    cases hact
    exact .closed
  | session n b =>
    rw [ServerImpl.act] at hact
    split at hact
    · cases hact
    · next t ht =>
      rw [Option.ite_none_right_eq_some] at hact
      exact onSession_step ht hact.2
  | stop =>
    cases hact
    exact .stop

/-! ## What a session has seen -/

def eventsOf (n : ℕ) (h : List ServerImplEvent) : List ServerSessionEvent :=
  h.filterMap fun e => match e with
    | .session k e => if k = n then some e else none
    | _ => none

@[simp] theorem eventsOf_append (n : ℕ) (h k : List ServerImplEvent) :
    eventsOf n (h ++ k) = eventsOf n h ++ eventsOf n k := List.filterMap_append

theorem eventsOf_self (n : ℕ) (es : List ServerSessionEvent) :
    eventsOf n (es.map (.session n)) = es := by
  simp [eventsOf, List.filterMap_map]

theorem eventsOf_other {n k : ℕ} (hne : k ≠ n) (es : List ServerSessionEvent) :
    eventsOf n (es.map (.session k)) = [] := by
  simp [eventsOf, List.filterMap_map, hne]

theorem eventsOf_others (n m k : ℕ) :
    eventsOf m (others n k) = if m < k ∧ m ≠ n then [.reused] else [] := by
  induction k with
  | zero => rfl
  | succ k ih =>
    rw [others, eventsOf_append, ih]
    by_cases hk : k = n
    · rw [if_pos hk]
      have hsame : (m < k + 1 ∧ m ≠ n) ↔ (m < k ∧ m ≠ n) := by omega
      simp only [hsame]
      exact List.append_nil _
    · rw [if_neg hk]
      have hlast : eventsOf m [.session k .reused] = if k = m then [.reused] else [] := by
        unfold eventsOf
        by_cases hm : k = m <;> simp [hm]
      rw [hlast]
      by_cases hm : k = m
      · subst hm
        rw [if_neg (by omega), if_pos rfl, if_pos (by omega)]
        rfl
      · have hsame : (m < k + 1 ∧ m ≠ n) ↔ (m < k ∧ m ≠ n) := by omega
        simp only [hsame, if_neg hm]
        exact List.append_nil _

theorem eventsOf_ended (c : Config) (s : ServerImpl) (thread n m : ℕ) (msg : Object)
    (t : ServerSession) (es : List ServerSessionEvent) :
    eventsOf m (s.ended c thread n msg (t, es)).2 =
      if m = n then es
      else if m < s.sessions.length ∧ c.touches msg = true then [.reused] else [] := by
  have hlast : eventsOf m [.ended thread (c.stops msg)] = [] := rfl
  have htouched : eventsOf m (if c.touches msg then others n s.sessions.length else []) =
      if m < s.sessions.length ∧ m ≠ n ∧ c.touches msg = true then [.reused] else [] := by
    cases c.touches msg with
    | true =>
      rw [if_pos rfl, eventsOf_others]
      simp
    | false => simp [eventsOf]
  rw [ServerImpl.ended, eventsOf_append, eventsOf_append, hlast, htouched, List.append_nil]
  by_cases hm : m = n
  · subst hm
    rw [eventsOf_self, if_pos rfl, if_neg (by tauto), List.append_nil]
  · rw [eventsOf_other (Ne.symm hm), if_neg hm, List.nil_append]
    simp [hm]

theorem ServerImpl.session_step {c : Config} {s s' : ServerImpl} {a : ServerImplAction}
    {es : List ServerImplEvent} (hstep : s.step c a = some (s', es)) {n : ℕ} {t : ServerSession}
    (ht : s.sessions[n]? = some t) :
    ∃ t', s'.sessions[n]? = some t' ∧
      ((t' = t ∧ eventsOf n es = []) ∨ ∃ b, t.step c b = some (t', eventsOf n es)) := by
  obtain ⟨⟨-, halive⟩, hact⟩ := serverImplStep_of_step hstep
  have hn : n < s.sessions.length := (List.getElem?_eq_some_iff.mp ht).1
  have halive' : t.Alive := halive t (List.mem_of_getElem? ht)
  have hclose : t.step c .closeSessions = some (t.closeSessions, []) := by
    rw [ServerSession.step, if_pos halive']
    rfl
  cases hact with
  | accept thread outcome haccepting =>
    refine ⟨t, ?_, .inl ⟨rfl, ?_⟩⟩
    · cases outcome with
      | connected => exact (List.getElem?_append_left hn).trans ht
      | failed | unnamed => exact ht
    · cases outcome <;> rfl
  | @own k u u' b ls hu hown =>
    by_cases hk : k = n
    · subst hk
      cases ht.symm.trans hu
      rw [eventsOf_self]
      exact ⟨u', List.getElem?_set_self hn, .inr ⟨b, hown⟩⟩
    · exact ⟨t, (List.getElem?_set_ne hk).trans ht, .inl ⟨rfl, eventsOf_other hk _⟩⟩
  | @run k i u u' ls thread msg hu hown =>
    rw [eventsOf_ended]
    by_cases hk : n = k
    · subst hk
      cases ht.symm.trans hu
      rw [if_pos rfl]
      refine ⟨u', List.getElem?_set_self ?_, .inr ⟨_, hown⟩⟩
      split_ifs
      · rwa [List.length_map]
      · exact hn
    · rw [if_neg hk]
      unfold ServerImpl.ended
      cases htouches : c.touches msg with
      | true =>
        have hother : t.step c (.reuse thread (c.handler msg)) =
            some (t.reuse thread (c.handler msg), [.reused]) := by
          rw [ServerSession.step, if_pos halive']
          rfl
        have hhere : n < s.sessions.length ∧ true = true := ⟨hn, rfl⟩
        rw [if_pos hhere, if_pos rfl, List.getElem?_set_ne (Ne.symm hk), List.getElem?_map, ht]
        exact ⟨_, rfl, .inr ⟨_, hother⟩⟩
      | false =>
        simp only [Bool.false_eq_true, if_false, and_false]
        exact ⟨t, (List.getElem?_set_ne (Ne.symm hk)).trans ht, .inl ⟨rfl, trivial⟩⟩
  | @closedBy k u rest hu hstrand hright =>
    rw [List.getElem?_map]
    by_cases hk : k = n
    · subst hk
      cases ht.symm.trans hu
      rw [List.getElem?_set_self hn]
      refine ⟨_, rfl, .inr ⟨.strand, ?_⟩⟩
      rw [ServerSession.step, if_pos halive', ServerSession.act, hstrand]
      dsimp only
      rw [hright]
      rfl
    · rw [List.getElem?_set_ne hk, ht]
      exact ⟨_, rfl, .inr ⟨_, hclose⟩⟩
  | closed => exact ⟨_, (List.getElem?_map ..).trans (congrArg _ ht), .inr ⟨_, hclose⟩⟩
  | stop => exact ⟨t, ht, .inl ⟨rfl, rfl⟩⟩

theorem ServerImpl.session_new {c : Config} {s s' : ServerImpl} {a : ServerImplAction}
    {es : List ServerImplEvent} (hstep : s.step c a = some (s', es)) {n : ℕ}
    (hn : s.sessions.length ≤ n) :
    eventsOf n es = [] ∧ ∀ t, s'.sessions[n]? = some t → t = {} := by
  obtain ⟨-, hact⟩ := serverImplStep_of_step hstep
  have hnone : ∀ ts : List ServerSession, ts.length = s.sessions.length →
      ∀ t, ts[n]? = some t → t = {} := by
    intro ts hlen t ht
    have hlt := (List.getElem?_eq_some_iff.mp ht).1
    omega
  have hother : ∀ {k : ℕ} {u : ServerSession}, s.sessions[k]? = some u → k ≠ n := by
    intro k u hu
    have hlt := (List.getElem?_eq_some_iff.mp hu).1
    omega
  cases hact with
  | accept thread outcome haccepting =>
    cases outcome with
    | connected =>
      refine ⟨rfl, ?_⟩
      intro t ht
      have hlast : (s.sessions ++ [({} : ServerSession)])[n]? = some t := ht
      rw [List.getElem?_append_right hn] at hlast
      exact List.mem_singleton.mp (List.mem_of_getElem? hlast)
    | failed | unnamed => exact ⟨rfl, hnone _ rfl⟩
  | own hu hown => exact ⟨eventsOf_other (hother hu) _, hnone _ (List.length_set ..)⟩
  | @run k i u u' ls thread msg hu hown =>
    rw [eventsOf_ended, if_neg (Ne.symm (hother hu)), if_neg (by omega)]
    refine ⟨rfl, hnone _ ?_⟩
    unfold ServerImpl.ended
    dsimp only
    split_ifs <;> simp
  | closedBy hu hstrand hright => exact ⟨rfl, hnone _ (by simp)⟩
  | closed => exact ⟨rfl, hnone _ (List.length_map ..)⟩
  | stop => exact ⟨rfl, hnone _ rfl⟩

/-- Seen from a session, a run of the server is a run of the session. -/
theorem ServerImpl.session_run {c : Config} {h : List ServerImplEvent} {s : ServerImpl}
    (hrun : Run (ServerImpl.step c) anyAction {} h s) :
    (∀ n, s.sessions.length ≤ n → eventsOf n h = []) ∧
      ∀ n t, s.sessions[n]? = some t →
        Run (ServerSession.step c) anyAction {} (eventsOf n h) t := by
  induction hrun with
  | refl => exact ⟨fun _ _ => rfl, fun n t ht => by cases ht⟩
  | @tail h s s' a es _ _ hstep ih =>
    obtain ⟨hsilent, hown⟩ := ih
    constructor
    · intro n hn
      have hold : s.sessions.length ≤ n := by
        by_contra hlt
        obtain ⟨t', ht', -⟩ :=
          ServerImpl.session_step hstep (List.getElem?_eq_getElem (Nat.lt_of_not_le hlt))
        have hlt' := (List.getElem?_eq_some_iff.mp ht').1
        omega
      rw [eventsOf_append, hsilent n hold, (ServerImpl.session_new hstep hold).1]
      rfl
    · intro n t' ht'
      rw [eventsOf_append]
      cases hold : s.sessions[n]? with
      | some t =>
        obtain ⟨u, hu, hcase⟩ := ServerImpl.session_step hstep hold
        cases ht'.symm.trans hu
        rcases hcase with ⟨rfl, hnone⟩ | ⟨b, hb⟩
        · rw [hnone, List.append_nil]
          exact hown n _ hold
        · exact (hown n t hold).tail trivial hb
      | none =>
        have hn := List.getElem?_eq_none_iff.mp hold
        obtain ⟨hnone, hfresh⟩ := ServerImpl.session_new hstep hn
        rw [hfresh t' ht', hsilent n hn, hnone]
        exact .refl

/-! ## The accept loop -/

/-- What an event tells of the flag of a thread. -/
def noted (thread : ℕ) (flag : Bool) : ServerImplEvent → Bool
  | .ended t stop => if t = thread then stop else flag
  | .accepted _ _ | .unnamed | .session _ _ | .stopped => flag

/-- Has the last task of the thread asked the server to stop? -/
def stopRequested (h : List ServerImplEvent) (thread : ℕ) : Bool := h.foldl (noted thread) false

/-- Events that tell nothing of the accept loop and of the threads. -/
def ServerImplEvent.quiet : ServerImplEvent → Bool
  | .session _ _ | .unnamed | .stopped => true
  | .accepted _ _ | .ended _ _ => false

theorem noted_quiet {thread : ℕ} {rs : List ServerImplEvent} (hrs : ∀ e ∈ rs, e.quiet = true)
    (flag : Bool) : rs.foldl (noted thread) flag = flag := by
  induction rs with
  | nil => rfl
  | cons e rs ih =>
    have htail := ih fun e' he' => hrs e' (List.mem_cons_of_mem _ he')
    have hhead := hrs e (List.mem_cons_self ..)
    cases e with
    | session | unnamed | stopped => exact htail
    | accepted | ended => cases hhead

theorem quiet_sessions (n : ℕ) (ls : List ServerSessionEvent) :
    ∀ e ∈ ls.map (ServerImplEvent.session n), e.quiet = true := by
  intro e he
  obtain ⟨x, -, rfl⟩ := List.mem_map.mp he
  rfl

theorem quiet_others (n k : ℕ) : ∀ e ∈ others n k, e.quiet = true := by
  induction k with
  | zero => exact List.forall_mem_nil _
  | succ k ih =>
    intro e he
    rcases List.mem_append.mp he with hold | hnew
    · exact ih e hold
    · split_ifs at hnew
      · cases hnew
      · rw [List.mem_singleton.mp hnew]
        rfl

/-- Only the accept handler decides whether the server goes on accepting, and only the end of a
task changes a flag. -/
theorem ServerImplStep.flags {c : Config} {s s' : ServerImpl} {es : List ServerImplEvent}
    (hact : ServerImplStep c s s' es) :
    (∃ thread ok, s.accepting = true ∧ s'.accepting = (!s.stopping thread) ∧
      s'.stopping = s.stopping ∧ es = [.accepted thread ok]) ∨
    (s'.accepting = s.accepting ∧ ∃ rs, (∀ e ∈ rs, e.quiet = true) ∧
      ((es = rs ∧ s'.stopping = s.stopping) ∨ ∃ thread stop, es = rs ++ [.ended thread stop] ∧
        s'.stopping = Function.update s.stopping thread stop)) := by
  cases hact with
  | accept thread outcome haccepting =>
    cases outcome with
    | connected => exact .inl ⟨thread, true, haccepting, rfl, rfl, rfl⟩
    | failed => exact .inl ⟨thread, false, haccepting, rfl, rfl, rfl⟩
    | unnamed =>
      exact .inr ⟨rfl, _, List.forall_mem_singleton.mpr rfl, .inl ⟨rfl, rfl⟩⟩
  | own hu hown => exact .inr ⟨rfl, _, quiet_sessions _ _, .inl ⟨rfl, rfl⟩⟩
  | run thread msg hu hown =>
    refine .inr ⟨rfl, _, ?_, .inr ⟨thread, _, rfl, rfl⟩⟩
    intro e he
    rcases List.mem_append.mp he with hown | hother
    · exact quiet_sessions _ _ e hown
    · split_ifs at hother
      · exact quiet_others _ _ e hother
      · cases hother
  | closedBy hu hstrand hright => exact .inr ⟨rfl, [], List.forall_mem_nil _, .inl ⟨rfl, rfl⟩⟩
  | closed => exact .inr ⟨rfl, [], List.forall_mem_nil _, .inl ⟨rfl, rfl⟩⟩
  | stop => exact .inr ⟨rfl, _, List.forall_mem_singleton.mpr rfl, .inl ⟨rfl, rfl⟩⟩

theorem ServerImpl.accepting_run {c : Config} {h : List ServerImplEvent} {s : ServerImpl}
    (hrun : Run (ServerImpl.step c) anyAction {} h s) :
    (∀ thread, s.stopping thread = stopRequested h thread) ∧
      (s.accepting = false ↔ ∃ before thread ok after,
        h = before ++ .accepted thread ok :: after ∧ stopRequested before thread = true) := by
  induction hrun with
  | refl =>
    refine ⟨fun _ => rfl, (fun hno => by cases hno), ?_⟩
    rintro ⟨before, thread, ok, after, heq, -⟩
    simp at heq
  | @tail h s s' a es _ _ hstep ih =>
    obtain ⟨hflags, hiff⟩ := ih
    rcases (serverImplStep_of_step hstep).2.flags with ⟨thread, ok, haccepting, hnext, hsame, rfl⟩ |
      ⟨hkept, rs, hrs, hcase⟩
    · refine ⟨?_, ?_, ?_⟩
      · intro t
        rw [hsame, hflags, stopRequested, stopRequested, List.foldl_append]
        rfl
      · intro hno
        have hset : s.stopping thread = true := by simpa [hnext] using hno
        exact ⟨h, thread, ok, [], rfl, (hflags thread).symm.trans hset⟩
      · rintro ⟨before, t, k, after, heq, hreq⟩
        rcases split_event heq with ⟨rest, hold, -⟩ | ⟨front, rfl, hnew⟩
        · cases haccepting.symm.trans (hiff.mpr ⟨before, t, k, rest, hold, hreq⟩)
        · obtain ⟨rfl, rfl⟩ := single_event hnew
          cases hnew
          rw [List.append_nil, ← hflags] at hreq
          rw [hnext, hreq]
          rfl
    · have hsilent : ∀ t k, .accepted t k ∉ es := by
        intro t k hmem
        rcases hcase with ⟨rfl, -⟩ | ⟨thread, stop, rfl, -⟩
        · cases hrs _ hmem
        · rcases List.mem_append.mp hmem with hin | hlast
          · cases hrs _ hin
          · cases List.mem_singleton.mp hlast
      refine ⟨?_, ?_, ?_⟩
      · intro t
        rw [stopRequested, List.foldl_append]
        rcases hcase with ⟨rfl, hsame⟩ | ⟨thread, stop, rfl, hupdate⟩
        · rw [noted_quiet hrs, hsame]
          exact hflags t
        · rw [List.foldl_append, noted_quiet hrs, hupdate]
          by_cases ht : thread = t
          · subst ht
            rw [Function.update_self]
            exact (if_pos rfl).symm
          · rw [Function.update_of_ne (Ne.symm ht)]
            exact (hflags t).trans (if_neg ht).symm
      · intro hno
        obtain ⟨before, t, k, after, heq, hreq⟩ := hiff.mp (hkept.symm.trans hno)
        exact ⟨before, t, k, after ++ es, by rw [heq, List.append_assoc, List.cons_append], hreq⟩
      · rintro ⟨before, t, k, after, heq, hreq⟩
        rcases split_event heq with ⟨rest, hold, -⟩ | ⟨front, rfl, hnew⟩
        · exact hkept.trans (hiff.mpr ⟨before, t, k, rest, hold, hreq⟩)
        · refine absurd ?_ (hsilent t k)
          rw [hnew]
          exact List.mem_append_right _ (List.mem_cons_self ..)

theorem ServerImpl.marks_run {c : Config} {h : List ServerImplEvent} {s : ServerImpl}
    (hrun : Run (ServerImpl.step c) anyAction {} h s) :
    (s.stopped = true ↔ .stopped ∈ h) ∧ (s.terminated = true → .unnamed ∈ h) := by
  induction hrun with
  | refl => exact ⟨⟨nofun, nofun⟩, nofun⟩
  | @tail h s s' a es _ _ hstep ih =>
    obtain ⟨hstopped, hterminated⟩ := ih
    obtain ⟨⟨hrunning, -⟩, hact⟩ := serverImplStep_of_step hstep
    have hsame : .stopped ∉ es → s'.stopped = s.stopped → s'.terminated = s.terminated →
        (s'.stopped = true ↔ .stopped ∈ h ++ es) ∧
          (s'.terminated = true → ServerImplEvent.unnamed ∈ h ++ es) := by
      intro hno hs ht
      rw [hs, ht, hstopped, List.mem_append, or_iff_left hno, List.mem_append]
      exact ⟨Iff.rfl, fun hdead => .inl (hterminated hdead)⟩
    have hquiet : ∀ (n : ℕ) (ls : List ServerSessionEvent),
        .stopped ∉ ls.map (ServerImplEvent.session n) := by
      intro n ls hmem
      obtain ⟨x, -, heq⟩ := List.mem_map.mp hmem
      cases heq
    cases hact with
    | accept thread outcome haccepting =>
      cases outcome with
      | connected | failed => exact hsame (by simp [ServerImpl.accept]) rfl rfl
      | unnamed =>
        refine ⟨?_, fun _ => List.mem_append_right _ (List.mem_singleton_self _)⟩
        rw [List.mem_append, or_iff_left (by simp [ServerImpl.accept])]
        exact hstopped
    | own hu hown => exact hsame (hquiet _ _) rfl rfl
    | @run n i u u' ls thread msg hu hown =>
      refine hsame ?_ rfl rfl
      have hothers : ∀ k, ServerImplEvent.stopped ∉ others n k := by
        intro k
        induction k with
        | zero => exact List.not_mem_nil
        | succ k ih =>
          rw [others, List.mem_append, not_or]
          refine ⟨ih, ?_⟩
          split_ifs <;> simp
      unfold ServerImpl.ended
      rw [List.mem_append, List.mem_append, not_or, not_or]
      refine ⟨⟨hquiet _ _, ?_⟩, by simp⟩
      split_ifs
      · exact hothers _
      · exact List.not_mem_nil
    | closedBy hu hstrand hright => exact hsame List.not_mem_nil rfl rfl
    | closed => exact hsame List.not_mem_nil rfl rfl
    | stop =>
      refine ⟨⟨fun _ => List.mem_append_right _ (List.mem_singleton_self _), fun _ => rfl⟩, ?_⟩
      intro hdead
      cases hrunning.symm.trans hdead

/-- The process of the server ends only by a connection that is gone before the accept handler
names it, or in a session, by a malformed stream or a message whose task ends it.  A session fails
only for want of memory for an array or a map of its stream or of stack for a nested response, or
with an error of `close` once it has been closed; and it goes wrong only with a reply that lies in
`this_handler` after a second task that has set something, or when a task has asked for the end of
the session or of the server. -/
theorem server_ends {c : Config} {h : List ServerImplEvent} {s : ServerImpl}
    (hrun : Run (ServerImpl.step c) anyAction {} h s) :
    (s.terminated = true → .unnamed ∈ h) ∧
      ∀ n t, s.sessions[n]? = some t →
        (t.terminated = true →
          (Unpacker.readChunks (receivedChunks (eventsOf n h))).2 = none ∨
            ∃ msg ∈ (Unpacker.readChunks (receivedChunks (eventsOf n h))).1,
              c.serve msg = .terminated) ∧
          ∀ failure, t.failure = some failure → Causes c (eventsOf n h) failure := by
  refine ⟨(ServerImpl.marks_run hrun).2, ?_⟩
  intro n t ht
  exact session_ends ((ServerImpl.session_run hrun).2 n t ht)

/-- In every run of the server, with any number of threads and connections and whoever asks it to
stop, each session serves its own stream and nothing else; and as long as the process lives and
has not been stopped from outside it accepts, unless the accept handler has once run on a thread
whose own last task had asked to stop.  A request to stop is not seen by a handler that runs on
another thread. -/
theorem server_accepts {c : Config} {h : List ServerImplEvent} {s : ServerImpl}
    (hrun : Run (ServerImpl.step c) anyAction {} h s) :
    (∀ n t, s.sessions[n]? = some t →
      postedOf (eventsOf n h) <+: (Unpacker.readChunks (receivedChunks (eventsOf n h))).1 ∧
        (ranOf (eventsOf n h) ++ t.tasks).Perm (postedOf (eventsOf n h)) ∧
        sentOfWriter (writerOf (eventsOf n h)) <+:
          packedStream ((c.replies (ranOf (eventsOf n h))).map Response.toObject)) ∧
      ∀ thread outcome, (s.step c (.accept thread outcome)).isSome = true ↔
        s.Alive ∧ .stopped ∉ h ∧ ¬∃ before t ok after,
          h = before ++ .accepted t ok :: after ∧ stopRequested before t = true := by
  refine ⟨?_, ?_⟩
  · intro n t ht
    have hs := Serves.of_run ((ServerImpl.session_run hrun).2 n t ht)
    refine ⟨hs.intake.front, hs.tasks, ?_⟩
    rw [← hs.packed]
    exact hs.queue.sent_prefix.trans (List.prefix_append _ _)
  · intro thread outcome
    have hmark := (ServerImpl.marks_run hrun).1
    rw [← (ServerImpl.accepting_run hrun).2, ← hmark, ServerImpl.step, ServerImpl.act]
    have hfinishing : (ServerImplAction.accept thread outcome).finishing = false := rfl
    rw [hfinishing]
    by_cases halive : s.Alive <;> cases s.stopped <;> cases s.accepting <;> simp [halive]

/-- A server with a function that asks it to stop. -/
def stopConfig : Config :=
  ⟨fun _ => 0, [([0x73], fun _ => { result := .ok .nil, stop := true })], false⟩

/-- A task on thread 0 asks to stop.  The handler that runs on thread 1 goes on, the next one on
thread 0 does not. -/
def stopRun : List ServerImplAction :=
  [.accept 0 .connected, .session 0 (.receive [0x93, 0x02, 0xa1, 0x73, 0x90]), .session 0 .next,
    .run 0 0 0, .accept 1 .connected, .accept 0 .connected]

abbrev stopped : ServerImpl × List ServerImplEvent :=
  afterAll (ServerImpl.step stopConfig) anyAction {} stopRun

theorem stopped_run : Run (ServerImpl.step stopConfig) anyAction {} stopped.2 stopped.1 :=
  .of_actions _ _ _ stopRun (by decide +kernel)

theorem server_accepts_stopped : ∃ before t ok after,
    stopped.2 = before ++ .accepted t ok :: after ∧ stopRequested before t = true := by
  by_contra hnone
  have hmark : .stopped ∉ stopped.2 := by
    rw [← (ServerImpl.marks_run stopped_run).1]
    decide +kernel
  have haccepts := ((server_accepts stopped_run).2 1 .connected).mpr
    ⟨by decide +kernel, hmark, hnone⟩
  have hno : (stopped.1.step stopConfig (.accept 1 .connected)).isSome = false := by
    decide +kernel
  cases hno.symm.trans haccepts

/-- A server with a function that responds with an error of its own. -/
def errorConfig : Config :=
  ⟨fun _ => 0, [([0x65], fun _ =>
    { result := .error .handlerError, handler := { error := some (.str [0x21]) } })], false⟩

/-- One thread runs two calls of it before the first response is packed. -/
def staleRun : List ServerImplAction :=
  [.accept 0 .connected, .session 0 (.receive [148, 0, 1, 161, 101, 144, 148, 0, 2, 161, 101, 144]),
    .session 0 .next, .session 0 .next, .run 0 0 0, .run 0 0 0, .strand 0]

abbrev stale : ServerImpl × List ServerImplEvent :=
  afterAll (ServerImpl.step errorConfig) anyAction {} staleRun

theorem server_ends_stale :
    (∃ msg ∈ ranOf (eventsOf 0 stale.2), errorConfig.lends msg = true) ∧
      2 ≤ touchings errorConfig (eventsOf 0 stale.2) := by
  have hrun : Run (ServerImpl.step errorConfig) anyAction {} stale.2 stale.1 :=
    .of_actions _ _ _ staleRun (by decide +kernel)
  exact ((server_ends hrun).2 0 _ (by with_unfolding_all rfl)).2 .staleReply
    (by with_unfolding_all rfl)

end PromiseDemo.Rpc
