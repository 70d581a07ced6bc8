import PromiseDemo.Framework.Budget
import PromiseDemo.Rpc.AllAnswered

/-!
# Every call is answered in the end

What the two ends do by themselves is paid for: by bytes that are read and written, by messages
that are taken off the stream, and by what is stored in queues.  So it ends, whoever goes first,
and where it ends every call has its reply.
-/

namespace PromiseDemo.Rpc

open Transition MsgPack PromiseStore Duplex

/-! ## The client's store -/

/-- A loop that runs ends. -/
def ReadPhase.store : ReadPhase → ℕ
  | .parsing => 1
  | .reading | .ended => 0

/-- What the I/O thread has in store. -/
def ClientImpl.store (c : ClientImpl) : ℕ :=
  2 * c.strand.length + c.writer.writeQueue.length + c.phase.store + (!c.terminated).toNat

/-- A response is worth the closure that erases its entry, and the turn of the loop. -/
def ClientEvent.earned : ClientEvent → ℕ
  | .responded _ => 3
  | _ => 0

theorem client_earnings (h : List ClientEvent) :
    earnings ClientEvent.earned h = 3 * (respondedOf h).length := by
  induction h with
  | nil => rfl
  | cons e h ih =>
    have hcons : earnings ClientEvent.earned (e :: h) = e.earned + earnings ClientEvent.earned h :=
      List.sum_cons
    rw [hcons, ih]
    cases e with
    | responded msg =>
      have hresponded : respondedOf (.responded msg :: h) = msg :: respondedOf h := rfl
      rw [hresponded, List.length_cons, ClientEvent.earned]
      omega
    | _ => exact Nat.zero_add _

theorem runClosure_store (c : ClientImpl) (closure : Closure) :
    (c.runClosure closure).1.store ≤ c.store + 1 := by
  have hrun := closureStep c closure
  generalize c.runClosure closure = q at hrun ⊢
  cases hrun with
  | queued =>
    simp only [ClientImpl.store, write_writeQueue, List.length_append, List.length_singleton]
    omega
  | erased => exact Nat.le_succ _

theorem client_next_store (c : ClientImpl) (halive : c.terminated = false)
    (hphase : c.phase = .parsing) :
    c.next.1.store + 1 ≤ c.store + 3 * (respondedOf c.next.2).length := by
  have hnext := nextStep c
  generalize c.next = q at hnext ⊢
  cases hnext with
  | incomplete => simp [ClientImpl.store, ReadPhase.store, hphase, halive]
  | parseError => simp [ClientImpl.store, hphase, halive]
  | malformed | repeated => simp [ClientImpl.store, hphase, halive, respondedOf]
  | answered =>
    simp only [ClientImpl.store, respondedOf, List.length_append, List.length_singleton,
      List.filterMap_cons, List.filterMap_nil]
    omega

theorem client_paid :
    Paid clientSide ClientAction.goesOn ClientImpl.store ClientEvent.earned := by
  intro c c' a es ha hstep
  rw [client_earnings, clientSide_readsOf, clientSide_writesOf]
  obtain ⟨halive, -, hact⟩ := clientStep_of_step hstep
  cases hact with
  | connected | refused | call | post | send | readError | destroy => cases ha
  | exhausts hphase hwhy => rcases hwhy with ⟨rfl, -⟩ | ⟨rfl, -⟩ <;> cases ha
  | @strand closure rest hstrand =>
    have hle := runClosure_store { c with strand := rest } closure
    have hpop : ClientImpl.store { c with strand := rest } + 2 = c.store := by
      simp only [ClientImpl.store, hstrand, List.length_cons]
      omega
    omega
  | @receive chunk hopen hphase =>
    have hpos : 0 < chunk.length := by
      cases chunk with
      | nil => cases ha
      | cons b bs => exact Nat.succ_pos _
    simp only [ClientImpl.store, hphase, ReadPhase.store, chunksOf, List.filterMap_cons,
      List.filterMap_nil, List.flatten_singleton]
    omega
  | next hphase =>
    have hle := client_next_store c halive hphase
    omega
  | @io a b w ws hwrite hclose hw hio =>
    have hstore : ClientImpl.store { c with writer := w } + c.writer.writeQueue.length =
        c.store + w.writeQueue.length := by
      simp only [ClientImpl.store]
      omega
    rw [wroteOf_map_writer]
    cases a with
    | transfer count =>
      cases hio
      obtain ⟨hlen, hpos, hqueue⟩ := transfer_events hw
      rw [hqueue] at hstore
      omega
    | written =>
      cases hio
      obtain ⟨-, hqueue⟩ := written_events hw
      omega
    | failed => cases ha
    | _ => cases hio

/-! ## The session's store -/

/-- What comes of a request: a `close` posts two closures, and `close_sessions` leaves a `close`
to be done. -/
def Request.store : Request → ℕ
  | .close => 3
  | .closeSessions => 4

/-- What the strand does for a post, and what it posts meanwhile. -/
def Posted.store : Posted → ℕ
  | .write _ _ => 2
  | .request r => r.store
  | .shutdown | .leave => 1

/-- The requests that a task has still to post. -/
def endingStore (e : Request × List Request) : ℕ := ((e.1 :: e.2).map fun r => r.store + 1).sum

/-- What the threads of the server have in store for a session. -/
def ServerSession.store (s : ServerSession) : ℕ :=
  12 * s.tasks.length + (s.ending.map endingStore).sum + (s.strand.map Posted.store).sum +
    s.writer.writeQueue.length + s.phase.store + 3 * s.closing.toNat + (!s.terminated).toNat +
    s.failure.isNone.toNat

/-- A message is worth a task and what the task posts. -/
def ServerSessionEvent.earned : ServerSessionEvent → ℕ
  | .posted _ => 13
  | _ => 0

theorem session_earnings (h : List ServerSessionEvent) :
    earnings ServerSessionEvent.earned h = 13 * (postedOf h).length := by
  induction h with
  | nil => rfl
  | cons e h ih =>
    have hcons : earnings ServerSessionEvent.earned (e :: h) =
        e.earned + earnings ServerSessionEvent.earned h := List.sum_cons
    rw [hcons, ih]
    cases e with
    | posted msg =>
      have hposted : postedOf (.posted msg :: h) = msg :: postedOf h := rfl
      rw [hposted, List.length_cons, ServerSessionEvent.earned]
      omega
    | _ => exact Nat.zero_add _

theorem close_store (s : ServerSession) : s.close.store = s.store + 2 := by
  simp only [ServerSession.store, ServerSession.close, List.map_append, List.sum_append,
    List.map_cons, List.map_nil, Posted.store, List.sum_cons, List.sum_nil]
  omega

theorem closeSessions_store (s : ServerSession) : s.closeSessions.store ≤ s.store + 3 := by
  unfold ServerSession.closeSessions
  split_ifs
  · simp only [ServerSession.store, Bool.toNat_true]
    omega
  · exact Nat.le_add_right _ _

theorem reuse_store (thread : ℕ) (handler : ThisHandler) (ps : List Posted) :
    (ps.map (Posted.reuse thread handler)).map Posted.store = ps.map Posted.store := by
  rw [List.map_map]
  apply List.map_congr_left
  intro p _
  cases p <;> rfl

theorem session_next_store (s : ServerSession) (halive : s.Alive) (hphase : s.phase = .parsing) :
    s.next.1.store + 1 ≤ s.store + 13 * (postedOf s.next.2).length := by
  obtain ⟨hrunning, -⟩ := halive
  have hturn := sessionTurn s
  generalize s.next = q at hturn ⊢
  cases hturn with
  | closed | incomplete =>
    simp only [ServerSession.store, ReadPhase.store, hphase]
    omega
  | posted =>
    simp only [ServerSession.store, postedOf, List.length_append, List.length_singleton,
      List.filterMap_cons, List.filterMap_nil]
    omega
  | parseError =>
    simp only [ServerSession.store, hrunning, Bool.not_true, Bool.not_false, Bool.toNat_true,
      Bool.toNat_false]
    omega

theorem taskRequests_store (exit stop : Bool) :
    ((taskRequests exit stop).map endingStore).sum ≤ 9 := by
  cases exit <;> cases stop <;> simp [taskRequests, endingStore, Request.store]

theorem runTask_store {cfg : Config} {s : ServerSession} (halive : s.Alive) {thread i : ℕ}
    {msg : Object} (hmsg : s.tasks[i]? = some msg) :
    (s.runTask cfg thread i msg).1.store + 1 ≤ s.store := by
  obtain ⟨hrunning, -⟩ := halive
  unfold ServerSession.runTask
  split
  · simp only [ServerSession.store, hrunning, Bool.not_true, Bool.not_false, Bool.toNat_true,
      Bool.toNat_false]
    omega
  · next reply exit stop _ =>
    have hlen : (s.tasks.eraseIdx i).length + 1 = s.tasks.length := by
      have hi := (List.getElem?_eq_some_iff.mp hmsg).1
      rw [List.length_eraseIdx_of_lt hi]
      omega
    have hreply : ((reply.toList.map fun resp =>
        Posted.write resp ((cfg.handler msg).storage thread)).map Posted.store).sum ≤ 2 := by
      cases reply <;> simp [Posted.store]
    have hrequests := taskRequests_store exit stop
    simp only [ServerSession.store, List.map_append, List.sum_append, reuse_store]
    omega

theorem post_store {s : ServerSession} {j : ℕ} {r : Request} {rest : List Request}
    (hj : s.ending[j]? = some (r, rest)) : (s.post j r rest).store + 1 = s.store := by
  obtain ⟨hlt, hget⟩ := List.getElem?_eq_some_iff.mp hj
  have hsplit : s.ending.take j ++ (r, rest) :: s.ending.drop (j + 1) = s.ending := by
    rw [← hget, List.cons_getElem_drop_succ, List.take_append_drop]
  have hparts : (s.ending.map endingStore).sum = ((s.ending.take j).map endingStore).sum +
      (endingStore (r, rest) + ((s.ending.drop (j + 1)).map endingStore).sum) := by
    conv_lhs => rw [← hsplit]
    rw [List.map_append, List.sum_append, List.map_cons, List.sum_cons]
  cases rest with
  | nil =>
    simp only [ServerSession.store, ServerSession.post, List.map_append, List.sum_append,
      List.eraseIdx_eq_take_drop_succ, List.map_cons, List.map_nil, List.sum_cons, List.sum_nil,
      Posted.store, endingStore] at hparts ⊢
    omega
  | cons q rest =>
    simp only [ServerSession.store, ServerSession.post, List.map_append, List.sum_append,
      List.set_eq_take_append_cons_drop, if_pos hlt, List.map_cons, List.map_nil, List.sum_cons,
      List.sum_nil, Posted.store, endingStore] at hparts ⊢
    omega

theorem runPosted_store (s : ServerSession) (p : Posted) :
    (s.runPosted p).1.store + 1 ≤ s.store + p.store := by
  cases p with
  | write resp storage =>
    simp only [ServerSession.runPosted, ServerSession.store, write_writeQueue, List.length_append,
      List.length_singleton, Posted.store]
    omega
  | request r =>
    cases r with
    | close =>
      rw [ServerSession.runPosted, close_store, Posted.store, Request.store]
    | closeSessions =>
      rw [ServerSession.runPosted, Posted.store, Request.store]
      exact Nat.succ_le_succ (closeSessions_store s)
  | shutdown | leave => exact Nat.le_refl _

/-- The session's own steps are paid for. -/
theorem session_paid (cfg : Config) : Paid (serverSide cfg) ServerSessionAction.goesOn
    ServerSession.store ServerSessionEvent.earned := by
  intro s s' a es ha hstep
  rw [session_earnings]
  obtain ⟨halive, hact⟩ := sessionStep_of_step hstep
  cases hact with
  | @receive chunk hphase =>
    have hpos : 0 < chunk.length := by
      cases chunk with
      | nil => cases ha
      | cons b bs => exact Nat.succ_pos _
    unfold ServerSession.receive
    split_ifs
    all_goals
      simp only [ServerSession.store, hphase, ReadPhase.store, Endpoint.readsOf, serverSide,
        List.flatMap_cons, List.flatMap_nil, List.append_nil]
      omega
  | next hphase =>
    have hle := session_next_store s halive hphase
    omega
  | fails hfails =>
    cases hfails with
    | refused | overflow | closeFails => cases ha
    | strand =>
      simp only [ServerSession.store, halive.2, Option.isNone_some, Option.isNone_none,
        Bool.toNat_true, Bool.toNat_false]
      omega
  | lost hphase hlost => rcases hlost with rfl | rfl <;> cases ha
  | disconnect | reuse | closeSessions => cases ha
  | @run thread i msg hmsg =>
    have hle : (s.runTask cfg thread i msg).1.store + 1 ≤ s.store := runTask_store halive hmsg
    omega
  | post hj =>
    have heq := post_store hj
    omega
  | closeTaken hclosing =>
    rw [close_store]
    simp only [ServerSession.store, hclosing, Bool.toNat_true, Bool.toNat_false]
    omega
  | @strand p rest hstrand =>
    have hle := runPosted_store { s with strand := rest } p
    have hpop : ServerSession.store { s with strand := rest } + p.store = s.store := by
      simp only [ServerSession.store, hstrand, List.map_cons, List.sum_cons]
      omega
    omega
  | @io a b w ws hwrite hclose hw hio =>
    have hstore : ServerSession.store { s with writer := w } + s.writer.writeQueue.length =
        s.store + w.writeQueue.length := by
      simp only [ServerSession.store]
      omega
    rw [serverSide_writesOf, writerOf_map_writer]
    cases a with
    | transfer count =>
      cases hio
      obtain ⟨hlen, hpos, hqueue⟩ := transfer_events hw
      rw [hqueue] at hstore
      omega
    | written =>
      cases hio
      obtain ⟨-, hqueue⟩ := written_events hw
      omega
    | failed => cases ha
    | _ => cases hio

/-! ## The bound -/

/-- The bytes of the replies to a list of messages. -/
def replyBytes (cfg : Config) (msgs : List Object) : ℕ :=
  ((cfg.replies msgs).map Response.getData).flatten.length

theorem replyBytes_append (cfg : Config) (msgs msgs' : List Object) :
    replyBytes cfg (msgs ++ msgs') = replyBytes cfg msgs + replyBytes cfg msgs' := by
  rw [replyBytes, Config.replies, List.filterMap_append, List.map_append, List.flatten_append,
    List.length_append]
  rfl

theorem replyBytes_perm (cfg : Config) {msgs msgs' : List Object} (h : msgs.Perm msgs') :
    replyBytes cfg msgs = replyBytes cfg msgs' :=
  ((h.filterMap cfg.replyTo).map Response.getData).flatten.length_eq

/-- How many steps the two ends can take by themselves: what they have in store, and what the
requests that have been posted can bring. -/
def Conversation.budget (cfg : Config) (h : List ConversationEvent) (p : Conversation) : ℕ :=
  p.store ClientImpl.store ServerSession.store +
    3 * ((requestedOf (lefts h)).flatten.length + replyBytes cfg (requestObjects (lefts h))) +
    16 * (requestObjects (lefts h)).length

namespace Conversing

variable {cfg : Config} {h : List ConversationEvent} {p : Conversation}

theorem bounded (hc : Conversing cfg h p) (hm : Moderate cfg (lefts h)) :
    (clientSide.writesOf (lefts h)).length ≤ (requestedOf (lefts h)).flatten.length ∧
      ((serverSide cfg).writesOf (rights h)).length ≤
        replyBytes cfg (requestObjects (lefts h)) ∧
      (respondedOf (lefts h)).length ≤ (requestObjects (lefts h)).length ∧
      (postedOf (rights h)).length ≤ (requestObjects (lefts h)).length := by
  obtain ⟨rest, hrest⟩ := hc.posted_requests hm
  have hserved := hc.serves.tasks
  have hposted := (hc.posted_requests hm).length_le
  refine ⟨?_, ?_, ?_, hposted⟩
  · obtain ⟨more, hmore⟩ := hc.books.front
    have hlen := hc.books.queue.sent_prefix.length_le
    rw [clientSide_writesOf, ← hmore, List.flatten_append, List.length_append]
    omega
  · have hlen := hc.serves.queue.sent_prefix.length_le
    have hreplies : (queuedOf (writerOf (rights h))).flatten.length ≤
        replyBytes cfg (ranOf (rights h)) := by
      rw [replyBytes, ← hc.serves.replies, List.flatten_append, List.length_append]
      exact Nat.le_add_right _ _
    have hran : replyBytes cfg (ranOf (rights h)) ≤ replyBytes cfg (postedOf (rights h)) := by
      rw [← replyBytes_perm cfg hserved, replyBytes_append]
      exact Nat.le_add_right _ _
    rw [serverSide_writesOf, ← hrest, replyBytes_append]
    omega
  · have hlen := (hc.responded_front hm).length_le
    have hreplies : (cfg.replies (ranOf (rights h))).length ≤ (ranOf (rights h)).length :=
      List.length_filterMap_le _ _
    have hran := hserved.length_eq
    rw [List.length_map] at hlen
    rw [List.length_append] at hran
    omega

end Conversing

/-! ## Nothing is disturbed -/

/-- The event is the doing of a user of the client. -/
def ClientEvent.byUser : ClientEvent → Bool
  | .numbered _ | .issued _ _ _ _ | .notified _ _ => true
  | _ => false

theorem not_byUser {es : List ClientEvent} (hes : ∀ e ∈ es, e.byUser = false) :
    numbersOf es = [] ∧ requestObjects es = [] := by
  constructor
  · rw [numbersOf, List.filterMap_eq_nil_iff]
    intro e he
    cases e with
    | numbered idx => cases hes _ he
    | _ => rfl
  · rw [requestObjects, List.filterMap_eq_nil_iff]
    intro e he
    cases e with
    | issued p idx funcName args => cases hes _ he
    | notified funcName args => cases hes _ he
    | _ => rfl

theorem runClosure_events (c : ClientImpl) (closure : Closure) :
    ∀ e ∈ (c.runClosure closure).2, e.byUser = false ∧ e ≠ .writer .writeFailed := by
  have hrun := closureStep c closure
  generalize c.runClosure closure = q at hrun ⊢
  have hbroken : ∀ {es : List ClientEvent}, (∀ e ∈ es, ∃ q, e = .resolved q .brokenPromise) →
      ∀ e ∈ es, e.byUser = false ∧ e ≠ .writer .writeFailed := by
    intro es hes e he
    obtain ⟨p, rfl⟩ := hes e he
    exact ⟨rfl, by simp⟩
  cases hrun with
  | queued _ _ _ hes =>
    intro e he
    rcases List.mem_append.mp he with hres | hqueued
    · exact hbroken hes e hres
    · rw [List.mem_singleton.mp hqueued]
      exact ⟨rfl, by simp⟩
  | erased _ _ hes => exact hbroken hes

theorem next_events (c : ClientImpl) :
    ∀ e ∈ c.next.2, e.byUser = false ∧ e ≠ .writer .writeFailed := by
  have hnext := nextStep c
  generalize c.next = q at hnext ⊢
  cases hnext <;> simp [ClientEvent.byUser]

theorem client_next_phase (c : ClientImpl) (hphase : c.phase = .parsing) :
    c.next.1.phase ≠ .ended := by
  have hnext := nextStep c
  generalize c.next = q at hnext ⊢
  cases hnext <;> simp [hphase]

theorem client_quiet {c c' : ClientImpl} {a : ClientAction} {es : List ClientEvent}
    (ha : a.goesOn = true) (hstep : c.step a = some (c', es)) :
    ∀ e ∈ es, e.byUser = false ∧ e ≠ .writer .writeFailed := by
  obtain ⟨-, -, hact⟩ := clientStep_of_step hstep
  cases hact with
  | connected | refused | call | post | send | readError | destroy => cases ha
  | exhausts hphase hwhy => rcases hwhy with ⟨rfl, -⟩ | ⟨rfl, -⟩ <;> cases ha
  | strand hstrand => exact runClosure_events _ _
  | receive hopen hreading =>
    intro e he
    rw [List.mem_singleton.mp he]
    exact ⟨rfl, by simp⟩
  | next hparsing => exact next_events c
  | @io a b w ws hwrite hclose hw hio =>
    intro e he
    obtain ⟨x, hx, rfl⟩ := List.mem_map.mp he
    refine ⟨rfl, ?_⟩
    intro hfailed
    cases hfailed
    obtain ⟨front, back, rfl⟩ := List.append_of_mem hx
    obtain ⟨rfl, -⟩ := failed_event hw
    cases a with
    | failed => cases ha
    | _ => cases hio

theorem client_goesOn {c c' : ClientImpl} {a : ClientAction} {es : List ClientEvent}
    (ha : a.goesOn = true) (hphase : c.phase ≠ .ended) (hstep : c.step a = some (c', es)) :
    c'.phase ≠ .ended ∧ c'.isConnected = c.isConnected ∧ c'.destroyed = c.destroyed ∧
      c'.exhausted = c.exhausted := by
  obtain ⟨-, -, hact⟩ := clientStep_of_step hstep
  cases hact with
  | connected | refused | call | post | send | readError | destroy => cases ha
  | exhausts hphase hwhy => rcases hwhy with ⟨rfl, -⟩ | ⟨rfl, -⟩ <;> cases ha
  | @strand closure rest hstrand =>
    obtain ⟨hsame, hconn, hkept⟩ := runClosure_phase { c with strand := rest } closure
    refine ⟨?_, hconn, hkept, runClosure_well _ _⟩
    rw [hsame]
    exact hphase
  | receive hopen hreading => exact ⟨by simp, rfl, rfl, rfl⟩
  | next hparsing =>
    obtain ⟨hconn, hkept⟩ := next_connected c
    exact ⟨client_next_phase c hparsing, hconn, hkept, next_well c⟩
  | io => exact ⟨hphase, rfl, rfl, rfl⟩

/-- All that a session has left to do besides its tasks is to write responses. -/
structure ServerSession.Writes (s : ServerSession) : Prop where
  posts : ∀ x ∈ s.strand, ∃ resp storage, x = .write resp storage
  ending : s.ending = []
  closing : s.closing = false

theorem ServerSession.Writes.reuse {s : ServerSession} (hs : s.Writes) {thread : ℕ}
    {handler : ThisHandler} {x : Posted} (hx : x ∈ s.strand.map (Posted.reuse thread handler)) :
    ∃ resp storage, x = .write resp storage := by
  obtain ⟨y, hy, rfl⟩ := List.mem_map.mp hx
  obtain ⟨resp, storage, rfl⟩ := hs.posts y hy
  exact ⟨resp, storage.reuse thread handler, rfl⟩

theorem session_goesOn {cfg : Config} {s s' : ServerSession} {a : ServerSessionAction}
    {es : List ServerSessionEvent} (ha : a.goesOn = true) (hphase : s.phase ≠ .ended)
    (hexit : s.writer.exit = false) (hwrites : s.Writes)
    (hplain : ∀ msg ∈ s.tasks, ∃ reply, cfg.serve msg = .finished reply false false)
    (hparses : s.phase = .parsing → s.unpacker.next ≠ .parseError)
    (hstep : s.step cfg a = some (s', es)) (hfailure : s'.failure = none) :
    (s'.phase ≠ .ended ∧ s'.Alive ∧ s'.socketOpen = s.socketOpen ∧ s'.writer.exit = false) ∧
      s'.Writes ∧ .writeFailed ∉ writerOf es := by
  have hopen : ¬s.writer.exit = true := by
    rw [hexit]
    exact Bool.false_ne_true
  obtain ⟨halive, hact⟩ := sessionStep_of_step hstep
  cases hact with
  | receive hreading =>
    rw [ServerSession.receive, if_neg hopen]
    exact ⟨⟨by simp, halive, rfl, hexit⟩, ⟨hwrites.posts, hwrites.ending, hwrites.closing⟩,
      by simp [writerOf]⟩
  | next hparsing =>
    have hturn := sessionTurn s
    generalize s.next = q at hturn ⊢
    cases hturn with
    | closed unpacker hclosed => exact absurd hclosed hopen
    | posted =>
      exact ⟨⟨hphase, halive, rfl, hexit⟩, ⟨hwrites.posts, hwrites.ending, hwrites.closing⟩,
        by simp [writerOf]⟩
    | incomplete =>
      exact ⟨⟨by simp, halive, rfl, hexit⟩, ⟨hwrites.posts, hwrites.ending, hwrites.closing⟩,
        by simp [writerOf]⟩
    | parseError hnext => exact absurd hnext (hparses hparsing)
  | fails => cases hfailure
  | lost hreading hlost => rcases hlost with rfl | rfl <;> cases ha
  | disconnect | reuse | closeSessions => cases ha
  | post hj =>
    rw [hwrites.ending] at hj
    cases hj
  | closeTaken hclosing => cases hwrites.closing.symm.trans hclosing
  | run hmsg =>
    obtain ⟨reply, hserve⟩ := hplain _ (List.mem_of_getElem? hmsg)
    unfold ServerSession.runTask
    rw [hserve]
    refine ⟨⟨hphase, halive, rfl, hexit⟩, ⟨?_, ?_, hwrites.closing⟩, by simp [writerOf]⟩
    · intro x hx
      rcases List.mem_append.mp hx with hold | hnew
      · exact hwrites.reuse hold
      · obtain ⟨resp, -, rfl⟩ := List.mem_map.mp hnew
        exact ⟨resp, _, rfl⟩
    · exact (List.append_nil _).trans hwrites.ending
  | @strand p rest hstrand =>
    have hposts := hwrites.posts
    rw [hstrand] at hposts
    obtain ⟨resp, storage, rfl⟩ := hposts p (List.mem_cons_self ..)
    refine ⟨⟨hphase, halive, rfl, ?_⟩, ⟨fun x hx => hposts x (List.mem_cons_of_mem _ hx),
      hwrites.ending, hwrites.closing⟩, ?_⟩
    · exact (write_exit _ _).trans hexit
    · simp [ServerSession.runPosted, writerOf]
  | @io a b w ws hwrite hclose hw hio =>
    refine ⟨⟨hphase, halive, rfl, (step_exit hclose hw).trans hexit⟩,
      ⟨hwrites.posts, hwrites.ending, hwrites.closing⟩, ?_⟩
    rw [writerOf_map_writer]
    intro hfailed
    obtain ⟨front, back, rfl⟩ := List.append_of_mem hfailed
    obtain ⟨rfl, -⟩ := failed_event hw
    cases a with
    | failed => cases ha
    | _ => cases hio

/-! ## Until nothing more happens -/

/-- The conversation is up, and all that is left to do is to write responses. -/
structure Steady (h : List ConversationEvent) (p : Conversation) : Prop where
  up : Up h p
  writes : p.right.Writes

/-- No request asks the server to close anything, and none ends it. -/
def Plain (cfg : Config) (h : List ClientEvent) : Prop :=
  ∀ o ∈ requestObjects h, ∃ reply, cfg.serve o = .finished reply false false

theorem Moderate.quiet {cfg : Config} {h es : List ConversationEvent} (hm : Moderate cfg (lefts h))
    (hnumbers : numbersOf (lefts es) = []) (hobjects : requestObjects (lefts es) = []) :
    Moderate cfg (lefts (h ++ es)) := by
  have hsame : requestObjects (lefts (h ++ es)) = requestObjects (lefts h) := by
    rw [lefts_append, requestObjects_append, hobjects, List.append_nil]
  refine ⟨?_, ?_, ?_⟩
  · rw [lefts_append, numbersOf_append, hnumbers, List.append_nil]
    exact hm.few
  · rw [hsame]
    exact hm.requests
  · rw [hsame]
    exact hm.replies

theorem Conversing.parses {cfg : Config} {h : List ConversationEvent} {p : Conversation}
    (hc : Conversing cfg h p) (hm : Moderate cfg (lefts h)) (hphase : p.right.phase = .parsing) :
    p.right.unpacker.next ≠ .parseError := by
  intro hfails
  obtain ⟨qs, ss, hsplit, hqueued, -⟩ := hc.requests_split
  obtain ⟨ds, u, hread, -⟩ := hc.session_front hm hsplit hqueued
  have hintake := hc.serves.intake
  rw [hphase] at hintake
  have hnone := hintake.fails hfails
  rw [hread] at hnone
  cases hnone

theorem own_quiet {cfg : Config} {es : List ConversationEvent} {p q : Conversation}
    {a : ConversationAction} (ha : ownAction a = true)
    (hstep : Conversation.step cfg p a = some (q, es)) :
    numbersOf (lefts es) = [] ∧ requestObjects (lefts es) = [] := by
  cases a with
  | inl a =>
    obtain ⟨c, ls, hleft, -, -, rfl, -⟩ := step_inl.mp hstep
    rw [lefts_map_inl]
    exact not_byUser fun e he => (client_quiet ha hleft e he).1
  | inr a =>
    obtain ⟨s, rs, -, -, -, rfl, -⟩ := step_inr.mp hstep
    rw [lefts_map_inr]
    exact ⟨rfl, rfl⟩

theorem failure_before {cfg : Config} {es : List ConversationEvent} {p q : Conversation}
    {a : ConversationAction} (hstep : Conversation.step cfg p a = some (q, es))
    (hfailure : q.right.failure = none) : p.right.failure = none := by
  cases a with
  | inl a =>
    obtain ⟨c, ls, -, -, -, -, hq⟩ := step_inl.mp hstep
    rw [hq] at hfailure
    exact hfailure
  | inr a =>
    obtain ⟨s, rs, hright, -⟩ := step_inr.mp hstep
    exact (sessionStep_of_step hright).1.2

theorem Steady.step {cfg : Config} {h es : List ConversationEvent} {p q : Conversation}
    (hs : Steady h p) (hc : Conversing cfg h p) (hm : Moderate cfg (lefts h))
    (hplain : Plain cfg (lefts h)) {a : ConversationAction} (ha : ownAction a = true)
    (hstep : Conversation.step cfg p a = some (q, es)) (hfailure : q.right.failure = none) :
    Steady (h ++ es) q := by
  have hup := hs.up
  cases a with
  | inl a =>
    obtain ⟨c, ls, hleft, -, -, rfl, hq⟩ := step_inl.mp hstep
    obtain ⟨hphase, hconn, hkept, hwell⟩ := client_goesOn ha hup.reading hleft
    have hevents := client_quiet ha hleft
    have hforthOk : .writeFailed ∉ wroteOf ls := by
      intro hmem
      obtain ⟨e, he, heq⟩ := List.mem_filterMap.mp hmem
      cases e with
      | writer e =>
        cases heq
        exact (hevents _ he).2 rfl
      | _ => cases heq
    rw [hq]
    refine ⟨⟨hconn.trans hup.connected, hphase, hkept.trans hup.kept, hwell.trans hup.well,
      hup.serving, hup.running, hup.opened, hup.exit, ?_, ?_, hup.forthRoom, hup.backRoom⟩,
      hs.writes⟩
    · rw [lefts_append, lefts_map_inl, wroteOf_append, List.mem_append, not_or]
      exact ⟨hup.forthOk, hforthOk⟩
    · rw [rights_append, rights_map_inl, List.append_nil]
      exact hup.backOk
  | inr a =>
    obtain ⟨s, rs, hright, -, -, rfl, hq⟩ := step_inr.mp hstep
    rw [hq] at hfailure ⊢
    have htasks : ∀ msg ∈ p.right.tasks, ∃ reply, cfg.serve msg = .finished reply false false := by
      intro msg hmsg
      apply hplain
      apply (hc.posted_requests hm).subset
      exact hc.serves.tasks.subset (List.mem_append_right _ hmsg)
    obtain ⟨⟨hphase, hrunning, hopened, hexit⟩, hwrites, hok⟩ := session_goesOn ha hup.serving
      hup.exit hs.writes htasks (hc.parses hm) hright hfailure
    refine ⟨⟨hup.connected, hup.reading, hup.kept, hup.well, hphase, hrunning,
      hopened.trans hup.opened, hexit, ?_, ?_, hup.forthRoom, hup.backRoom⟩, hwrites⟩
    · rw [lefts_append, lefts_map_inr, List.append_nil]
      exact hup.forthOk
    · rw [rights_append, rights_map_inr, writerOf_append, List.mem_append, not_or]
      exact ⟨hup.backOk, hok⟩

theorem Conversing.onward {cfg : Config} {allowed : Conversation → ConversationAction → Prop}
    {h k : List ConversationEvent} {p q : Conversation} (hc : Conversing cfg h p)
    (hrun : Run (Conversation.step cfg) allowed p k q) : Conversing cfg (h ++ k) q := by
  induction hrun with
  | refl =>
    rw [List.append_nil]
    exact hc
  | tail _ _ hstep ih =>
    rw [← List.append_assoc]
    exact ih.step hstep

theorem Steady.kept {cfg : Config} {h k : List ConversationEvent} {p q : Conversation}
    {as : List ConversationAction} (hs : Steady h p) (hc : Conversing cfg h p)
    (hm : Moderate cfg (lefts h)) (hplain : Plain cfg (lefts h))
    (hexec : exec (Conversation.step cfg) (fun _ a => ownAction a = true) p as = some (q, k)) :
    (q.right.failure = none → Steady (h ++ k) q) ∧ numbersOf (lefts k) = [] ∧
      requestObjects (lefts k) = [] := by
  have hrun := Run.of_exec hexec
  clear hexec
  induction hrun with
  | refl =>
    rw [List.append_nil]
    exact ⟨fun _ => hs, rfl, rfl⟩
  | @tail k es u q a hfront ha hstep ih =>
    obtain ⟨hsteady, hnumbers, hobjects⟩ := ih
    obtain ⟨hnumbers', hobjects'⟩ := own_quiet ha hstep
    have hsame : requestObjects (lefts (h ++ k)) = requestObjects (lefts h) := by
      rw [lefts_append, requestObjects_append, hobjects, List.append_nil]
    have hplain' : Plain cfg (lefts (h ++ k)) := by
      rw [Plain, hsame]
      exact hplain
    rw [lefts_append, numbersOf_append, requestObjects_append, hnumbers, hobjects, hnumbers',
      hobjects']
    refine ⟨?_, rfl, rfl⟩
    intro hfailure
    rw [← List.append_assoc]
    exact (hsteady (failure_before hstep hfailure)).step (hc.onward hfront)
      (hm.quiet hnumbers hobjects) hplain' ha hstep hfailure

/-- By itself a server fails only by what its strand runs. -/
theorem own_failure {cfg : Config} {k : List ConversationEvent} {p q : Conversation}
    (hfailure : p.right.failure = none)
    (hrun : Run (Conversation.step cfg) (fun _ a => ownAction a = true) p k q) :
    ∀ failure, q.right.failure = some failure →
      failure = .staleReply ∨ failure = .freedSession := by
  induction hrun with
  | refl =>
    intro failure hsome
    cases hfailure.symm.trans hsome
  | @tail k u q a es _ ha hstep ih =>
    cases a with
    | inl a =>
      obtain ⟨c, ls, -, -, -, -, hq⟩ := step_inl.mp hstep
      rw [hq]
      exact ih
    | inr a =>
      obtain ⟨s, rs, hright, -, -, -, hq⟩ := step_inr.mp hstep
      rw [hq]
      intro failure hsome
      rcases session_failure hright with hnone | ⟨failure', hsome', hfails⟩
      · cases hnone.symm.trans hsome
      · cases hsome'.symm.trans hsome
        cases hfails with
        | refused | overflow | closeFails => cases ha
        | strand hwrong =>
          unfold ServerSession.wrong at hwrong
          split at hwrong
          · cases hwrong
            exact .inl rfl
          · split_ifs at hwrong
            cases hwrong
            exact .inr rfl
          · cases hwrong

theorem Steady.unfailed {cfg : Config} {h k : List ConversationEvent} {p q : Conversation}
    {as : List ConversationAction} (hs : Steady h p) (hc : Conversing cfg h p)
    (hm : Moderate cfg (lefts h)) (hplain : Plain cfg (lefts h))
    (hexec : exec (Conversation.step cfg) (fun _ a => ownAction a = true) p as = some (q, k))
    (hfew : touchings cfg (rights (h ++ k)) ≤ 1) : q.right.failure = none := by
  have hc' := hc.onward (Run.of_exec hexec)
  obtain ⟨-, hnumbers, hobjects⟩ := hs.kept hc hm hplain hexec
  have hm' := hm.quiet hnumbers hobjects
  rw [Option.eq_none_iff_forall_ne_some]
  intro failure hsome
  have hcause := hc'.traced.failure failure hsome
  rcases own_failure hs.up.running.2 (Run.of_exec hexec) failure hsome with rfl | rfl
  · exact absurd hcause.2 (by omega)
  · obtain ⟨msg, hmsg, hasks⟩ := hcause
    have hrequest := (hc'.posted_requests hm').subset (hc'.ran_posted hmsg)
    rw [lefts_append, requestObjects_append, hobjects, List.append_nil] at hrequest
    obtain ⟨reply, hserve⟩ := hplain msg hrequest
    rw [Config.asksToEnd, hserve] at hasks
    cases hasks

/-- What the two ends do by themselves ends within the budget. -/
theorem Conversing.exec_bounded {cfg : Config} {h k : List ConversationEvent} {p q : Conversation}
    {as : List ConversationAction} (hc : Conversing cfg (h ++ k) q)
    (hm : Moderate cfg (lefts (h ++ k)))
    (hobjects : requestObjects (lefts (h ++ k)) = requestObjects (lefts h))
    (hrequested : requestedOf (lefts (h ++ k)) = requestedOf (lefts h))
    (hexec : exec (Conversation.step cfg) (fun _ a => ownAction a = true) p as = some (q, k)) :
    as.length ≤ p.budget cfg h := by
  have hpaid := client_paid.exec (session_paid cfg) hexec
  obtain ⟨hforth, hback, hresponded, hposted⟩ := hc.bounded hm
  rw [client_earnings, session_earnings] at hpaid
  rw [hrequested, lefts_append, Endpoint.writesOf_append, List.length_append] at hforth
  rw [hobjects, rights_append, Endpoint.writesOf_append, List.length_append] at hback
  rw [hobjects, lefts_append, respondedOf_append, List.length_append] at hresponded
  rw [hobjects, rights_append, postedOf_append, List.length_append] at hposted
  unfold Conversation.budget
  omega

/-- What the two ends do by themselves ends, and leaves every call with its reply. -/
theorem Steady.answered {cfg : Config} {forthCap backCap : Option ℕ}
    {h k : List ConversationEvent} {p q : Conversation} {as : List ConversationAction}
    (hs : Steady h p) (hrun : Run (Conversation.step cfg) anyAction (.start forthCap backCap) h p)
    (hm : Moderate cfg (lefts h)) (hplain : Plain cfg (lefts h))
    (hexec : exec (Conversation.step cfg) (fun _ a => ownAction a = true) p as = some (q, k)) :
    as.length ≤ p.budget cfg h ∧
      (q.Quiet cfg → q.right.failure = none →
        ∀ i idx funcName args, .issued i idx funcName args ∈ lefts h →
          resultsOf i (lefts (h ++ k)) =
            ((cfg.replyTo (callObject idx funcName args)).map fun r =>
              r.outcomeFor funcName).toList) := by
  have hc := Conversing.of_run hrun
  obtain ⟨hs', hnumbers, hobjects⟩ := hs.kept hc hm hplain hexec
  have hrun' := hrun.trans (Run.of_exec hexec).any
  have hc' := Conversing.of_run hrun'
  have hsame : requestObjects (lefts (h ++ k)) = requestObjects (lefts h) := by
    rw [lefts_append, requestObjects_append, hobjects, List.append_nil]
  have hrequested : requestedOf (lefts (h ++ k)) = requestedOf (lefts h) := by
    rw [hc'.numbering.requestedOf_eq, hsame, hc.numbering.requestedOf_eq]
  have hm' : Moderate cfg (lefts (h ++ k)) := hm.quiet hnumbers hobjects
  refine ⟨hc'.exec_bounded hm' hsame hrequested hexec, ?_⟩
  intro hquiet hfailure i idx funcName args hmem
  apply hc'.results_at_rest hm' (Conversing.faithful_of_run hrun' hm') (hs' hfailure).up hquiet
  rw [lefts_append]
  exact List.mem_append_left _ hmem

/-- Once calls have been posted they are answered: however the two ends, the workers and the
channels take turns, after a bounded number of steps neither end can do anything, and then every
call has its reply, unless the server has failed. -/
theorem eventually_answered {cfg : Config} {forthCap backCap : Option ℕ}
    {h : List ConversationEvent} {p : Conversation}
    (hrun : Run (Conversation.step cfg) anyAction (.start forthCap backCap) h p)
    (hm : Moderate cfg (lefts h)) (hplain : Plain cfg (lefts h)) (hs : Steady h p) :
    (∀ as q k, exec (Conversation.step cfg) (fun _ a => ownAction a = true) p as = some (q, k) →
      as.length ≤ p.budget cfg h ∧
        (q.Quiet cfg → q.right.failure = none →
          ∀ i idx funcName args, .issued i idx funcName args ∈ lefts h →
            resultsOf i (lefts (h ++ k)) =
              ((cfg.replyTo (callObject idx funcName args)).map fun r =>
                r.outcomeFor funcName).toList)) ∧
      ∃ as q k, exec (Conversation.step cfg) (fun _ a => ownAction a = true) p as = some (q, k) ∧
        q.Quiet cfg := by
  constructor
  · intro as q k hexec
    exact hs.answered hrun hm hplain hexec
  · apply exec_maximal
    intro as q k hexec
    exact (hs.answered hrun hm hplain hexec).1

theorem ping_steady : Steady (pinged pingCall).2 (pinged pingCall).1 where
  up := {
    connected := rfl
    reading := nofun
    kept := rfl
    well := rfl
    serving := nofun
    running := ⟨rfl, rfl⟩
    opened := rfl
    exit := rfl
    forthOk := nofun
    backOk := nofun
    forthRoom := rfl
    backRoom := rfl }
  writes := ⟨nofun, rfl, rfl⟩

theorem ping_plain : Plain pingConfig (lefts (pinged pingCall).2) := by
  intro o ho
  obtain rfl : o = callObject 1 [0x66] [] := List.mem_singleton.mp ho
  exact ⟨some (.makeResult 1 (.boolean true)), rfl⟩

theorem eventually_answered_ping :
    (∀ as q k, exec (Conversation.step pingConfig) (fun _ a => ownAction a = true)
        (pinged pingCall).1 as = some (q, k) →
      as.length ≤ (pinged pingCall).1.budget pingConfig (pinged pingCall).2 ∧
        (q.Quiet pingConfig → q.right.failure = none →
          ∀ i idx funcName args, .issued i idx funcName args ∈ lefts (pinged pingCall).2 →
            resultsOf i (lefts ((pinged pingCall).2 ++ k)) =
              ((pingConfig.replyTo (callObject idx funcName args)).map fun r =>
                r.outcomeFor funcName).toList)) ∧
      ∃ as q k, exec (Conversation.step pingConfig) (fun _ a => ownAction a = true)
        (pinged pingCall).1 as = some (q, k) ∧ q.Quiet pingConfig :=
  eventually_answered (Run.of_actions _ _ _ pingCall rfl) (ping_moderate rfl rfl) ping_plain
    ping_steady

end PromiseDemo.Rpc
