import PromiseDemo.Server.SelectLoop
import Mathlib.Data.List.Nodup

/-!
# Which sockets a round touches

`accept` and `recv` wait when their socket is not ready, and with them the only thread of
`promise_server`.  A round asks the `fd_set` before each of these calls, while connections are added
and erased.
-/

namespace PromiseDemo

open Transition

/-- A call that waits until its socket is ready. -/
inductive SocketCall
  | accept (listener : ℕ)
  | recv (number sock : ℕ)
  deriving DecidableEq, Repr

def SocketCall.sock : SocketCall → ℕ
  | .accept listener => listener
  | .recv _ sock => sock

namespace SelectServer

end SelectServer

/-- An action of a round in which `::accept`, if it is called, returns `result`. -/
def RoundAction.inRound (result : Option ℕ) : RoundAction → Bool
  | .select _ => false
  | .accept r => r = result
  | _ => true

/-- The next round has not begun. -/
def SelectServer.sameRound (result : Option ℕ) (_ : SelectServer) (a : RoundAction) : Prop :=
  a.inRound result = true

instance (result : Option ℕ) (s : SelectServer) (a : RoundAction) :
    Decidable (SelectServer.sameRound result s a) :=
  inferInstanceAs (Decidable (a.inRound result = true))

/-- `::accept` has returned. -/
def RoundEvent.isAccept : RoundEvent → Bool
  | .accepted _ _ => true
  | .acceptFailed => true
  | _ => false

/-- `::recv` has returned. -/
def ServerEvent.isRecv : ServerEvent → Bool
  | .received _ => true
  | .disconnected => true
  | _ => false

/-- How often `::recv` has been called for a client. -/
def recvCalls (number : ℕ) (k : List RoundEvent) : ℕ :=
  (ofConnection number k).countP ServerEvent.isRecv

variable {h k es : List RoundEvent} {s t t' u : SelectServer} {i : ℕ} {c : ClientConnection}
  {a : RoundAction} {accepted : Option ℕ}

@[simp] theorem recvCalls_append (number : ℕ) (k es : List RoundEvent) :
    recvCalls number (k ++ es) = recvCalls number k + recvCalls number es := by
  rw [recvCalls, ofConnection_append, List.countP_append, recvCalls, recvCalls]

/-- The connections whose socket the thread has not looked up in the set since `::select`, or is
about to read. -/
def SelectServer.ahead (t : SelectServer) : List ClientConnection :=
  match t.point with
  | .select => []
  | .accept => t.connections
  | .undefined => []
  | .walk i => t.connections.drop i
  | .body i =>
      if (t.connections[i]?).any fun c => c.conn.phase = .recv then t.connections.drop i
      else t.connections.drop (i + 1)

/-- What the connections in `rest`, still to be walked over, have to do with those of `u`. -/
structure Ahead (u : SelectServer) (k : List RoundEvent) (rest : List ClientConnection) : Prop where
  unread : ∀ c ∈ rest, recvCalls c.number k = 0
  /-- A socket in the set is that of a connection of `u`. -/
  known : ∀ c ∈ rest, c.sock ∈ u.readable →
    ∃ d ∈ u.connections, d.number = c.number ∧ d.sock = c.sock
  settled : ∀ d ∈ u.connections, recvCalls d.number k = (if d.sock ∈ u.readable then 1 else 0) ∨
    ∃ c ∈ rest, c.number = d.number ∧ c.sock = d.sock
  others : ∀ number ∉ u.numbers, recvCalls number k = 0

namespace Ahead

variable {rest : List ClientConnection}

theorem start (u : SelectServer) : Ahead u [] u.connections where
  unread _ _ := rfl
  known c hc _ := ⟨c, hc, rfl, rfl⟩
  settled d hd := .inr ⟨d, hd, rfl, rfl⟩
  others _ _ := rfl

theorem quiet (ha : Ahead u k rest) (hes : ∀ number, recvCalls number es = 0) :
    Ahead u (k ++ es) rest := by
  have hsame : ∀ number, recvCalls number (k ++ es) = recvCalls number k := by
    intro number
    rw [recvCalls_append, hes, Nat.add_zero]
  refine ⟨?_, ha.known, ?_, ?_⟩
  · intro c hc
    rw [hsame]
    exact ha.unread c hc
  · intro d hd
    rw [hsame]
    exact ha.settled d hd
  · intro number hn
    rw [hsame]
    exact ha.others number hn

theorem accept (ha : Ahead u k rest) (hc : recvCalls c.number k = 0) (hsock : c.sock ∉ u.readable) :
    Ahead u k (rest ++ [c]) := by
  refine ⟨?_, ?_, ?_, ha.others⟩
  · intro d hd
    rcases List.mem_append.mp hd with hd | hd
    · exact ha.unread d hd
    · rwa [List.mem_singleton.mp hd]
  · intro d hd hin
    rcases List.mem_append.mp hd with hd | hd
    · exact ha.known d hd hin
    · rw [List.mem_singleton.mp hd] at hin
      exact absurd hin hsock
  · intro d hd
    refine (ha.settled d hd).imp_right ?_
    rintro ⟨x, hx, heq⟩
    exact ⟨x, List.mem_append_left _ hx, heq⟩

theorem skip (ha : Ahead u k (c :: rest)) (hsock : c.sock ∉ u.readable) : Ahead u k rest := by
  refine ⟨fun x hx => ha.unread x (.tail c hx), fun x hx => ha.known x (.tail c hx), ?_, ha.others⟩
  intro d hd
  rcases ha.settled d hd with hdone | ⟨x, hx, hn, hs⟩
  · exact .inl hdone
  · rcases List.mem_cons.mp hx with rfl | hx
    · rw [← hn, ← hs, if_neg hsock]
      exact .inl (ha.unread x hx)
    · exact .inr ⟨x, hx, hn, hs⟩

theorem replace (ha : Ahead u k (c :: rest)) (conn : SelectConnection) :
    Ahead u k ({ c with conn } :: rest) := by
  refine ⟨?_, ?_, ?_, ha.others⟩
  · intro x hx
    rcases List.mem_cons.mp hx with rfl | hx
    · exact ha.unread c (.head rest)
    · exact ha.unread x (.tail c hx)
  · intro x hx
    rcases List.mem_cons.mp hx with rfl | hx
    · exact ha.known c (.head rest)
    · exact ha.known x (.tail c hx)
  · intro d hd
    refine (ha.settled d hd).imp_right ?_
    rintro ⟨x, hx, heq⟩
    rcases List.mem_cons.mp hx with rfl | hx
    · exact ⟨_, .head rest, heq⟩
    · exact ⟨x, .tail _ hx, heq⟩

theorem read (ha : Ahead u k (c :: rest)) (hsock : c.sock ∈ u.readable) (hu : u.numbers.Nodup)
    (hrest : c.number ∉ rest.map ClientConnection.number)
    (hes : ∀ number, recvCalls number es = if number = c.number then 1 else 0) :
    Ahead u (k ++ es) rest := by
  have hother : ∀ {number}, number ≠ c.number →
      recvCalls number (k ++ es) = recvCalls number k := by
    intro number hne
    rw [recvCalls_append, hes, if_neg hne, Nat.add_zero]
  have hself : recvCalls c.number (k ++ es) = 1 := by
    rw [recvCalls_append, hes, if_pos rfl, ha.unread c (.head rest)]
  obtain ⟨d, hd, hnumber, hsame⟩ := ha.known c (.head rest) hsock
  refine ⟨?_, fun x hx => ha.known x (.tail c hx), ?_, ?_⟩
  · intro x hx
    have hne : x.number ≠ c.number := fun heq => hrest (heq ▸ List.mem_map_of_mem hx)
    rw [hother hne]
    exact ha.unread x (.tail c hx)
  · intro x hx
    by_cases heq : x.number = c.number
    · -- the numbers of `u` name its connections
      have hxd : x = d := List.inj_on_of_nodup_map hu hx hd (heq.trans hnumber.symm)
      rw [heq, hself, hxd, hsame, if_pos hsock]
      exact .inl rfl
    · rw [hother heq]
      rcases ha.settled x hx with hdone | ⟨y, hy, hn, hs⟩
      · exact .inl hdone
      · rcases List.mem_cons.mp hy with rfl | hy
        · exact absurd hn.symm heq
        · exact .inr ⟨y, hy, hn, hs⟩
  · intro number hn
    have hne : number ≠ c.number := by
      rintro rfl
      exact hn (hnumber ▸ List.mem_map_of_mem hd)
    rw [hother hne]
    exact ha.others number hn

end Ahead

/-! ## What a step does to them -/

namespace SelectServer

variable {conn : SelectConnection} {ks : List ServerEvent} {b : SelectAction}

theorem put_listener (s : SelectServer) (i : ℕ) (c : ClientConnection) (conn : SelectConnection) :
    (s.put i c conn).1.listener = s.listener := by
  rw [put]
  split <;> rfl

theorem put_readable (s : SelectServer) (i : ℕ) (c : ClientConnection) (conn : SelectConnection) :
    (s.put i c conn).1.readable = s.readable := by
  rw [put]
  split <;> rfl

theorem drop_at (hi : s.connections[i]? = some c) :
    s.connections.drop i = c :: s.connections.drop (i + 1) := by
  obtain ⟨hlt, rfl⟩ := List.getElem?_eq_some_iff.mp hi
  exact List.drop_eq_getElem_cons hlt

theorem getElem?_put (hi : s.connections[i]? = some c) (conn : SelectConnection) :
    (s.connections.set i { c with conn })[i]? = some { c with conn } :=
  List.getElem?_set_self (List.getElem?_eq_some_iff.mp hi).1

theorem ahead_put (hi : s.connections[i]? = some c) (hconn : conn.phase ≠ .recv) :
    (s.put i c conn).1.ahead = s.connections.drop (i + 1) := by
  have hlt := (List.getElem?_eq_some_iff.mp hi).1
  rw [put]
  split
  · -- the connections behind an erased one move up
    show (s.connections.eraseIdx i).drop i = _
    rw [List.eraseIdx_eq_take_drop_succ, List.drop_append_of_le_length (by simp; omega)]
    simp
  · exact List.drop_set_of_lt (Nat.lt_succ_self i)
  · simp only [ahead, getElem?_put hi conn, Option.any_some, hconn, decide_false,
      Bool.false_eq_true, if_false]
    exact List.drop_set_of_lt (Nat.lt_succ_self i)

theorem ahead_put_recv (hi : s.connections[i]? = some c) (hconn : conn.phase = .recv) :
    (s.put i c conn).1.ahead = { c with conn } :: s.connections.drop (i + 1) := by
  have hahead : (s.put i c conn).1.ahead = (s.connections.set i { c with conn }).drop i := by
    rw [put, hconn]
    simp only [ahead, getElem?_put hi conn, Option.any_some, hconn, decide_true, if_true]
  obtain ⟨hlt, hget⟩ := List.getElem?_eq_some_iff.mp (getElem?_put hi conn)
  rw [hahead, List.drop_eq_getElem_cons hlt, hget, List.drop_set_of_lt (Nat.lt_succ_self i)]

theorem body_put {j : ℕ} (hi : s.connections[i]? = some c)
    (hbody : (s.put i c conn).1.point = .body j) :
    (s.put i c conn).1.connections[j]? = some { c with conn } ∧ conn.phase ≠ .elsewhere := by
  rw [put] at hbody ⊢
  split at hbody
  · cases hbody
  · cases hbody
  · cases hbody
    exact ⟨getElem?_put hi conn, ‹_›⟩

theorem recvCalls_put (number : ℕ) : recvCalls number
    (ks.map (.connection c.number c.sock) ++ (s.put i c conn).2) =
      if number = c.number then ks.countP ServerEvent.isRecv else 0 := by
  have hclosed : ofConnection number (s.put i c conn).2 = [] := by
    rw [put]
    split <;> rfl
  rw [recvCalls, ofConnection_append, hclosed, List.append_nil]
  split
  · rename_i heq
    rw [heq, ofConnection_self]
  · rename_i hne
    rw [ofConnection_other (Ne.symm hne)]
    rfl

theorem not_isAccept_put {e : RoundEvent}
    (he : e ∈ ks.map (.connection c.number c.sock) ++ (s.put i c conn).2) :
    e.isAccept = false := by
  rcases List.mem_append.mp he with he | he
  · obtain ⟨x, -, rfl⟩ := List.mem_map.mp he
    rfl
  · rw [put] at he
    split at he
    · rw [List.mem_singleton.mp he]
      rfl
    · cases he
    · cases he

/-! The steps, told by where the thread is. -/

theorem step_accept (hp : s.point = .accept) (hin : s.inRange a)
    (h : s.step a = some (t, es)) :
    (∃ sock, sock ∉ s.watched ∧ s.listener ∈ s.readable ∧
      es = [.accepted (s.clientCount + 1) sock] ∧
      t = { s with
        connections := s.connections ++ [{ sock, number := s.clientCount + 1 }]
        clientCount := s.clientCount + 1
        point := .walk 0 }) ∨
    (s.listener ∈ s.readable ∧ es = [.acceptFailed] ∨ es = []) ∧
      t = { s with point := .walk 0 } := by
  cases a with
  | select result => simp [step, hp] at h
  | accept result =>
    simp only [step, Option.ite_none_right_eq_some] at h
    obtain ⟨⟨-, hl⟩, h⟩ := h
    cases result with
    | none =>
      cases h
      exact .inr ⟨.inl ⟨hl, rfl⟩, rfl⟩
    | some sock =>
      simp only [Option.ite_none_left_eq_some] at h
      obtain ⟨hsock, h⟩ := h
      rw [if_pos (inRange_accept.mp hin).2] at h
      cases h
      exact .inl ⟨sock, hsock, hl, rfl, rfl⟩
  | internal =>
    simp only [step, hp, Option.ite_none_left_eq_some] at h
    obtain ⟨-, h⟩ := h
    cases h
    exact .inr ⟨.inr rfl, rfl⟩
  | connection b => simp [step, hp] at h
  | undefined v ks => simp [step, hp] at h

theorem connectionStep_eq_some (h : s.connectionStep i c b = some (t, es)) :
    ∃ conn ks, SelectStep c.conn b conn ks ∧ t = (s.put i c conn).1 ∧
      es = ks.map (.connection c.number c.sock) ++ (s.put i c conn).2 := by
  obtain ⟨q, hq, he⟩ := Option.map_eq_some_iff.mp h
  cases he
  exact ⟨q.1, q.2, SelectStep.of_step hq, rfl, rfl⟩

theorem step_walk (hb : s.InBounds) (hp : s.point = .walk i) (h : s.step a = some (t, es)) :
    (s.connections[i]? = none ∧ t = { s with point := .select } ∧ es = []) ∨
      ∃ c, s.connections[i]? = some c ∧
        s.connectionStep i c (.visit (decide (c.sock ∈ s.readable))) = some (t, es) := by
  cases a with
  | select result => simp [step, hp] at h
  | accept result => simp [step, hp] at h
  | internal =>
    simp only [step, hp] at h
    split at h
    · rename_i c hi
      rw [if_pos (hb.fits _ (mem_watched hi))] at h
      exact .inr ⟨c, hi, h⟩
    · cases h
      exact .inl ⟨‹_›, rfl, rfl⟩
  | connection b => simp [step, hp] at h
  | undefined v ks => simp [step, hp] at h

theorem step_body (hp : s.point = .body i) (h : s.step a = some (t, es)) :
    ∃ c b, s.connections[i]? = some c ∧ s.connectionStep i c b = some (t, es) := by
  cases a with
  | select result => simp [step, hp] at h
  | accept result => simp [step, hp] at h
  | internal => simp [step, hp] at h
  | connection b =>
    simp only [step, hp] at h
    obtain ⟨c, hi, h⟩ := Option.bind_eq_some_iff.mp h
    exact ⟨c, b, hi, h⟩
  | undefined v ks => simp [step, hp] at h

end SelectServer

theorem SelectStep.of_visit {c d : SelectConnection} {ready : Bool} {es : List ServerEvent}
    (h : SelectStep c (.visit ready) d es) :
    es = [] ∧ d.phase = if ready then .recv else .drain := by
  cases h
  exact ⟨rfl, rfl⟩

theorem SelectStep.recv_iff {c d : SelectConnection} {b : SelectAction} {es : List ServerEvent}
    (h : SelectStep c b d es) (hne : c.phase ≠ .elsewhere) :
    es.countP ServerEvent.isRecv = (if c.phase = .recv then 1 else 0) ∧ d.phase ≠ .recv := by
  cases h with
  | visited => exact absurd rfl hne
  | _ => exact ⟨rfl, SelectPhase.noConfusion⟩

/-! ## A round -/

/-- The invariant of a round that `::select` has started in `u` with the set as it is there. -/
structure Touching (u : SelectServer) (k : List RoundEvent) (t : SelectServer) : Prop where
  listener : t.listener = u.listener
  readable : t.readable = u.readable
  begun : t.point = .accept →
    t.connections = u.connections ∧ t.clientCount = u.clientCount ∧ k = []
  accepts : ∀ e ∈ k, e.isAccept = true → u.listener ∈ u.readable
  ahead : Ahead u k t.ahead
  body : ∀ i, t.point = .body i → ∃ c, t.connections[i]? = some c ∧ c.conn.phase ≠ .elsewhere ∧
    (c.conn.phase = .recv → c.sock ∈ u.readable)

namespace Touching

variable {conn : SelectConnection} {ks : List ServerEvent}

theorem start (hp : u.point = .accept) : Touching u [] u where
  listener := rfl
  readable := rfl
  begun _ := ⟨rfl, rfl, rfl⟩
  accepts e he := by cases he
  ahead := by
    rw [SelectServer.ahead, hp]
    exact .start u
  body i hi := by cases hp.symm.trans hi

theorem put (ht : Touching u k t) (hi : t.connections[i]? = some c)
    (hahead : Ahead u (k ++ (ks.map (.connection c.number c.sock) ++ (t.put i c conn).2))
      (t.put i c conn).1.ahead) (hrecv : conn.phase = .recv → c.sock ∈ u.readable) :
    Touching u (k ++ (ks.map (.connection c.number c.sock) ++ (t.put i c conn).2))
      (t.put i c conn).1 where
  listener := (t.put_listener i c conn).trans ht.listener
  readable := (t.put_readable i c conn).trans ht.readable
  begun haccept := by
    rw [SelectServer.put] at haccept
    split at haccept <;> cases haccept
  accepts e he haccept := by
    rcases List.mem_append.mp he with he | he
    · exact ht.accepts e he haccept
    · rw [SelectServer.not_isAccept_put he] at haccept
      cases haccept
  ahead := hahead
  body j hj := by
    obtain ⟨hget, hne⟩ := SelectServer.body_put hi hj
    exact ⟨_, hget, hne, hrecv⟩

theorem visit (ht : Touching u k t) (hp : t.point = .walk i) (hi : t.connections[i]? = some c)
    (hstep : SelectStep c.conn (.visit (decide (c.sock ∈ t.readable))) conn ks) :
    Touching u (k ++ (ks.map (.connection c.number c.sock) ++ (t.put i c conn).2))
      (t.put i c conn).1 := by
  obtain ⟨rfl, hphase⟩ := hstep.of_visit
  have hahead : Ahead u k (c :: t.connections.drop (i + 1)) := by
    have hall := ht.ahead
    simp only [SelectServer.ahead, hp] at hall
    rwa [SelectServer.drop_at hi] at hall
  rw [ht.readable] at hphase
  apply ht.put hi
  · apply Ahead.quiet
    · by_cases hin : c.sock ∈ u.readable
      · rw [SelectServer.ahead_put_recv hi (by rw [hphase, decide_eq_true hin, if_pos rfl])]
        exact hahead.replace conn
      · have hdrain : conn.phase = .drain := by simpa [hin] using hphase
        rw [SelectServer.ahead_put hi (by rw [hdrain]; exact SelectPhase.noConfusion)]
        exact hahead.skip hin
    · intro number
      rw [SelectServer.recvCalls_put]
      simp
  · intro hrecv
    by_contra hin
    simp [hin, hrecv] at hphase

theorem inBody {b : SelectAction} (ht : Touching u k t) (hu : u.numbers.Nodup)
    (hnodup : t.numbers.Nodup) (hp : t.point = .body i) (hi : t.connections[i]? = some c)
    (hstep : SelectStep c.conn b conn ks) :
    Touching u (k ++ (ks.map (.connection c.number c.sock) ++ (t.put i c conn).2))
      (t.put i c conn).1 := by
  obtain ⟨d, hd, hne, hready⟩ := ht.body i hp
  obtain rfl := Option.some.inj (hd.symm.trans hi)
  obtain ⟨hcount, hconn⟩ := hstep.recv_iff hne
  apply ht.put hi
  · rw [SelectServer.ahead_put hi hconn]
    have hahead := ht.ahead
    simp only [SelectServer.ahead, hp, hi, Option.any_some, decide_eq_true_eq] at hahead
    by_cases hrecv : d.conn.phase = .recv
    · rw [if_pos hrecv, SelectServer.drop_at hi] at hahead
      rw [if_pos hrecv] at hcount
      have hrest : d.number ∉ (t.connections.drop (i + 1)).map ClientConnection.number := by
        have hsub : List.Sublist ((t.connections.drop i).map ClientConnection.number) t.numbers :=
          (List.drop_sublist i t.connections).map _
        rw [SelectServer.drop_at hi] at hsub
        exact (List.nodup_cons.mp (hnodup.sublist hsub)).1
      apply hahead.read (hready hrecv) hu hrest
      intro number
      rw [SelectServer.recvCalls_put, hcount]
    · rw [if_neg hrecv] at hahead hcount
      apply hahead.quiet
      intro number
      rw [SelectServer.recvCalls_put, hcount, ite_self]
  · intro hrecv
    exact absurd hrecv hconn

theorem step (ht : Touching u k t) (hu : u.numbers.Nodup) (hwatched : u.readable ⊆ u.watched)
    (hnodup : t.numbers.Nodup) (hb : t.InBounds) (ha : SelectServer.sameRound accepted t a)
    (hin : t.inRange a) (hstep : t.step a = some (t', es)) : Touching u (k ++ es) t' := by
  cases hp : t.point with
  | select =>
    cases RoundStep.of_step hb hstep with
    | selected => cases ha
    | accepted hq => cases hp.symm.trans hq
    | overflowed hq => cases hp.symm.trans hq
    | acceptFailed hq => cases hp.symm.trans hq
    | noClient hq => cases hp.symm.trans hq
    | ended hq => cases hp.symm.trans hq
    | served _ hi hq =>
      rcases hq with hq | hq
      · cases hp.symm.trans hq
      · cases hp.symm.trans hq
  | accept =>
    obtain ⟨hconnections, -, rfl⟩ := ht.begun hp
    have hahead := ht.ahead
    simp only [SelectServer.ahead, hp] at hahead
    rcases SelectServer.step_accept hp hin hstep with ⟨sock, hsock, hl, rfl, rfl⟩ | ⟨hes, rfl⟩
    · refine ⟨ht.listener, ht.readable, RoundPoint.noConfusion, ?_, ?_,
        fun _ => RoundPoint.noConfusion⟩
      · intro e he haccept
        rwa [ht.listener, ht.readable] at hl
      · -- a new socket was not among those that `::select` was given
        have hnew : sock ∉ u.readable := by
          intro hin
          have hmem := hwatched hin
          rw [SelectServer.watched, ← hconnections, ← ht.listener] at hmem
          exact hsock hmem
        exact (hahead.accept rfl hnew).quiet fun _ => rfl
    · refine ⟨ht.listener, ht.readable, RoundPoint.noConfusion, ?_, ?_,
        fun _ => RoundPoint.noConfusion⟩
      · intro e he haccept
        rcases hes with ⟨hl, -⟩ | rfl
        · rwa [ht.listener, ht.readable] at hl
        · cases he
      · apply hahead.quiet
        intro number
        rcases hes with ⟨-, rfl⟩ | rfl
        · rfl
        · rfl
  | walk i =>
    rcases SelectServer.step_walk hb hp hstep with ⟨hi, rfl, rfl⟩ | ⟨c, hi, hstep⟩
    · have hahead := ht.ahead
      simp only [SelectServer.ahead, hp] at hahead
      rw [List.drop_eq_nil_of_le (List.getElem?_eq_none_iff.mp hi)] at hahead
      rw [List.append_nil]
      exact ⟨ht.listener, ht.readable, RoundPoint.noConfusion, ht.accepts, hahead,
        fun _ => RoundPoint.noConfusion⟩
    · obtain ⟨conn, ks, hconn, rfl, rfl⟩ := SelectServer.connectionStep_eq_some hstep
      exact ht.visit hp hi hconn
  | body i =>
    obtain ⟨c, b, hi, hstep⟩ := SelectServer.step_body hp hstep
    obtain ⟨conn, ks, hconn, rfl, rfl⟩ := SelectServer.connectionStep_eq_some hstep
    exact ht.inBody hu hnodup hp hi hconn
  | undefined => exact absurd hp hb.defined

theorem run {h₀ : List RoundEvent} (hu : Rounds h₀ u) (hb : u.InBounds) (hp : u.point = .accept)
    (hwatched : u.readable ⊆ u.watched)
    (hfits : u.listener ∈ u.readable → ∀ sock, accepted = some sock →
      sock < fdSetSize ∧ u.clientCount < intMax)
    (hrun : Run SelectServer.step (SelectServer.sameRound accepted) u k t) : Touching u k t := by
  have hall : Rounds (h₀ ++ k) t ∧ t.InBounds ∧ Touching u k t := by
    apply hrun.invariant (I := fun k t => Rounds (h₀ ++ k) t ∧ t.InBounds ∧ Touching u k t)
    · exact ⟨by rwa [List.append_nil], hb, .start hp⟩
    · rintro k t t' a es ⟨hr, hb, ht⟩ ha hstep
      have hround := RoundStep.of_step hb hstep
      have hadmitted : ∀ sock, t.point = .accept → t.listener ∈ t.readable →
          accepted = some sock → t.inRange (.accept (some sock)) := by
        intro sock hq hl haccepted
        rw [ht.listener, ht.readable] at hl
        obtain ⟨-, hcount, -⟩ := ht.begun hq
        rw [SelectServer.inRange_accept, hcount]
        exact hfits hl sock haccepted
      have hin : t.inRange a := by
        cases hround with
        | accepted hq hl => exact hadmitted _ hq hl (of_decide_eq_true ha).symm
        | overflowed hq hl => exact hadmitted _ hq hl (of_decide_eq_true ha).symm
        | served hf => exact hf
        | _ => rfl
      rw [← List.append_assoc]
      exact ⟨hr.step hround, hb.step hin hround, ht.step hu.nodup hwatched hr.nodup hb ha hin hstep⟩
  exact hall.2.2

end Touching

/-! ## To the end of the vector -/

namespace SelectServer

end SelectServer

end PromiseDemo
