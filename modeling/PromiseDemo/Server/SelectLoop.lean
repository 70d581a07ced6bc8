import PromiseDemo.Server.Equivalence

/-!
# The main loop of `promise_server`

One thread waits in `select`, accepts at most one client a round and then walks over the vector of
connections, from which it erases those that have ended while it goes.  Inside the loop body of a
connection it is the connection that takes the steps.  Nothing keeps the descriptors small enough
for an `fd_set`, or the clients few enough for an `int`.
-/

namespace PromiseDemo

open Transition PrefixCode

/-- `FD_SETSIZE`: an `fd_set` has room for the descriptors below it, and neither `FD_SET` nor
`FD_ISSET` looks whether it is given one of these. -/
def fdSetSize : ℕ := 1024

/-- The largest `int`; `client_count` is one. -/
def intMax : ℕ := 2 ^ 31 - 1

/-- A `client_connection`; `number` is the client's in its description. -/
structure ClientConnection where
  sock : ℕ
  number : ℕ
  conn : SelectConnection := {}

/-- The result of `::select`: the sockets left in the set, or an error. -/
inductive SelectResult
  | ready (sockets : List ℕ)
  | failed
  deriving DecidableEq, Repr

/-- Where the thread is in a round. -/
inductive RoundPoint
  | select
  /-- At the test `FD_ISSET(listener, &readable)`. -/
  | accept
  /-- At the loop test with the iterator at index `i`. -/
  | walk (i : ℕ)
  /-- In the loop body of connection `i`. -/
  | body (i : ℕ)
  /-- Memory outside of the `fd_set` has been accessed, or `client_count` has overflowed. -/
  | undefined
  deriving DecidableEq, Repr

structure SelectServer where
  listener : ℕ
  connections : List ClientConnection := []
  clientCount : ℕ := 0
  /-- The `fd_set`. -/
  readable : List ℕ := []
  point : RoundPoint := .select

inductive RoundEvent
  | selected (result : SelectResult)
  | accepted (number sock : ℕ)
  | acceptFailed
  | connection (number sock : ℕ) (e : ServerEvent)
  /-- `close_socket(sock)` -/
  | closed (number sock : ℕ)
  /-- `FD_SET` or `FD_ISSET` with a descriptor for which the set has no room. -/
  | overrun (sock : ℕ)
  /-- `++client_count` beyond the largest `int`. -/
  | overflow
  deriving DecidableEq, Repr

inductive RoundAction
  | select (result : SelectResult)
  /-- `::accept` returns a socket or `invalid_socket`. -/
  | accept (sock : Option ℕ)
  | internal
  | connection (a : SelectAction)
  /-- After either the language promises nothing: any state, any events. -/
  | undefined (t : SelectServer) (es : List RoundEvent)

namespace SelectServer

/-- The sockets put into the set at the start of a round. -/
def watched (s : SelectServer) : List ℕ := s.listener :: s.connections.map ClientConnection.sock

/-- The thread has taken connection `i` to `conn`: it stays there, goes on with the next one, or
closes the socket and erases the connection, after which the iterator is at the next one. -/
def put (s : SelectServer) (i : ℕ) (c : ClientConnection) (conn : SelectConnection) :
    SelectServer × List RoundEvent :=
  match conn.phase with
  | .erased =>
      ({ s with connections := s.connections.eraseIdx i, point := .walk i },
        [.closed c.number c.sock])
  | .elsewhere =>
      ({ s with connections := s.connections.set i { c with conn }, point := .walk (i + 1) }, [])
  | _ => ({ s with connections := s.connections.set i { c with conn }, point := .body i }, [])

def connectionStep (s : SelectServer) (i : ℕ) (c : ClientConnection) (a : SelectAction) :
    Option (SelectServer × List RoundEvent) :=
  (c.conn.step a).map fun q =>
    ((s.put i c q.1).1, q.2.map (.connection c.number c.sock) ++ (s.put i c q.1).2)

/-- The transition function of `main`.  A failed `::select` leaves the set as it was passed in. -/
def step : StepFn SelectServer RoundAction RoundEvent
  | s, .select result =>
      if s.point = .select ∧ ∀ sock ∈ s.watched, sock < fdSetSize then
        match result with
        | .ready sockets =>
            if sockets ⊆ s.watched then
              some ({ s with readable := sockets, point := .accept }, [.selected result])
            else none
        | .failed => some ({ s with readable := s.watched, point := .accept }, [.selected result])
      else none
  | s, .accept result =>
      if s.point = .accept ∧ s.listener ∈ s.readable then
        match result with
        | some sock =>
            -- an open descriptor is not handed out again
            if sock ∈ s.watched then none
            else if s.clientCount < intMax then
              some ({ s with
                connections := s.connections ++ [{ sock, number := s.clientCount + 1 }]
                clientCount := s.clientCount + 1
                point := .walk 0 }, [.accepted (s.clientCount + 1) sock])
            else some ({ s with point := .undefined }, [.overflow])
        | none => some ({ s with point := .walk 0 }, [.acceptFailed])
      else none
  | s, .internal =>
      match s.point with
      | .select =>
          -- the first `FD_SET` that leaves the set
          (s.watched.find? fun sock => fdSetSize ≤ sock).map fun sock =>
            ({ s with point := .undefined }, [.overrun sock])
      | .accept =>
          if s.listener ∈ s.readable then none else some ({ s with point := .walk 0 }, [])
      | .walk i =>
          match s.connections[i]? with
          | some c =>
              if c.sock < fdSetSize then
                s.connectionStep i c (.visit (decide (c.sock ∈ s.readable)))
              else some ({ s with point := .undefined }, [.overrun c.sock])
          | none => some ({ s with point := .select }, [])
      | _ => none
  | s, .connection a =>
      match s.point with
      | .body i => (s.connections[i]?).bind fun c => s.connectionStep i c a
      | _ => none
  | s, .undefined t es => if s.point = .undefined then some (t, es) else none

end SelectServer

/-- The server before its first round. -/
def SelectServer.start (listener : ℕ) : SelectServer := { listener }

/-- A socket that is accepted fits an `fd_set`, and its client's number an `int`. -/
def SelectServer.admits (s : SelectServer) : RoundAction → Bool
  | .accept (some sock) => sock < fdSetSize && s.clientCount < intMax
  | _ => true

def SelectServer.inRange (s : SelectServer) (a : RoundAction) : Prop := s.admits a = true

instance (s : SelectServer) (a : RoundAction) : Decidable (s.inRange a) :=
  inferInstanceAs (Decidable (s.admits a = true))

theorem SelectServer.inRange_accept {s : SelectServer} {sock : ℕ} :
    s.inRange (.accept (some sock)) ↔ sock < fdSetSize ∧ s.clientCount < intMax := by
  simp [inRange, admits]

/-- The sockets watched fit an `fd_set`, and what the language leaves undefined has not happened. -/
structure SelectServer.InBounds (s : SelectServer) : Prop where
  fits : ∀ sock ∈ s.watched, sock < fdSetSize
  defined : s.point ≠ .undefined

/-! ## What one step can do -/

/-- The steps of a server in bounds. -/
inductive RoundStep (s : SelectServer) : RoundAction → SelectServer → List RoundEvent → Prop
  | selected {result : SelectResult} {readable : List ℕ} (hp : s.point = .select) :
      RoundStep s (.select result) { s with readable, point := .accept } [.selected result]
  | accepted {sock : ℕ} (hp : s.point = .accept) (hl : s.listener ∈ s.readable)
      (hcount : s.clientCount < intMax) :
      RoundStep s (.accept (some sock))
        { s with
          connections := s.connections ++ [{ sock, number := s.clientCount + 1 }]
          clientCount := s.clientCount + 1
          point := .walk 0 } [.accepted (s.clientCount + 1) sock]
  | overflowed {sock : ℕ} (hp : s.point = .accept) (hl : s.listener ∈ s.readable)
      (hcount : ¬s.clientCount < intMax) :
      RoundStep s (.accept (some sock)) { s with point := .undefined } [.overflow]
  | acceptFailed (hp : s.point = .accept) (hl : s.listener ∈ s.readable) :
      RoundStep s (.accept none) { s with point := .walk 0 } [.acceptFailed]
  | noClient (hp : s.point = .accept) (hl : s.listener ∉ s.readable) :
      RoundStep s .internal { s with point := .walk 0 } []
  | ended {i : ℕ} (hp : s.point = .walk i) (hi : s.connections[i]? = none) :
      RoundStep s .internal { s with point := .select } []
  | served {i : ℕ} {c : ClientConnection} {b : RoundAction} {a : SelectAction}
      {conn : SelectConnection} {es : List ServerEvent} (hf : s.inRange b)
      (hi : s.connections[i]? = some c) (hp : s.point = .walk i ∨ s.point = .body i)
      (h : c.conn.step a = some (conn, es)) :
      RoundStep s b (s.put i c conn).1
        (es.map (.connection c.number c.sock) ++ (s.put i c conn).2)

theorem SelectServer.mem_watched {s : SelectServer} {i : ℕ} {c : ClientConnection}
    (hi : s.connections[i]? = some c) : c.sock ∈ s.watched :=
  .tail _ (List.mem_map_of_mem (List.mem_of_getElem? hi))

theorem RoundStep.of_step {s t : SelectServer} {a : RoundAction} {es : List RoundEvent}
    (hb : s.InBounds) (h : s.step a = some (t, es)) : RoundStep s a t es := by
  cases a with
  | select result =>
    simp only [SelectServer.step, Option.ite_none_right_eq_some] at h
    obtain ⟨⟨hp, -⟩, h⟩ := h
    cases result with
    | ready sockets =>
      simp only [Option.ite_none_right_eq_some] at h
      obtain ⟨-, h⟩ := h
      cases h
      exact .selected hp
    | failed => cases h; exact .selected hp
  | accept result =>
    simp only [SelectServer.step, Option.ite_none_right_eq_some] at h
    obtain ⟨⟨hp, hl⟩, h⟩ := h
    cases result with
    | some sock =>
      simp only [Option.ite_none_left_eq_some] at h
      obtain ⟨-, h⟩ := h
      split_ifs at h with hcount
      · cases h
        exact .accepted hp hl hcount
      · cases h
        exact .overflowed hp hl hcount
    | none => cases h; exact .acceptFailed hp hl
  | internal =>
    simp only [SelectServer.step] at h
    split at h
    · obtain ⟨sock, hfind, -⟩ := Option.map_eq_some_iff.mp h
      have hlt := hb.fits sock (List.mem_of_find?_eq_some hfind)
      have hle : fdSetSize ≤ sock := by simpa using List.find?_some hfind
      omega
    · rename_i hp
      simp only [Option.ite_none_left_eq_some] at h
      obtain ⟨hl, h⟩ := h
      cases h
      exact .noClient hp hl
    · rename_i i hp
      split at h
      · rename_i c hi
        rw [if_pos (hb.fits _ (SelectServer.mem_watched hi))] at h
        obtain ⟨q, hq, he⟩ := Option.map_eq_some_iff.mp h
        cases he
        exact .served rfl hi (.inl hp) hq
      · cases h
        exact .ended hp ‹_›
    · cases h
  | connection a =>
    simp only [SelectServer.step] at h
    split at h
    · rename_i i hp
      obtain ⟨c, hi, h⟩ := Option.bind_eq_some_iff.mp h
      obtain ⟨q, hq, he⟩ := Option.map_eq_some_iff.mp h
      cases he
      exact .served rfl hi (.inr hp) hq
    · cases h
  | undefined u es =>
    rw [SelectServer.step, if_neg hb.defined] at h
    cases h

theorem SelectServer.put_watched {s : SelectServer} {i : ℕ} {c : ClientConnection}
    (hi : s.connections[i]? = some c) (conn : SelectConnection) :
    (s.put i c conn).1.watched ⊆ s.watched := by
  have hset : (s.connections.set i { c with conn }).map ClientConnection.sock =
      s.connections.map ClientConnection.sock := map_set_same hi rfl
  rw [put]
  split
  · exact List.cons_subset_cons _ (List.map_subset _ (List.eraseIdx_sublist _ _).subset)
  · rw [watched, watched, hset]
    exact List.Subset.refl _
  · rw [watched, watched, hset]
    exact List.Subset.refl _

theorem SelectServer.InBounds.step {s t : SelectServer} {a : RoundAction} {es : List RoundEvent}
    (hb : s.InBounds) (ha : s.inRange a) (hstep : RoundStep s a t es) : t.InBounds := by
  cases hstep with
  | @accepted sock hp hl hcount =>
    refine ⟨fun x hx => ?_, RoundPoint.noConfusion⟩
    rcases List.mem_cons.mp hx with rfl | hx
    · exact hb.fits _ (.head _)
    · rw [List.map_append, List.mem_append] at hx
      rcases hx with hx | hx
      · exact hb.fits _ (.tail _ hx)
      · rw [List.mem_singleton.mp hx]
        exact (SelectServer.inRange_accept.mp ha).1
  | overflowed hp hl hcount => exact absurd (SelectServer.inRange_accept.mp ha).2 hcount
  | @served i c b a conn ks hf hi hp h =>
    refine ⟨fun x hx => hb.fits x (SelectServer.put_watched hi conn hx), ?_⟩
    rw [SelectServer.put]
    split <;> exact RoundPoint.noConfusion
  | _ => exact ⟨hb.fits, RoundPoint.noConfusion⟩

/-! ## The events of one connection -/

def RoundEvent.on (k : ℕ) : RoundEvent → Option ServerEvent
  | .connection number _ e => if number = k then some e else none
  | _ => none

def RoundEvent.closes (k : ℕ) : RoundEvent → Option ℕ
  | .closed number sock => if number = k then some sock else none
  | _ => none

/-- What client number `k` has seen of the server. -/
def ofConnection (k : ℕ) (h : List RoundEvent) : List ServerEvent := h.filterMap (RoundEvent.on k)

/-- The sockets closed for client number `k`. -/
def closings (k : ℕ) (h : List RoundEvent) : List ℕ := h.filterMap (RoundEvent.closes k)

@[simp] theorem ofConnection_append (k : ℕ) (h h' : List RoundEvent) :
    ofConnection k (h ++ h') = ofConnection k h ++ ofConnection k h' := List.filterMap_append

@[simp] theorem closings_append (k : ℕ) (h h' : List RoundEvent) :
    closings k (h ++ h') = closings k h ++ closings k h' := List.filterMap_append

theorem ofConnection_self (k sock : ℕ) (es : List ServerEvent) :
    ofConnection k (es.map (.connection k sock)) = es := by
  simp [ofConnection, List.filterMap_map, Function.comp_def, RoundEvent.on]

theorem ofConnection_other {k number : ℕ} (hne : number ≠ k) (sock : ℕ) (es : List ServerEvent) :
    ofConnection k (es.map (.connection number sock)) = [] := by
  simp [ofConnection, List.filterMap_map, Function.comp_def, RoundEvent.on, hne]

theorem closings_connection (k number sock : ℕ) (es : List ServerEvent) :
    closings k (es.map (.connection number sock)) = [] := by
  simp [closings, List.filterMap_map, Function.comp_def, RoundEvent.closes]

/-! ## Runs -/

/-- The numbers of the clients that are connected. -/
def SelectServer.numbers (s : SelectServer) : List ℕ := s.connections.map ClientConnection.number

theorem SelectServer.numbers_set {s : SelectServer} {i : ℕ} {c : ClientConnection}
    (hi : s.connections[i]? = some c) (conn : SelectConnection) (point : RoundPoint) :
    SelectServer.numbers { s with connections := s.connections.set i { c with conn }, point } =
      s.numbers := map_set_same hi rfl

/-- The server after history `h`: each client connected has taken the steps of one connection, and
so has each that has left, up to the end of its own input. -/
structure Rounds (h : List RoundEvent) (s : SelectServer) : Prop where
  nodup : s.numbers.Nodup
  born : ∀ k ∈ s.numbers, 1 ≤ k ∧ k ≤ s.clientCount
  served : ∀ {i : ℕ} {c : ClientConnection}, s.connections[i]? = some c →
    Run SelectConnection.step anyAction {} (ofConnection c.number h) c.conn ∧
      .accepted c.number c.sock ∈ h ∧ closings c.number h = []
  placed : ∀ {i : ℕ} {c : ClientConnection}, s.connections[i]? = some c →
    c.conn.phase ≠ .erased ∧ (c.conn.phase = .elsewhere ∨ s.point = .body i)
  gone : ∀ {k}, 1 ≤ k → k ≤ s.clientCount → k ∉ s.numbers → ∃ buffer sock,
    Run SelectConnection.step anyAction {} (ofConnection k h) ⟨buffer, .erased⟩ ∧
      .accepted k sock ∈ h ∧ closings k h = [sock]
  unborn : ∀ {k}, s.clientCount < k → ofConnection k h = [] ∧ closings k h = []

namespace Rounds

variable {h es : List RoundEvent} {s t : SelectServer} {i : ℕ} {c : ClientConnection}

theorem start (listener : ℕ) : Rounds [] (SelectServer.start listener) where
  nodup := List.nodup_nil
  born k hk := by cases hk
  served hi := by simp [SelectServer.start] at hi
  placed hi := by simp [SelectServer.start] at hi
  gone h₁ hk _ := by
    have hzero : (SelectServer.start listener).clientCount = 0 := rfl
    omega
  unborn _ := ⟨rfl, rfl⟩

theorem number_ne (hr : Rounds h s) {j : ℕ} {d : ClientConnection}
    (hi : s.connections[i]? = some c) (hj : s.connections[j]? = some d) (hne : j ≠ i) :
    c.number ≠ d.number := map_ne_of_nodup hr.nodup hi hj hne

theorem mem_numbers (hi : s.connections[i]? = some c) : c.number ∈ s.numbers :=
  List.mem_map_of_mem (List.mem_of_getElem? hi)

theorem quiet (hr : Rounds h s) (hc : t.connections = s.connections)
    (hn : t.clientCount = s.clientCount) (hp : ∀ i, s.point ≠ .body i)
    (he : ∀ k, ofConnection k es = [] ∧ closings k es = []) : Rounds (h ++ es) t := by
  have hnumbers : t.numbers = s.numbers := by rw [SelectServer.numbers, hc, SelectServer.numbers]
  have hon : ∀ k, ofConnection k (h ++ es) = ofConnection k h := by
    intro k
    rw [ofConnection_append, (he k).1, List.append_nil]
  have hclose : ∀ k, closings k (h ++ es) = closings k h := by
    intro k
    rw [closings_append, (he k).2, List.append_nil]
  refine ⟨by rw [hnumbers]; exact hr.nodup, by rw [hnumbers, hn]; exact hr.born, ?_, ?_, ?_, ?_⟩
  · intro i c hi
    rw [hc] at hi
    obtain ⟨hrun, haccepted, hclosed⟩ := hr.served hi
    exact ⟨by rwa [hon], List.mem_append_left _ haccepted, by rwa [hclose]⟩
  · intro i c hi
    rw [hc] at hi
    obtain ⟨herased, hplace⟩ := hr.placed hi
    exact ⟨herased, .inl (hplace.resolve_right (hp i))⟩
  · intro k h₁ hk hnot
    rw [hn] at hk
    rw [hnumbers] at hnot
    obtain ⟨buffer, sock, hrun, haccepted, hclosed⟩ := hr.gone h₁ hk hnot
    exact ⟨buffer, sock, by rwa [hon], List.mem_append_left _ haccepted, by rwa [hclose]⟩
  · intro k hk
    rw [hn] at hk
    rw [hon, hclose]
    exact hr.unborn hk

theorem accept (hr : Rounds h s) {sock : ℕ} (hp : s.point = .accept) :
    Rounds (h ++ [.accepted (s.clientCount + 1) sock])
      { s with
        connections := s.connections ++ [{ sock, number := s.clientCount + 1 }]
        clientCount := s.clientCount + 1
        point := .walk 0 } := by
  have hon : ∀ k, ofConnection k (h ++ [.accepted (s.clientCount + 1) sock]) = ofConnection k h :=
    fun k => by rw [ofConnection_append]; exact List.append_nil _
  have hclose : ∀ k, closings k (h ++ [.accepted (s.clientCount + 1) sock]) = closings k h :=
    fun k => by rw [closings_append]; exact List.append_nil _
  have hnew : s.clientCount + 1 ∉ s.numbers := by
    intro hmem
    have := (hr.born _ hmem).2
    omega
  have hnumbers : SelectServer.numbers
      { s with
        connections := s.connections ++ [{ sock, number := s.clientCount + 1 }]
        clientCount := s.clientCount + 1
        point := .walk 0 } = s.numbers ++ [s.clientCount + 1] := List.map_append
  -- a connection is an old one or the new one
  have hcases : ∀ {i : ℕ} {c : ClientConnection},
      (s.connections ++ [{ sock, number := s.clientCount + 1 }])[i]? = some c →
      s.connections[i]? = some c ∨ c = { sock, number := s.clientCount + 1 } := by
    intro i c hi
    rw [List.getElem?_append] at hi
    split at hi
    · exact .inl hi
    · exact .inr (List.mem_singleton.mp (List.mem_of_getElem? hi))
  refine ⟨?_, ?_, ?_, ?_, ?_, ?_⟩
  · rw [hnumbers]
    refine List.nodup_append.mpr ⟨hr.nodup, by simp, ?_⟩
    intro k hk j hj
    obtain rfl := List.mem_singleton.mp hj
    exact fun he => hnew (he ▸ hk)
  · intro k hk
    rw [hnumbers, List.mem_append, List.mem_singleton] at hk
    dsimp only
    rcases hk with hk | rfl
    · have := hr.born k hk
      omega
    · omega
  · intro i c hi
    rcases hcases hi with hi | rfl
    · obtain ⟨hrun, haccepted, hclosed⟩ := hr.served hi
      exact ⟨by rwa [hon], List.mem_append_left _ haccepted, by rwa [hclose]⟩
    · obtain ⟨hnone, hclosed⟩ := hr.unborn (Nat.lt_succ_self _)
      exact ⟨by rw [hon, hnone]; exact .refl, by simp, by rw [hclose, hclosed]⟩
  · intro i c hi
    rcases hcases hi with hi | rfl
    · obtain ⟨herased, hplace⟩ := hr.placed hi
      rw [hp] at hplace
      exact ⟨herased, .inl (hplace.resolve_right RoundPoint.noConfusion)⟩
    · exact ⟨SelectPhase.noConfusion, .inl rfl⟩
  · intro k h₁ hk hnot
    rw [hnumbers, List.mem_append, List.mem_singleton, not_or] at hnot
    dsimp only at hk
    obtain ⟨buffer, sock', hrun, haccepted, hclosed⟩ := hr.gone h₁ (by omega) hnot.1
    exact ⟨buffer, sock', by rwa [hon], List.mem_append_left _ haccepted, by rwa [hclose]⟩
  · intro k hk
    dsimp only at hk
    rw [hon, hclose]
    exact hr.unborn (by omega)

theorem stay (hr : Rounds h s) (hi : s.connections[i]? = some c)
    (hp : s.point = .walk i ∨ s.point = .body i) {a : SelectAction} {d : SelectConnection}
    {ks : List ServerEvent} (hstep : c.conn.step a = some (d, ks)) {point : RoundPoint}
    (hd : d.phase ≠ .erased) (hplace : d.phase = .elsewhere ∨ point = .body i) :
    Rounds (h ++ ks.map (.connection c.number c.sock))
      { s with connections := s.connections.set i { c with conn := d }, point } := by
  have hnumbers := @SelectServer.numbers_set s i c hi d point
  have hother : ∀ {k}, c.number ≠ k →
      ofConnection k (h ++ ks.map (.connection c.number c.sock)) = ofConnection k h := by
    intro k hne
    rw [ofConnection_append, ofConnection_other hne, List.append_nil]
  have hclose : ∀ k, closings k (h ++ ks.map (.connection c.number c.sock)) = closings k h := by
    intro k
    rw [closings_append, closings_connection, List.append_nil]
  have hcases : ∀ {j : ℕ} {x : ClientConnection},
      (s.connections.set i { c with conn := d })[j]? = some x →
      (j = i ∧ x = { c with conn := d }) ∨ (j ≠ i ∧ s.connections[j]? = some x) := by
    intro j x hj
    by_cases hji : j = i
    · subst hji
      rw [List.getElem?_set_self (List.getElem?_eq_some_iff.mp hi).1] at hj
      exact .inl ⟨rfl, (Option.some.inj hj).symm⟩
    · rw [List.getElem?_set_ne (Ne.symm hji)] at hj
      exact .inr ⟨hji, hj⟩
  refine ⟨by rw [hnumbers]; exact hr.nodup, by rw [hnumbers]; exact hr.born, ?_, ?_, ?_, ?_⟩
  · intro j x hj
    rcases hcases hj with ⟨rfl, rfl⟩ | ⟨hne, hj⟩
    · obtain ⟨hrun, haccepted, hclosed⟩ := hr.served hi
      refine ⟨?_, List.mem_append_left _ haccepted, by rwa [hclose]⟩
      rw [ofConnection_append, ofConnection_self]
      exact hrun.tail trivial hstep
    · obtain ⟨hrun, haccepted, hclosed⟩ := hr.served hj
      refine ⟨?_, List.mem_append_left _ haccepted, by rwa [hclose]⟩
      rwa [hother (hr.number_ne hi hj hne)]
  · intro j x hj
    rcases hcases hj with ⟨rfl, rfl⟩ | ⟨hne, hj⟩
    · exact ⟨hd, hplace⟩
    · obtain ⟨herased, hplace⟩ := hr.placed hj
      refine ⟨herased, .inl (hplace.resolve_right fun hbody => ?_)⟩
      rcases hp with hp | hp
      · cases hp.symm.trans hbody
      · exact hne (RoundPoint.body.inj (hp.symm.trans hbody)).symm
  · intro k h₁ hk hnot
    rw [hnumbers] at hnot
    obtain ⟨buffer, sock, hrun, haccepted, hclosed⟩ := hr.gone h₁ hk hnot
    have hne : c.number ≠ k := fun he => hnot (he ▸ mem_numbers hi)
    exact ⟨buffer, sock, by rwa [hother hne], List.mem_append_left _ haccepted, by rwa [hclose]⟩
  · intro k hk
    have hne : c.number ≠ k := by
      have := (hr.born _ (mem_numbers hi)).2
      dsimp only at hk
      omega
    rw [hother hne, hclose]
    exact hr.unborn hk

theorem erase (hr : Rounds h s) (hi : s.connections[i]? = some c)
    (hp : s.point = .walk i ∨ s.point = .body i) {a : SelectAction} {d : SelectConnection}
    {ks : List ServerEvent} (hstep : c.conn.step a = some (d, ks)) {point : RoundPoint}
    (hd : d.phase = .erased) :
    Rounds (h ++ (ks.map (.connection c.number c.sock) ++ [.closed c.number c.sock]))
      { s with connections := s.connections.eraseIdx i, point } := by
  have hon : ofConnection c.number
      (h ++ (ks.map (.connection c.number c.sock) ++ [.closed c.number c.sock])) =
        ofConnection c.number h ++ ks := by
    rw [ofConnection_append, ofConnection_append, ofConnection_self]
    exact congrArg (ofConnection c.number h ++ ·) (List.append_nil ks)
  have hclosed : closings c.number
      (h ++ (ks.map (.connection c.number c.sock) ++ [.closed c.number c.sock])) =
        closings c.number h ++ [c.sock] := by
    rw [closings_append, closings_append, closings_connection, List.nil_append]
    simp [closings, RoundEvent.closes]
  have hother : ∀ {k}, c.number ≠ k →
      ofConnection k (h ++ (ks.map (.connection c.number c.sock) ++ [.closed c.number c.sock])) =
        ofConnection k h ∧
      closings k (h ++ (ks.map (.connection c.number c.sock) ++ [.closed c.number c.sock])) =
        closings k h := by
    intro k hne
    rw [ofConnection_append, ofConnection_append, ofConnection_other hne, closings_append,
      closings_append, closings_connection]
    simp [ofConnection, closings, RoundEvent.on, RoundEvent.closes, hne]
  -- the connections left are those at the other indices
  have hcases : ∀ {j : ℕ} {x : ClientConnection}, (s.connections.eraseIdx i)[j]? = some x →
      ∃ j', j' ≠ i ∧ s.connections[j']? = some x := by
    intro j x hj
    rw [List.getElem?_eraseIdx] at hj
    split at hj
    · exact ⟨j, by omega, hj⟩
    · exact ⟨j + 1, by omega, hj⟩
  have hsub : List.Sublist
      (SelectServer.numbers { s with connections := s.connections.eraseIdx i, point }) s.numbers :=
    (List.eraseIdx_sublist s.connections i).map _
  refine ⟨hr.nodup.sublist hsub, fun k hk => hr.born k (hsub.subset hk), ?_, ?_, ?_, ?_⟩
  · intro j x hj
    obtain ⟨j', hne, hj'⟩ := hcases hj
    obtain ⟨hrun, haccepted, hclosed⟩ := hr.served hj'
    obtain ⟨hsame, hsame'⟩ := hother (hr.number_ne hi hj' hne)
    exact ⟨by rwa [hsame], List.mem_append_left _ haccepted, by rwa [hsame']⟩
  · intro j x hj
    obtain ⟨j', hne, hj'⟩ := hcases hj
    obtain ⟨herased, hplace⟩ := hr.placed hj'
    refine ⟨herased, .inl (hplace.resolve_right fun hbody => ?_)⟩
    rcases hp with hp | hp
    · cases hp.symm.trans hbody
    · exact hne (RoundPoint.body.inj (hp.symm.trans hbody)).symm
  · intro k h₁ hk hnot
    by_cases hne : c.number = k
    · subst hne
      obtain ⟨hrun, haccepted, hnone⟩ := hr.served hi
      obtain ⟨buffer, phase⟩ := d
      obtain rfl : phase = .erased := hd
      refine ⟨buffer, c.sock, ?_, List.mem_append_left _ haccepted, by rw [hclosed, hnone]; rfl⟩
      rw [hon]
      exact hrun.tail trivial hstep
    · have hold : k ∉ s.numbers := by
        intro hmem
        obtain ⟨x, hx, rfl⟩ := List.mem_map.mp hmem
        obtain ⟨j, hj⟩ := List.mem_iff_getElem?.mp hx
        have hji : j ≠ i := by
          rintro rfl
          exact hne (congrArg ClientConnection.number (Option.some.inj (hi.symm.trans hj)))
        exact hnot (List.mem_map_of_mem (List.mem_eraseIdx_iff_getElem?.mpr ⟨j, hji, hj⟩))
      obtain ⟨buffer, sock, hrun, haccepted, hclosed⟩ := hr.gone h₁ hk hold
      obtain ⟨hsame, hsame'⟩ := hother hne
      exact ⟨buffer, sock, by rwa [hsame], List.mem_append_left _ haccepted, by rwa [hsame']⟩
  · intro k hk
    have hne : c.number ≠ k := by
      have := (hr.born _ (mem_numbers hi)).2
      dsimp only at hk
      omega
    obtain ⟨hsame, hsame'⟩ := hother hne
    rw [hsame, hsame']
    exact hr.unborn hk

theorem step {b : RoundAction} (hr : Rounds h s) (hstep : RoundStep s b t es) :
    Rounds (h ++ es) t := by
  have elsewhere : ∀ {point : RoundPoint}, s.point = point → (∀ i, point ≠ .body i) →
      ∀ i, s.point ≠ .body i := fun hp hne i => hp ▸ hne i
  cases hstep with
  | selected hp =>
    exact hr.quiet rfl rfl (elsewhere hp fun _ => RoundPoint.noConfusion) fun _ => ⟨rfl, rfl⟩
  | accepted hp hl hcount => exact hr.accept hp
  | overflowed hp hl hcount =>
    exact hr.quiet rfl rfl (elsewhere hp fun _ => RoundPoint.noConfusion) fun _ => ⟨rfl, rfl⟩
  | acceptFailed hp hl =>
    exact hr.quiet rfl rfl (elsewhere hp fun _ => RoundPoint.noConfusion) fun _ => ⟨rfl, rfl⟩
  | noClient hp hl =>
    exact hr.quiet rfl rfl (elsewhere hp fun _ => RoundPoint.noConfusion) fun _ => ⟨rfl, rfl⟩
  | ended hp hi =>
    exact hr.quiet rfl rfl (elsewhere hp fun _ => RoundPoint.noConfusion) fun _ => ⟨rfl, rfl⟩
  | @served i c _ a conn ks hf hi hp h =>
    rw [SelectServer.put]
    split
    · exact hr.erase hi hp h ‹_›
    · rename_i hphase
      rw [List.append_nil]
      exact hr.stay hi hp h (by rw [hphase]; exact SelectPhase.noConfusion) (.inl hphase)
    · rename_i herased helsewhere
      rw [List.append_nil]
      exact hr.stay hi hp h herased (.inr rfl)

theorem run {listener : ℕ} (hl : listener < fdSetSize)
    (hrun : Run SelectServer.step SelectServer.inRange (SelectServer.start listener) h s) :
    Rounds h s ∧ s.InBounds := by
  apply hrun.invariant (I := fun h s => Rounds h s ∧ s.InBounds)
  · exact ⟨start listener, fun _ hx => List.mem_singleton.mp hx ▸ hl, RoundPoint.noConfusion⟩
  · rintro h s t a es ⟨hr, hb⟩ ha hs
    have hstep := RoundStep.of_step hb hs
    exact ⟨hr.step hstep, hb.step ha hstep⟩

end Rounds

/-- What the clients of the server are promised after history `h`. -/
structure Isolated (h : List RoundEvent) (s : SelectServer) : Prop where
  /-- At the start of a round the complete frames of each client are answered. -/
  answered : s.point = .select → ∀ k, 1 ≤ k → k ≤ s.clientCount →
    Declares (2 ^ 31 - 8) (receivedBytes (ofConnection k h)) → .writeFailed ∉ ofConnection k h →
      sentBytes (ofConnection k h) = replies (completeFrames (receivedBytes (ofConnection k h)))
  /-- A client that has left had ended its input, and its socket was closed once. -/
  left : ∀ k, 1 ≤ k → k ≤ s.clientCount → k ∉ s.numbers →
    .disconnected ∈ ofConnection k h ∧ ∃ sock, .accepted k sock ∈ h ∧ closings k h = [sock]
  /-- One that is connected has not, and its socket is open. -/
  connected : ∀ k ∈ s.numbers, .disconnected ∉ ofConnection k h ∧ closings k h = []
  /-- At the start of a round no complete frame is buffered. -/
  drained : s.point = .select → ∀ c ∈ s.connections, nextFrame c.conn.readBuffer = none
  /-- Nor is one when a client leaves. -/
  leaving : ∀ a t es, s.step a = some (t, es) → (∃ k ∈ s.numbers, k ∉ t.numbers) →
    ∀ c ∈ s.connections, nextFrame c.conn.readBuffer = none

namespace Rounds

variable {h es : List RoundEvent} {s t : SelectServer}

theorem atRest (hr : Rounds h s) (hp : s.point = .select) {k : ℕ} (h₁ : 1 ≤ k)
    (hk : k ≤ s.clientCount) : ∃ conn : SelectConnection,
      Run SelectConnection.step anyAction {} (ofConnection k h) conn ∧
        conn.phase.atRest = true := by
  by_cases hmem : k ∈ s.numbers
  · obtain ⟨c, hc, rfl⟩ := List.mem_map.mp hmem
    obtain ⟨i, hi⟩ := List.mem_iff_getElem?.mp hc
    have hplace := (hr.placed hi).2
    rw [hp] at hplace
    refine ⟨c.conn, (hr.served hi).1, ?_⟩
    rw [hplace.resolve_right RoundPoint.noConfusion]
    rfl
  · obtain ⟨buffer, -, hrun, -⟩ := hr.gone h₁ hk hmem
    exact ⟨⟨buffer, .erased⟩, hrun, rfl⟩

theorem answers (hr : Rounds h s) (hp : s.point = .select) {k : ℕ} (h₁ : 1 ≤ k)
    (hk : k ≤ s.clientCount) (hd : Declares (2 ^ 31 - 8) (receivedBytes (ofConnection k h)))
    (hf : .writeFailed ∉ ofConnection k h) :
    sentBytes (ofConnection k h) = replies (completeFrames (receivedBytes (ofConnection k h))) := by
  obtain ⟨conn, hrun, hrest⟩ := hr.atRest hp h₁ hk
  exact select_answers hrun hrest hf (hd.mono (by decide))

theorem leaves {a : RoundAction} (hr : Rounds h s) (hstep : RoundStep s a t es)
    (hleft : ∃ k ∈ s.numbers, k ∉ t.numbers) :
    ∀ c ∈ s.connections, c.conn.phase.atRest = true := by
  obtain ⟨k, hk, hnot⟩ := hleft
  cases hstep with
  | selected hp => exact absurd hk hnot
  | accepted hp hl hcount =>
    exact absurd (List.map_subset _ (List.subset_append_left _ _) hk) hnot
  | overflowed hp hl hcount => exact absurd hk hnot
  | acceptFailed hp hl => exact absurd hk hnot
  | noClient hp hl => exact absurd hk hnot
  | ended hp hi => exact absurd hk hnot
  | @served i c _ a conn ks hf hi hp hs =>
    rw [SelectServer.put] at hnot
    split at hnot
    · rename_i herased
      have hrecv := (SelectStep.of_step hs).erased.2.2 herased
      intro d hd
      obtain ⟨j, hj⟩ := List.mem_iff_getElem?.mp hd
      rcases (hr.placed hj).2 with helse | hbody
      · rw [helse]
        rfl
      · have hji : j = i := by
          rcases hp with hp | hp
          · cases hp.symm.trans hbody
          · exact (RoundPoint.body.inj (hp.symm.trans hbody)).symm
        subst hji
        rw [Option.some.inj (hj.symm.trans hi), hrecv]
        rfl
    · rw [SelectServer.numbers_set hi] at hnot
      exact absurd hk hnot
    · rw [SelectServer.numbers_set hi] at hnot
      exact absurd hk hnot

theorem drained (hr : Rounds h s) {c : ClientConnection} (hc : c ∈ s.connections)
    (hrest : c.conn.phase.atRest = true) : nextFrame c.conn.readBuffer = none := by
  obtain ⟨i, hi⟩ := List.mem_iff_getElem?.mp hc
  exact SelectConnection.Drained.run (hr.served hi).1 hrest

theorem isolated (hr : Rounds h s) (hb : s.InBounds) : Isolated h s where
  answered hp _ h₁ hk hd hf := hr.answers hp h₁ hk hd hf
  left k h₁ hk hnot := by
    obtain ⟨buffer, sock, hrun, haccepted, hclosed⟩ := hr.gone h₁ hk hnot
    exact ⟨(SelectConnection.disconnected_iff hrun).mpr rfl, sock, haccepted, hclosed⟩
  connected k hk := by
    obtain ⟨c, hc, rfl⟩ := List.mem_map.mp hk
    obtain ⟨i, hi⟩ := List.mem_iff_getElem?.mp hc
    obtain ⟨hrun, -, hclosed⟩ := hr.served hi
    exact ⟨fun hmem => (hr.placed hi).1 ((SelectConnection.disconnected_iff hrun).mp hmem), hclosed⟩
  drained hp c hc := by
    obtain ⟨i, hi⟩ := List.mem_iff_getElem?.mp hc
    have hplace := (hr.placed hi).2
    rw [hp] at hplace
    refine hr.drained hc ?_
    rw [hplace.resolve_right RoundPoint.noConfusion]
    rfl
  leaving _ _ _ hs hleft c hc := hr.drained hc (hr.leaves (RoundStep.of_step hb hs) hleft c hc)

end Rounds

/-- In every run of the loop whose sockets fit an `fd_set` and whose clients an `int`, with any sets
of ready sockets and any results of the other calls: at the start of a round each client has been sent the replies to the
complete frames it has sent and nothing else, whatever the others do; it leaves when its own input
has ended, its socket is closed once, and no complete frame is left behind in any buffer.  What a
client is sent is the same in any other such run in which it sends the same bytes. -/
theorem connections_isolated {listener : ℕ} {h : List RoundEvent} {s : SelectServer}
    (hl : listener < fdSetSize)
    (hrun : Run SelectServer.step SelectServer.inRange (SelectServer.start listener) h s) :
    Isolated h s ∧
    ∀ {listener' : ℕ} {h' : List RoundEvent} {s' : SelectServer}, listener' < fdSetSize →
      Run SelectServer.step SelectServer.inRange (SelectServer.start listener') h' s' →
      s.point = .select → s'.point = .select →
      ∀ k k', 1 ≤ k → k ≤ s.clientCount → 1 ≤ k' → k' ≤ s'.clientCount →
        .writeFailed ∉ ofConnection k h → .writeFailed ∉ ofConnection k' h' →
        Declares (2 ^ 31 - 8) (receivedBytes (ofConnection k h)) →
        receivedBytes (ofConnection k' h') = receivedBytes (ofConnection k h) →
          sentBytes (ofConnection k' h') = sentBytes (ofConnection k h) := by
  obtain ⟨hr, hb⟩ := Rounds.run hl hrun
  refine ⟨hr.isolated hb, ?_⟩
  intro listener' h' s' hl' hrun' hp hp' k k' h₁ hk h₁' hk' hf hf' hd hsame
  have hr' := (Rounds.run hl' hrun').1
  rw [hr.answers hp h₁ hk hd hf, hr'.answers hp' h₁' hk' (hsame ▸ hd) hf', hsame]

/-- Two clients; the first is answered, and both disconnect in one round. -/
private def twoClients : List RoundAction :=
  [.select (.ready [3]), .accept (some 4), .internal, .connection .internal, .internal,
    .select (.ready [3, 4]), .accept (some 5), .internal,
    .connection (.recv (.data (encodeFrame 1 [7]))), .connection .internal,
    .connection (.send (.accepted 9)), .connection .internal, .connection (.send (.accepted 11)),
    .connection .internal, .connection .internal, .internal, .connection .internal, .internal,
    .select (.ready [4, 5]), .internal, .internal, .connection (.recv .failed), .internal,
    .connection (.recv .failed), .internal]

theorem connections_isolated_two :
    let q := afterAll SelectServer.step SelectServer.inRange (SelectServer.start 3) twoClients
    q.1.connections.length = 0 ∧ closings 2 q.2 = [5] ∧
      sentBytes (ofConnection 1 q.2) =
        replies (completeFrames (receivedBytes (ofConnection 1 q.2))) := by
  intro q
  have hi := (connections_isolated (by decide) (Run.of_actions SelectServer.step
    SelectServer.inRange (SelectServer.start 3) twoClients (by decide))).1
  refine ⟨by decide, by decide, ?_⟩
  exact hi.answered (by decide) 1 (by decide) (by decide)
    (.frame (by decide) (by decide) (by decide) (.header (by decide))) (by decide)

/-- A client is accepted on the first socket that does not fit the set, where the loop looks it up
at once. -/
private def overrun : List RoundAction :=
  [.select (.ready [3]), .accept (some 1024), .internal]

/-- From there on a client that has sent nothing may be sent anything. -/
theorem connections_isolated_overrun :
    let p := afterAll SelectServer.step anyAction (SelectServer.start 3) overrun
    let t : SelectServer := { p.1 with point := .select }
    let q := after SelectServer.step p.1 (.undefined t [.connection 1 1024 (.sent [0])])
    p.2 = [.selected (.ready [3]), .accepted 1 1024, .overrun 1024] ∧
      Run SelectServer.step anyAction (SelectServer.start 3) (p.2 ++ q.2) q.1 ∧
      ¬ Isolated (p.2 ++ q.2) q.1 := by
  intro p t q
  have hrun := Run.of_actions SelectServer.step anyAction (SelectServer.start 3) overrun (by decide)
  have hstep := step_eq_after SelectServer.step p.1
    (.undefined t [.connection 1 1024 (.sent [0])]) (by decide)
  refine ⟨by decide, hrun.tail trivial hstep, ?_⟩
  intro hisolated
  have hsent := hisolated.answered (by decide) 1 (by decide) (by decide)
    (.header (by decide)) (by decide)
  exact absurd hsent (by decide)

end PromiseDemo
