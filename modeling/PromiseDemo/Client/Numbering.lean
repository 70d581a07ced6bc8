import PromiseDemo.Client.Streams

/-!
# The numbers of requests

`next_id_` counts the requests of a connection modulo `2^32`.  Its value is the number of a request
that still waits exactly when that request was made a whole multiple of `2^32` requests ago; then
`send_request` throws after it has queued a packet.
-/

namespace PromiseDemo

open Transition PromiseStore PrefixCode

variable {h es : List Event} {v v' : View} {a : Action}

/-! ## What a step does to numbers and entries -/

theorem Sound.number_step (hs : Sound h v) (hstep : View.step v a = some (v', es)) :
    (queuedOf es = [] ∧ v'.conn.nextId = v.conn.nextId) ∨
      ∃ payload, queuedOf es = [⟨v.conn.nextId, payload⟩] ∧
        v'.conn.nextId = v.conn.nextId + 1 := by
  have closing : ∀ {what : String} {next : Phase}, v.phase.served = none →
      v.conn.closeStep what next = (v', es) → queuedOf es = [] ∧ v'.conn.nextId = v.conn.nextId := by
    intro what next hserved hv
    have hqueued := (streams_closeStep hv).2.2.1
    obtain ⟨promises, rfl, -, -⟩ := (hserved ▸ hs.ledger).of_closeStep hv
    exact ⟨hqueued, rfl⟩
  cases ViewStep.of_step hstep with
  | @sendRequest _ payload hp =>
    rcases hs.ledger.sendRequest_cases payload with ⟨-, hv, he⟩ | ⟨-, -, hv, he⟩ | ⟨-, -, hv, he⟩
    · rw [hv, he]
      exact .inl ⟨rfl, rfl⟩
    · rw [hv, he]
      exact .inr ⟨payload, rfl, rfl⟩
    · rw [hv, he]
      exact .inr ⟨payload, rfl, rfl⟩
  | io hio =>
    cases hio with
    | received hp hc => subst hc; exact .inl ⟨rfl, rfl⟩
    | lost hv => exact .inl (closing rfl hv)
    | broken hv => exact .inl (closing rfl hv)
    | decoded hd => cases hd; exact .inl ⟨rfl, rfl⟩
    | _ => exact .inl ⟨rfl, rfl⟩
  | enter => exact .inl ⟨rfl, rfl⟩
  | leave => exact .inl ⟨rfl, rfl⟩

theorem Sound.entry_step (hs : Sound h v) (hstep : View.step v a = some (v', es)) {id : UInt32}
    {r : PendingRequest} (hr : v'.conn.pending.lookup id = some r) :
    (∃ r', v.conn.pending.lookup id = some r' ∧ r'.promise = r.promise) ∨
      ∃ payload, es = [.queued ⟨id, payload⟩, .issued r.promise id payload] := by
  have closing : ∀ {what : String} {next : Phase}, v.phase.served = none →
      v.conn.closeStep what next = (v', es) → v'.conn.pending = ∅ := by
    intro what next hserved hv
    obtain ⟨promises, rfl, -, -⟩ := (hserved ▸ hs.ledger).of_closeStep hv
    rfl
  -- writing other frames to an entry
  have entry : ∀ {c : Connection} {i : UInt32} {q r' : PendingRequest}, c.getRequest i = some q →
      (c.pending.insert i r').lookup id = some r → r'.promise = q.promise →
      ∃ r'', c.pending.lookup id = some r'' ∧ r''.promise = r.promise := by
    intro c i q r' hq hr hp
    by_cases hi : id = i
    · subst hi
      rw [AList.lookup_insert] at hr
      exact ⟨q, hq, by rw [← Option.some.inj hr, hp]⟩
    · exact ⟨r, by rwa [AList.lookup_insert_ne hi] at hr, rfl⟩
  cases ViewStep.of_step hstep with
  | @sendRequest _ payload hp =>
    rcases hs.ledger.sendRequest_cases payload with ⟨-, hv, -⟩ | ⟨-, -, hv, -⟩ | ⟨-, -, hv, he⟩
    · rw [hv] at hr
      exact .inl ⟨r, hr, rfl⟩
    · rw [hv] at hr
      exact .inl ⟨r, hr, rfl⟩
    · rw [hv] at hr
      by_cases hi : id = v.conn.nextId
      · subst hi
        rw [AList.lookup_insert] at hr
        obtain rfl := Option.some.inj hr
        exact .inr ⟨payload, he⟩
      · rw [AList.lookup_insert_ne hi] at hr
        exact .inl ⟨r, hr, rfl⟩
  | io hio =>
    cases hio with
    | received hp hc => subst hc; exact .inl ⟨r, hr, rfl⟩
    | lost hv => simp [closing rfl hv] at hr
    | broken hv => simp [closing rfl hv] at hr
    | decoded hd => cases hd; exact .inl ⟨r, hr, rfl⟩
    | pushed hq => exact .inl (entry hq hr rfl)
    | valueSet hq hset => exact .inl (entry hq hr rfl)
    | @removed c i =>
      have hi : id ≠ i := by
        rintro rfl
        rw [Connection.removeRequest, AList.lookup_erase] at hr
        cases hr
      exact .inl ⟨r, by rwa [Connection.removeRequest, AList.lookup_erase_ne hi] at hr, rfl⟩
    | _ => exact .inl ⟨r, hr, rfl⟩
  | enter => exact .inl ⟨r, hr, rfl⟩
  | leave => exact .inl ⟨r, hr, rfl⟩

theorem Sound.issue_step (hs : Sound h v) (hstep : View.step v a = some (v', es)) {p : ℕ}
    {id : UInt32} {payload : Bytes} (hmem : .issued p id payload ∈ es) :
    a = .sendRequest payload ∧ id = v.conn.nextId ∧ v.conn.pending.lookup id = none ∧
      es = [.queued ⟨id, payload⟩, .issued p id payload] := by
  cases ViewStep.of_step hstep with
  | @sendRequest _ payload' hp =>
    rcases hs.ledger.sendRequest_cases payload' with ⟨-, -, he⟩ | ⟨-, -, -, he⟩ | ⟨-, hnone, -, he⟩
    · simp [he] at hmem
    · simp [he] at hmem
    · simp only [he, List.mem_cons, reduceCtorEq, Event.issued.injEq, List.not_mem_nil, or_false,
        false_or] at hmem
      obtain ⟨rfl, rfl, rfl⟩ := hmem
      exact ⟨rfl, rfl, hnone, he⟩
  | io hio =>
    cases hio with
    | lost hv => rcases Connection.mem_closeStep hv hmem with ⟨q, he⟩ | he <;> cases he
    | broken hv => rcases Connection.mem_closeStep hv hmem with ⟨q, he⟩ | he <;> cases he
    | _ => simp at hmem
  | enter => simp at hmem
  | leave => simp at hmem

theorem Sound.issue_split (hs : Sound h v) {es₁ es₂ : List Event} {p : ℕ} {id : UInt32}
    {payload : Bytes}
    (hstep : View.step v a = some (v', es₁ ++ .issued p id payload :: es₂)) :
    es₁ = [.queued ⟨id, payload⟩] ∧ es₂ = [] := by
  have hmem : Event.issued p id payload ∈ es₁ ++ .issued p id payload :: es₂ := by simp
  obtain ⟨-, -, -, hes⟩ := hs.issue_step hstep hmem
  cases es₁ with
  | nil => cases hes
  | cons e es₁ =>
    obtain ⟨rfl, hrest⟩ := List.cons.inj hes
    cases es₁ with
    | nil => exact ⟨rfl, (List.cons.inj hrest).2⟩
    | cons e' es₁ => simp at hrest

/-! ## Numbers modulo `2^32` -/

/-- Requests are numbered from 1 on, modulo `2^32`. -/
structure Numbered (h : List Event) (v : View) : Prop where
  next : v.conn.nextId = UInt32.ofNat ((queuedOf h).length + 1)
  ids : (queuedOf h).map Frame.id =
    (List.range (queuedOf h).length).map fun k => UInt32.ofNat (k + 1)
  pending : ∀ {id r}, v.conn.pending.lookup id = some r → id ∈ (queuedOf h).map Frame.id

namespace Numbered

theorem init : Numbered [] View.init where
  next := rfl
  ids := rfl
  pending hr := nomatch hr

theorem fresh (hn : Numbered h v) (hlt : (queuedOf h).length + 1 < 2 ^ 32) :
    v.conn.pending.lookup v.conn.nextId = none := by
  cases hr : v.conn.pending.lookup v.conn.nextId with
  | none => rfl
  | some r =>
    have hmem := hn.pending hr
    rw [hn.ids, hn.next] at hmem
    obtain ⟨k, hk, he⟩ := List.mem_map.mp hmem
    rw [List.mem_range] at hk
    have hnat := congrArg UInt32.toNat he
    rw [UInt32.toNat_ofNat', UInt32.toNat_ofNat', Nat.mod_eq_of_lt (by omega),
      Nat.mod_eq_of_lt (by omega)] at hnat
    omega

theorem step (hn : Numbered h v) (hs : Sound h v) (hstep : View.step v a = some (v', es)) :
    Numbered (h ++ es) v' := by
  have hids : (queuedOf (h ++ es)).map Frame.id =
      (queuedOf h).map Frame.id ++ (queuedOf es).map Frame.id := by
    rw [queuedOf_append, List.map_append]
  have hpending : ∀ {id r}, v'.conn.pending.lookup id = some r →
      id ∈ (queuedOf (h ++ es)).map Frame.id := by
    intro id r hr
    rw [hids, List.mem_append]
    rcases hs.entry_step hstep hr with ⟨r', hr', -⟩ | ⟨payload, rfl⟩
    · exact .inl (hn.pending hr')
    · exact .inr (List.mem_singleton_self id)
  rcases hs.number_step hstep with ⟨hnone, hnext⟩ | ⟨payload, hone, hnext⟩
  · have hq : queuedOf (h ++ es) = queuedOf h := by rw [queuedOf_append, hnone, List.append_nil]
    exact ⟨by rw [hq, hnext, hn.next], by rw [hq, hn.ids], hpending⟩
  · have hlen : (queuedOf (h ++ es)).length = (queuedOf h).length + 1 := by
      rw [queuedOf_append, hone, List.length_append, List.length_singleton]
    refine ⟨?_, ?_, hpending⟩
    · rw [hlen, hnext, hn.next, UInt32.ofNat_add (_ + 1)]
      rfl
    · rw [hids, hone, hlen, hn.ids, List.range_succ, List.map_append, List.map_singleton,
        List.map_singleton, hn.next]

end Numbered

/-- Where the tickets of a connection stand among its requests. -/
structure Ticketed (h : List Event) (v : View) : Prop where
  number : ∀ {h₁ h₂ p id payload}, h = h₁ ++ .issued p id payload :: h₂ →
    id = UInt32.ofNat (queuedOf h₁).length
  entry : ∀ {id r}, v.conn.pending.lookup id = some r →
    ∃ payload, Event.issued r.promise id payload ∈ h

namespace Ticketed

theorem init : Ticketed [] View.init where
  number heq := by simp at heq
  entry hr := by simp [View.init] at hr

theorem step (ht : Ticketed h v) (hn : Numbered h v) (hs : Sound h v)
    (hstep : View.step v a = some (v', es)) : Ticketed (h ++ es) v' := by
  refine ⟨?_, ?_⟩
  · intro h₁ h₂ p id payload heq
    rcases split_event heq with ⟨rest, hold, -⟩ | ⟨front, rfl, hnew⟩
    · exact ht.number hold
    · have hmem : Event.issued p id payload ∈ es := by simp [hnew]
      obtain ⟨-, rfl, -, -⟩ := hs.issue_step hstep hmem
      -- the request has been queued just before
      obtain ⟨rfl, -⟩ := hs.issue_split (hnew ▸ hstep)
      rw [hn.next, queuedOf_append, List.length_append]
      rfl
  · intro id r hr
    rcases hs.entry_step hstep hr with ⟨r', hr', hp⟩ | ⟨payload, hes⟩
    · obtain ⟨payload, hmem⟩ := ht.entry hr'
      exact ⟨payload, List.mem_append_left _ (hp ▸ hmem)⟩
    · exact ⟨payload, by rw [hes]; simp⟩

end Ticketed

theorem numbered_run {allowed : View → Action → Prop} (hrun : Run View.step allowed View.init h v) :
    Sound h v ∧ Numbered h v ∧ Ticketed h v := by
  apply hrun.invariant (I := fun h v => Sound h v ∧ Numbered h v ∧ Ticketed h v)
  · exact ⟨.init, .init, .init⟩
  · rintro h v v' a es ⟨hs, hn, ht⟩ _ hstep
    exact ⟨hs.step hstep, hn.step hs hstep, ht.step hn hs hstep⟩

theorem Client.numbered {n : ℕ} {allowed : Client n → ClientAction n → Prop}
    {h : List (Fin n × Event)} {s : Client n}
    (hrun : Run processConnections allowed Client.init h s) (c : Fin n) :
    Sound (onPart c h) (s.parts c) ∧ Numbered (onPart c h) (s.parts c) ∧
      Ticketed (onPart c h) (s.parts c) :=
  numbered_run (Client.part_run hrun c)

/-! ## `send_request` as a whole -/

/-- `send_request` draws a number that no waiting request has, and where it throws it changes
nothing. -/
structure SendsWhole (c : Connection) : Prop where
  fresh : ∀ {id r}, c.pending.lookup id = some r → c.nextId ≠ id
  whole : ∀ payload e, (c.sendRequest payload).2 = .error e →
    (c.sendRequest payload).1.nextId = c.nextId ∧
      (c.sendRequest payload).1.outgoing = c.outgoing ∧
      (c.sendRequest payload).1.pending = c.pending

/-- A request waits that was made a whole multiple of `2^32` requests before the next one. -/
def WrapsOnto (h : List Event) (c : Connection) : Prop :=
  ∃ h₁ p id payload h₂ r, h = h₁ ++ .issued p id payload :: h₂ ∧
    c.pending.lookup id = some r ∧ r.promise = p ∧ 2 ^ 32 ∣ (queuedOf h₂).length + 1

theorem number_eq_iff (m d : ℕ) : UInt32.ofNat (m + d + 1) = UInt32.ofNat m ↔ 2 ^ 32 ∣ d + 1 := by
  rw [← UInt32.toNat_inj, UInt32.toNat_ofNat', UInt32.toNat_ofNat']
  omega

theorem Numbered.next_after (hn : Numbered h v) {h₁ h₂ : List Event} {p : ℕ} {id : UInt32}
    {payload : Bytes} (heq : h = h₁ ++ .issued p id payload :: h₂) :
    v.conn.nextId = UInt32.ofNat ((queuedOf h₁).length + (queuedOf h₂).length + 1) := by
  rw [hn.next, heq, queuedOf_append, List.length_append]
  rfl

/-- The next number is in use exactly where it has come round to a request that waits. -/
theorem wrapsOnto_iff (hn : Numbered h v) (ht : Ticketed h v) :
    WrapsOnto h v.conn ↔ ∃ r, v.conn.pending.lookup v.conn.nextId = some r := by
  constructor
  · rintro ⟨h₁, p, id, payload, h₂, r, heq, hr, -, hdvd⟩
    have hid : v.conn.nextId = id := by
      rw [hn.next_after heq, (number_eq_iff _ _).mpr hdvd, ht.number heq]
    exact ⟨r, by rw [hid, hr]⟩
  · rintro ⟨r, hr⟩
    obtain ⟨payload, hmem⟩ := ht.entry hr
    obtain ⟨h₁, h₂, heq⟩ := List.append_of_mem hmem
    refine ⟨h₁, r.promise, v.conn.nextId, payload, h₂, r, heq, hr, rfl, ?_⟩
    apply (number_eq_iff (queuedOf h₁).length _).mp
    rw [← hn.next_after heq, ht.number heq]

theorem not_wrapsOnto {c : Connection} (hlt : (queuedOf h).length + 1 < 2 ^ 32) :
    ¬WrapsOnto h c := by
  rintro ⟨h₁, p, id, payload, h₂, r, rfl, -, -, hdvd⟩
  rw [queuedOf_append, queuedOf_cons, List.length_append, List.length_append] at hlt
  have hle := Nat.le_of_dvd (Nat.succ_pos _) hdvd
  omega

/-- In every reachable state of every connection, after any number of requests: the number that
`send_request` draws is new and a call that throws changes nothing, exactly when no request waits
that was made a whole multiple of `2^32` requests before. -/
theorem send_request_whole_iff {n : ℕ} {h : List (Fin n × Event)} {s : Client n}
    (hrun : Run processConnections anyAction Client.init h s) (c : Fin n) :
    SendsWhole (s.parts c).conn ↔ ¬WrapsOnto (onPart c h) (s.parts c).conn := by
  obtain ⟨hs, hn, ht⟩ := Client.numbered hrun c
  rw [wrapsOnto_iff hn ht]
  constructor
  · rintro hw ⟨r, hr⟩
    exact hw.fresh hr rfl
  · intro hnone
    refine ⟨?_, ?_⟩
    · rintro id r hr rfl
      exact hnone ⟨r, hr⟩
    · intro payload e he
      rcases hs.ledger.sendRequest_cases payload with ⟨-, hv, -⟩ | ⟨-, hused, -⟩ | ⟨hc, hid, -, -⟩
      · rw [hv]
        exact ⟨rfl, rfl, rfl⟩
      · exact absurd hused hnone
      · -- with a new number the future is returned
        have hf := create_getFuture (s.parts c).conn.promises
        simp [Connection.sendRequest, Connection.pendingAt, hc, hid, hf] at he

theorem send_request_whole_two : SendsWhole
    ((afterAll processConnections anyAction (Client.init (n := 1))
      [.part 0 (.sendRequest [7]), .part 0 (.sendRequest [8])]).1.parts 0).conn :=
  (send_request_whole_iff (Run.of_actions processConnections anyAction (Client.init (n := 1))
    [.part 0 (.sendRequest [7]), .part 0 (.sendRequest [8])] (by decide)) 0).mpr
    (not_wrapsOnto (by decide))

/-- Requests only, none of which is answered. -/
private def Requesting (_ : View) (b : Action) : Prop := ∃ payload, b = .sendRequest payload

private theorem exists_requests (m : ℕ) : ∃ h v, Run View.step Requesting View.init h v ∧
    (queuedOf h).length = m ∧ v.conn.closed = false ∧ v.phase = .away ∧
    (0 < m → ∃ r, v.conn.pending.lookup 1 = some r) := by
  induction m with
  | zero => exact ⟨[], View.init, .refl, rfl, rfl, rfl, fun hpos => absurd hpos (lt_irrefl 0)⟩
  | succ m ih =>
    obtain ⟨h, v, hrun, hlen, hopen, hphase, hone⟩ := ih
    obtain ⟨hs, hn, -⟩ := numbered_run hrun
    have hstep : View.step v (.sendRequest []) =
        some (⟨(v.conn.sendRequest []).1, v.phase⟩, v.conn.sendEvents []) :=
      View.step_sendRequest.mpr ⟨by rw [hphase]; rfl, rfl, rfl⟩
    refine ⟨_, _, hrun.tail ⟨[], rfl⟩ hstep, ?_, by simpa using hopen, hphase, fun _ => ?_⟩
    · rcases hs.ledger.sendRequest_cases [] with ⟨hc, -⟩ | ⟨-, -, -, he⟩ | ⟨-, -, -, he⟩
      · exact Connection.not_closed hopen hc
      · rw [he, queuedOf_append, List.length_append, hlen]
        rfl
      · rw [he, queuedOf_append, List.length_append, hlen]
        rfl
    · rcases hs.ledger.sendRequest_cases [] with ⟨hc, -⟩ | ⟨-, hused, hv, -⟩ | ⟨-, hid, hv, -⟩
      · exact Connection.not_closed hopen hc
      · rw [hv]
        rcases Nat.eq_zero_or_pos m with rfl | hpos
        · rwa [hn.next, hlen] at hused
        · exact hone hpos
      · rw [hv]
        by_cases h₁ : 1 = v.conn.nextId
        · exact ⟨_, by rw [h₁]; exact AList.lookup_insert _⟩
        · have hpos : 0 < m := by
            apply Nat.pos_of_ne_zero
            rintro rfl
            rw [hn.next, hlen] at h₁
            exact h₁ rfl
          obtain ⟨r, hr⟩ := hone hpos
          exact ⟨r, (AList.lookup_insert_ne h₁).trans hr⟩

/-- After `2^32` requests without an answer the next number is that of the first. -/
theorem send_request_wraps : ¬ ∀ (h : List (Fin 1 × Event)) (s : Client 1),
    Run processConnections anyAction Client.init h s → ∀ c, SendsWhole (s.parts c).conn := by
  intro hall
  obtain ⟨h, v, hrun, hlen, hopen, hphase, hone⟩ := exists_requests (2 ^ 32)
  obtain ⟨r, hr⟩ := hone (by decide)
  have hclient := @Loop.lift 1 View Action Event clientBody Client.init anyAction Requesting 0 v h
    (by rintro v a ⟨payload, rfl⟩; exact .inl rfl)
    (by
      rintro w a ⟨u, es⟩ ⟨payload, rfl⟩ hs
      exact (View.step_sendRequest.mp hs).1)
    (by intro j _ hp; cases hp)
    (by intro s a _; trivial) hrun
  have hwhole := hall _ _ hclient 0
  simp only [Function.update_self] at hwhole
  obtain ⟨-, hn, -⟩ := numbered_run hrun
  refine hwhole.fresh hr ?_
  rw [hn.next, hlen]
  rfl

end PromiseDemo
