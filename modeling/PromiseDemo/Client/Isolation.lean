import PromiseDemo.Client.Futures

/-!
# What a peer can do to the other connections

The ids that `get_request` looks up come from the network.  While every one of them is in
`pending_`, no exception leaves the I/O thread, and what arrives on one connection makes no
difference to any other.
-/

namespace PromiseDemo

open Transition PromiseStore

variable {n : ℕ}

/-- If `get_request` comes next, it finds its entry. -/
def View.knownLookup (v : View) : Bool :=
  match v.phase with
  | .getRequest data => (v.conn.getRequest data.id).isSome
  | _ => true

/-- No step of the I/O thread looks up an id that is missing from `pending_`. -/
def knownLookups (s : Client n) : ClientAction n → Bool
  | .part i (.io _) => (s.parts i).knownLookup
  | _ => true

/-! ## No exception leaves the thread -/

theorem Sound.not_threw {h es : List Event} {v v' : View} {op : IoOp} (hs : Sound h v)
    (hknown : v.knownLookup = true) (hstep : IoStep v op v' es) : v'.phase.isThrew = false := by
  cases hstep with
  | lost hv =>
    obtain ⟨promises, rfl, -⟩ := hs.ledger.of_closeStep hv
    rfl
  | broken hv =>
    obtain ⟨promises, rfl, -⟩ := hs.ledger.of_closeStep hv
    rfl
  | missing hr => simp [View.knownLookup, hr] at hknown
  | valueFault hr hset =>
    obtain ⟨promises, hok, -⟩ := Ledger.setValue hs.ledger hr (.value _)
    cases hset.symm.trans hok
  | received hp hc => dsimp only; split <;> rfl
  | pushed hr => dsimp only; split <;> rfl
  | _ => rfl

/-- An action of one connection alone, under the condition on lookups. -/
def View.allowsKnown (v : View) (a : Action) : Prop := ∀ op, a = .io op → v.knownLookup = true

theorem Sound.run_not_threw {h₀ h : List Event} {v w : View} (hs : Sound h₀ v)
    (hv : v.phase.isThrew = false) (hrun : Run View.step View.allowsKnown v h w) :
    Sound (h₀ ++ h) w ∧ w.phase.isThrew = false := by
  refine ⟨hs.run hrun, ?_⟩
  apply hs.invariant (I := fun w => w.phase.isThrew = false) hrun hv
  intro h v a v' es hs hv ha hstep
  cases ViewStep.of_step hstep with
  | sendRequest hp => exact hv
  | io hio => exact hs.not_threw (ha _ rfl) hio
  | enter => rfl
  | leave => rfl

theorem Client.not_threw {h : List (Fin n × Event)} {s : Client n}
    (hrun : Run processConnections (fun s a => knownLookups s a = true) Client.init h s)
    (c : Fin n) : (s.parts c).phase.isThrew = false := by
  have hpart : Run View.step View.allowsKnown View.init (onPart c h) (s.parts c) := by
    apply Loop.project c _ _ _ hrun
    · intro s b hb op heq
      subst heq
      exact hb
    · exact fun _ _ h => nomatch h
    · exact fun _ _ h => nomatch h
  exact (Sound.init.run_not_threw rfl hpart).2

/-! ## The same run without what arrived on one connection -/

/-- Where the thread stands in a connection when nothing has arrived on it. -/
def Phase.unread : Phase → Phase
  | .receive => .hasIncoming
  | .incoming | .getRequest _ | .pushFrame _ | .setValue _ | .removeRequest _ => .hasOutgoing
  | phase => phase

/-- `w` is the connection `v` as it would be if nothing more had arrived on it. -/
structure Unread (v w : View) : Prop where
  phase : w.phase = v.phase.unread
  drained : w.conn.frameReady = false
  outgoing : w.conn.outgoing = v.conn.outgoing
  nextId : w.conn.nextId = v.conn.nextId
  closed : w.conn.closed = v.conn.closed
  sound : ∃ h, Sound h v
  sound' : ∃ h, Sound h w

/-- The I/O thread's own steps that read nothing and look up nothing. -/
def View.silent (w : View) (a : Action) : Prop :=
  (∃ op, a = .io op ∧ ∀ chunk, op ≠ .recv (.data chunk)) ∧ ∀ data, w.phase ≠ .getRequest data

/-- What a silent run shows. -/
def NoReceive (es : List Event) : Prop := ∀ chunk, Event.received chunk ∉ es

theorem Unread.sendRequest {v w : View} (hu : Unread v w) (payload : Bytes) :
    Unread ⟨(v.conn.sendRequest payload).1, v.phase⟩ ⟨(w.conn.sendRequest payload).1, w.phase⟩ ∧
      NoReceive (w.conn.sendEvents payload) := by
  obtain ⟨h, hs⟩ := hu.sound
  obtain ⟨h', hs'⟩ := hu.sound'
  refine ⟨⟨hu.phase, ?_, ?_, ?_, ?_, ⟨_, hs.sendRequest payload⟩, ⟨_, hs'.sendRequest payload⟩⟩, ?_⟩
  · rw [Connection.sendRequest_frameReady, hu.drained]
  · rw [Connection.sendRequest_outgoing, Connection.sendRequest_outgoing, hu.closed, hu.outgoing,
      hu.nextId]
  · rw [Connection.sendRequest_nextId, Connection.sendRequest_nextId, hu.closed, hu.nextId]
  · rw [Connection.sendRequest_closed, Connection.sendRequest_closed, hu.closed]
  · intro chunk hmem
    rcases mem_sendEvents hmem with ⟨-, he⟩ | ⟨p, he⟩ | ⟨x, he⟩ <;> cases he

theorem idle_step {c : Connection} (hdrained : c.frameReady = false) :
    ∃ op, (∀ chunk, op ≠ .recv (.data chunk)) ∧
      IoStep ⟨c, .hasIncoming⟩ op ⟨c, .hasOutgoing⟩ [] := by
  cases hc : c.closed with
  | true => exact ⟨.internal, by simp, .closedIdle hdrained hc⟩
  | false => exact ⟨.waitReadable false, by simp, .notReadable hdrained hc⟩

theorem Unread.ioStep {v v' w : View} {op : IoOp} {es : List Event} (hu : Unread v w)
    (hknown : v.knownLookup = true) (hstep : IoStep v op v' es) :
    ∃ es' w', Run View.step View.silent w es' w' ∧ Unread v' w' ∧ NoReceive es' := by
  have hcopy := hu
  obtain ⟨hphase, hdrained, hout, hnext, hclosed, ⟨h, hs⟩, ⟨h', hs'⟩⟩ := hcopy
  obtain ⟨cw, phase⟩ := w
  dsimp only at hphase hdrained hout hnext hclosed
  have answer : ∀ {es' : List Event} {w' : View}, Run View.step View.silent ⟨cw, phase⟩ es' w' →
      NoReceive es' → w'.phase = v'.phase.unread → w'.conn.frameReady = false →
      w'.conn.outgoing = v'.conn.outgoing → w'.conn.nextId = v'.conn.nextId →
      w'.conn.closed = v'.conn.closed →
      ∃ es' w', Run View.step View.silent ⟨cw, phase⟩ es' w' ∧ Unread v' w' ∧ NoReceive es' :=
    fun hrun hno hp hd ho hn hc =>
      ⟨_, _, hrun, ⟨hp, hd, ho, hn, hc, ⟨_, hs.ioStep hstep⟩, ⟨_, hs'.run hrun⟩⟩, hno⟩
  have none : NoReceive [] := fun _ => List.not_mem_nil
  have one : ∀ {op' : IoOp} {u w' : View} {es' : List Event},
      (∀ chunk, op' ≠ .recv (.data chunk)) → (∀ data, u.phase ≠ .getRequest data) →
      IoStep u op' w' es' → Run View.step View.silent u es' w' :=
    fun hop hget hio => .single ⟨⟨_, rfl, hop⟩, hget⟩ (ioStep_iff.mpr hio)
  -- the visit goes on without a frame
  have skip : phase = .hasIncoming → v'.phase.unread = .hasOutgoing →
      cw.outgoing = v'.conn.outgoing → cw.nextId = v'.conn.nextId →
      cw.closed = v'.conn.closed →
      ∃ es' w', Run View.step View.silent ⟨cw, phase⟩ es' w' ∧ Unread v' w' ∧ NoReceive es' := by
    intro hp hv ho hn hc
    subst hp
    obtain ⟨op', hop, hio⟩ := idle_step hdrained
    exact answer (one hop (by simp) hio) none hv.symm hdrained ho hn hc
  cases hstep with
  | frameBuffered hf => exact skip hphase rfl hout hnext hclosed
  | closedIdle hf hc => exact skip hphase rfl hout hnext hclosed
  | notReadable hf hc => exact skip hphase rfl hout hnext hclosed
  | readable hf hc => exact answer .refl none hphase hdrained hout hnext hclosed
  | received hp hc =>
    subst hc
    refine skip hphase ?_ hout hnext hclosed
    dsimp only
    split <;> rfl
  | @recvFailed c =>
    obtain rfl : phase = .hasIncoming := hphase
    have hopen : cw.closed = false := hclosed.trans hs.point.1
    have hrun := (one (by simp) (by simp) (.readable hdrained hopen)).trans
      (one (by simp) (by simp) .recvFailed)
    exact answer hrun none rfl hdrained hout hnext hclosed
  | lost hv =>
    obtain rfl : phase = .closeRead := hphase
    obtain ⟨promises, rfl, -⟩ := hs.ledger.of_closeStep hv
    obtain ⟨promises', ks', he', hks', -⟩ := hs'.ledger.close "connection lost" .hasOutgoing
    refine answer (one (by simp) (by simp) (.lost he')) ?_ rfl hdrained rfl hnext rfl
    simp [NoReceive, hks']
  | decoded hd =>
    cases hd
    exact answer .refl none hphase hdrained hout hnext hclosed
  | found hr => exact answer .refl none hphase hdrained hout hnext hclosed
  | missing hr => simp [View.knownLookup, hr] at hknown
  | pushed hr =>
    refine answer .refl none ?_ hdrained hout hnext hclosed
    rw [hphase]
    dsimp only
    split <;> rfl
  | valueSet hr hset => exact answer .refl none hphase hdrained hout hnext hclosed
  | valueFault hr hset =>
    obtain ⟨promises, hok, -⟩ := Ledger.setValue hs.ledger hr (.value _)
    cases hset.symm.trans hok
  | removed => exact answer .refl none hphase hdrained hout hnext hclosed
  | someOutgoing ho =>
    obtain rfl : phase = .hasOutgoing := hphase
    have ho' : cw.hasOutgoingData = true := by
      rwa [Connection.hasOutgoingData, hclosed, hout]
    exact answer (one (by simp) (by simp) (.someOutgoing ho')) none rfl hdrained hout hnext hclosed
  | noOutgoing ho =>
    obtain rfl : phase = .hasOutgoing := hphase
    have ho' : cw.hasOutgoingData = false := by
      rwa [Connection.hasOutgoingData, hclosed, hout]
    exact answer (one (by simp) (by simp) (.noOutgoing ho')) none rfl hdrained hout hnext hclosed
  | popped ho =>
    obtain rfl : phase = .popOutgoing := hphase
    exact answer (one (by simp) (by simp) (.popped (hout.trans ho))) none rfl hdrained rfl hnext
      hclosed
  | sentSome hlt hp =>
    obtain rfl : phase = .sending _ _ := hphase
    exact answer (one (by simp) (by simp) (.sentSome hlt hp)) (by simp [NoReceive]) rfl hdrained
      hout hnext hclosed
  | sendFailed hlt =>
    obtain rfl : phase = .sending _ _ := hphase
    exact answer (one (by simp) (by simp) (.sendFailed hlt)) (by simp [NoReceive]) rfl hdrained
      hout hnext hclosed
  | sentAll hle =>
    obtain rfl : phase = .sending _ _ := hphase
    exact answer (one (by simp) (by simp) (.sentAll hle)) none rfl hdrained hout hnext hclosed
  | broken hv =>
    obtain rfl : phase = .closeWrite := hphase
    obtain ⟨promises, rfl, -⟩ := hs.ledger.of_closeStep hv
    obtain ⟨promises', ks', he', hks', -⟩ := hs'.ledger.close "send failed" .done
    refine answer (one (by simp) (by simp) (.broken he')) ?_ rfl hdrained rfl hnext rfl
    simp [NoReceive, hks']

theorem Unread.enterOrLeave {v v' w : View} {a : Action} {es : List Event} (hu : Unread v w)
    (ha : a = .enter ∨ a = .leave) (hstep : View.step v a = some (v', es)) :
    es = [] ∧ ∃ w', View.step w a = some (w', []) ∧ Unread v' w' := by
  obtain ⟨hphase, hdrained, hout, hnext, hclosed, ⟨h, hs⟩, ⟨h', hs'⟩⟩ := hu
  obtain ⟨cw, phase⟩ := w
  have answer : ∀ {w' : View}, View.step ⟨cw, phase⟩ a = some (w', []) →
      w'.phase = v'.phase.unread → w'.conn = cw → v'.conn = v.conn →
      ∃ w', View.step ⟨cw, phase⟩ a = some (w', []) ∧ Unread v' w' := by
    intro w' hw hp hcw hcv
    exact ⟨w', hw, hp, hcw ▸ hdrained, hcw ▸ hcv ▸ hout, hcw ▸ hcv ▸ hnext, hcw ▸ hcv ▸ hclosed,
      ⟨_, hs.step hstep⟩, ⟨_, hs'.step hw⟩⟩
  cases ViewStep.of_step hstep with
  | enter =>
    obtain rfl : phase = .away := hphase
    exact ⟨rfl, answer rfl rfl rfl rfl⟩
  | leave =>
    obtain rfl : phase = .done := hphase
    exact ⟨rfl, answer rfl rfl rfl rfl⟩
  | _ => simp at ha

theorem enterOrLeave_shows_nothing {v v' : View} {a : Action} {es : List Event}
    (ha : a = .enter ∨ a = .leave) (hstep : View.step v a = some (v', es)) : es = [] := by
  cases ViewStep.of_step hstep with
  | enter => rfl
  | leave => rfl
  | _ => simp at ha

/-- `t` is the client `s` as it would be if nothing more had arrived on connection `c`. -/
structure Beside (c : Fin n) (s t : Client n) : Prop where
  position : t.position = s.position
  stopRequested : t.stopRequested = s.stopRequested
  others : ∀ i, i ≠ c → t.parts i = s.parts i
  unread : Unread (s.parts c) (t.parts c)

/-- The events of all connections but `c`, in order. -/
def elsewhere (c : Fin n) (h : List (Fin n × Event)) : List (Fin n × Event) :=
  h.filter fun e => e.1 ≠ c

theorem elsewhere_append (c : Fin n) (h k : List (Fin n × Event)) :
    elsewhere c (h ++ k) = elsewhere c h ++ elsewhere c k := List.filter_append ..

theorem elsewhere_self (c : Fin n) (es : List Event) :
    elsewhere c (es.map fun e => (c, e)) = [] := by
  simp [elsewhere]

/-- The histories differ on `c` alone, and the second shows nothing received there. -/
def DiffersAt (c : Fin n) (h h' : List (Fin n × Event)) : Prop :=
  elsewhere c h' = elsewhere c h ∧ ∀ chunk, (c, Event.received chunk) ∉ h'

theorem DiffersAt.append {c : Fin n} {h k h' k' : List (Fin n × Event)} (hd : DiffersAt c h h')
    (hd' : DiffersAt c k k') : DiffersAt c (h ++ k) (h' ++ k') := by
  refine ⟨by rw [elsewhere_append, elsewhere_append, hd.1, hd'.1], ?_⟩
  intro chunk hmem
  rcases List.mem_append.mp hmem with hmem | hmem
  · exact hd.2 chunk hmem
  · exact hd'.2 chunk hmem

theorem DiffersAt.self {c : Fin n} {es es' : List Event} (hno : NoReceive es') :
    DiffersAt c (es.map fun e => (c, e)) (es'.map fun e => (c, e)) := by
  refine ⟨by rw [elsewhere_self, elsewhere_self], ?_⟩
  intro chunk hmem
  simp only [List.mem_map, Prod.mk.injEq, true_and, exists_eq_right] at hmem
  exact hno chunk hmem

theorem DiffersAt.other {c i : Fin n} (hi : i ≠ c) (es : List Event) :
    DiffersAt c (es.map fun e => (i, e)) (es.map fun e => (i, e)) := by
  refine ⟨rfl, ?_⟩
  intro chunk hmem
  simp only [List.mem_map, Prod.mk.injEq] at hmem
  obtain ⟨-, -, he, -⟩ := hmem
  exact hi he

namespace Beside

variable {c : Fin n} {s s' t : Client n} {a : ClientAction n} {es : List (Fin n × Event)}

theorem closed (hb : Beside c s t) (i : Fin n) : (t.parts i).conn.closed = (s.parts i).conn.closed := by
  by_cases hi : i = c
  · subst hi
    exact hb.unread.closed
  · rw [hb.others i hi]

theorem isThrew (hb : Beside c s t) (i : Fin n) :
    (t.parts i).phase.isThrew = (s.parts i).phase.isThrew := by
  by_cases hi : i = c
  · subst hi
    rw [hb.unread.phase]
    cases (s.parts i).phase <;> rfl
  · rw [hb.others i hi]

theorem done (hb : Beside c s t) : t.done clientBody = s.done clientBody := by
  have hall : (∀ i, clientBody.closed (t.parts i) = true) ↔
      ∀ i, clientBody.closed (s.parts i) = true :=
    forall_congr' fun i => iff_of_eq (congrArg (· = true) (hb.closed i))
  rw [Loop.done, Loop.done, hb.stopRequested, decide_eq_decide.mpr hall]

theorem terminated (hb : Beside c s t) : t.terminated clientBody = s.terminated clientBody := by
  simp only [Loop.terminated, clientBody, hb.position, hb.isThrew]

theorem visit {i : Fin n} {b : Action} {k : View} {ks : List Event} (hb : Beside c s t)
    (ha : b = .enter ∨ b = .leave) (hs : View.step (s.parts i) b = some (k, ks)) :
    ks = [] ∧ ∃ k', View.step (t.parts i) b = some (k', []) ∧ ∀ p,
      Beside c { s with parts := Function.update s.parts i k, position := p }
        { t with parts := Function.update t.parts i k', position := p } := by
  by_cases hi : i = c
  · subst hi
    obtain ⟨hks, k', hk', hu⟩ := hb.unread.enterOrLeave ha hs
    refine ⟨hks, k', hk', fun p => ⟨rfl, hb.stopRequested, ?_, ?_⟩⟩
    · intro j hj
      simp only [Function.update_of_ne hj]
      exact hb.others j hj
    · simpa only [Function.update_self] using hu
  · obtain rfl := enterOrLeave_shows_nothing ha hs
    refine ⟨rfl, k, by rw [hb.others i hi, hs], fun p => ⟨rfl, hb.stopRequested, ?_, ?_⟩⟩
    · intro j hj
      dsimp only
      by_cases hji : j = i
      · rw [hji, Function.update_self, Function.update_self]
      · rw [Function.update_of_ne hji, Function.update_of_ne hji, hb.others j hj]
    · simpa only [Function.update_of_ne (Ne.symm hi)] using hb.unread

theorem step (hb : Beside c s t) (ha : knownLookups s a = true)
    (hs : processConnections s a = some (s', es)) :
    ∃ es' t', Run processConnections (fun s a => knownLookups s a = true) t es' t' ∧
      DiffersAt c es es' ∧ Beside c s' t' := by
  obtain ⟨hterm, hstep⟩ := LoopStep.of_loopStep hs
  have hterm' : t.terminated clientBody = false := hb.terminated.trans hterm
  -- one step of the other client that is not a lookup
  have one : ∀ {b : ClientAction n} {t' : Client n} {es' : List (Fin n × Event)},
      knownLookups t b = true → LoopStep clientBody t b t' es' →
      Run processConnections (fun s a => knownLookups s a = true) t es' t' :=
    fun hk hl => .single hk (hl.loopStep_eq hterm')
  cases hstep with
  | @part i b k ks hc ht h =>
    by_cases hi : i = c
    · subst hi
      have set : ∀ {k' : View}, Unread k k' → Beside i
          { s with parts := Function.update s.parts i k }
          { t with parts := Function.update t.parts i k' } := by
        intro k' hu
        refine ⟨hb.position, hb.stopRequested, ?_, by simpa only [Function.update_self] using hu⟩
        intro j hj
        simp only [Function.update_of_ne hj]
        exact hb.others j hj
      cases b with
      | sendRequest payload =>
        obtain ⟨hp, rfl, rfl⟩ := View.step_sendRequest.mp h
        obtain ⟨hu, hno⟩ := hb.unread.sendRequest payload
        have hsend : View.step (t.parts i) (.sendRequest payload) = some _ :=
          View.step_sendRequest.mpr ⟨(hb.isThrew i).trans hp, rfl, rfl⟩
        exact ⟨_, _, one rfl (.part hc (fun hk => nomatch hk) hsend), .self hno, set hu⟩
      | io op =>
        have hp : t.position = .body i := hb.position.trans (ht rfl)
        obtain ⟨es', w', hrun, hu, hno⟩ := hb.unread.ioStep ha (ioStep_iff.mp h)
        refine ⟨_, _, Loop.lift ?_ ?_ ?_ ?_ hrun, .self hno, set hu⟩
        · rintro w b ⟨⟨op', rfl, -⟩, -⟩
          exact .inr ⟨rfl, hp⟩
        · rintro w b q ⟨⟨op', rfl, -⟩, -⟩ hq
          obtain ⟨cw, phase⟩ := w
          cases phase <;> first | rfl | cases op' <;> cases hq
        · intro j hj hpj
          exact absurd (Position.body.inj (hpj.symm.trans hp)) hj
        · rintro u b ⟨⟨op', rfl, -⟩, hget⟩
          cases hphase : (u.parts i).phase with
          | getRequest data => exact absurd hphase (hget data)
          | _ => simp only [knownLookups, View.knownLookup, hphase]
      | enter => exact absurd rfl hc
      | leave => exact absurd rfl hc
    · have hti : t.parts i = s.parts i := hb.others i hi
      refine ⟨_, _, one ?_ (.part hc (fun hk => hb.position.trans (ht hk)) (hti ▸ h)), .other hi ks,
        hb.position, hb.stopRequested, ?_, ?_⟩
      · rw [← ha]
        cases b with
        | io op => cases op <;> simp only [knownLookups, hti]
        | _ => rfl
      · intro j hj
        dsimp only
        by_cases hji : j = i
        · rw [hji, Function.update_self, Function.update_self]
        · rw [Function.update_of_ne hji, Function.update_of_ne hji, hb.others j hj]
      · simpa only [Function.update_of_ne (Ne.symm hi)] using hb.unread
  | returned hp hd =>
    refine ⟨_, _, one rfl (.returned (hb.position.trans hp) (hb.done.trans hd)), ?_, ?_⟩
    · exact ⟨rfl, fun _ => List.not_mem_nil⟩
    · exact ⟨rfl, hb.stopRequested, hb.others, hb.unread⟩
  | @started i k ks hp hd hi h =>
    obtain ⟨rfl, k', hk', hb'⟩ := hb.visit (.inl rfl) h
    refine ⟨_, _, one rfl (.started (hb.position.trans hp) (hb.done.trans hd) hi hk'), ?_, hb' _⟩
    exact ⟨rfl, fun _ => List.not_mem_nil⟩
  | @moved i j k k' ks ks' hp hl hj he =>
    have hij : j ≠ i := by rintro rfl; omega
    obtain ⟨rfl, l, hl', hb₁⟩ := hb.visit (.inr rfl) hl
    have he₁ : View.step (Function.update s.parts i k j) .enter = some (k', ks') := by
      rwa [Function.update_of_ne hij]
    obtain ⟨rfl, l', he', hb₂⟩ := (hb₁ s.position).visit (.inl rfl) he₁
    simp only [Function.update_of_ne hij] at he'
    refine ⟨_, _, one rfl (.moved (hb.position.trans hp) hl' hj he'), ?_, hb₂ _⟩
    exact ⟨rfl, fun _ => List.not_mem_nil⟩
  | @finished i k ks hp hl hlast =>
    obtain ⟨rfl, k', hk', hb'⟩ := hb.visit (.inr rfl) hl
    refine ⟨_, _, one rfl (.finished (hb.position.trans hp) hk' hlast), ?_, hb' _⟩
    exact ⟨rfl, fun _ => List.not_mem_nil⟩
  | slept hp =>
    refine ⟨_, _, one rfl (.slept (hb.position.trans hp)), ⟨rfl, fun _ => List.not_mem_nil⟩, ?_⟩
    exact ⟨rfl, hb.stopRequested, hb.others, hb.unread⟩
  | stopRequested =>
    refine ⟨_, _, one rfl .stopRequested, ⟨rfl, fun _ => List.not_mem_nil⟩, ?_⟩
    exact ⟨hb.position, rfl, hb.others, hb.unread⟩

end Beside

/-- A lookup that misses ends the process: nothing can happen afterwards, on no connection. -/
theorem missing_lookup_ends_process {s : Client n} {i : Fin n} {op : IoOp}
    (hterm : s.terminated clientBody = false) (hp : s.position = .body i)
    (hmiss : knownLookups s (.part i (.io op)) = false) :
    ∃ t es, processConnections s (.part i (.io .internal)) = some (t, es) ∧
      ∀ a, processConnections t a = none := by
  cases hphase : (s.parts i).phase with
  | getRequest data =>
    simp only [knownLookups, View.knownLookup, hphase, Option.isSome_eq_false_iff,
      Option.isNone_iff_eq_none] at hmiss
    have hview : View.step (s.parts i) (.io .internal) =
        some (⟨(s.parts i).conn, .threw .outOfRange⟩, [.lookup data]) := by
      have hv : s.parts i = ⟨(s.parts i).conn, .getRequest data⟩ := by rw [← hphase]
      rw [hv]
      exact ioStep_iff.mpr (.missing hmiss)
    have hstep : LoopStep clientBody s (.part i (.io .internal)) _ _ :=
      .part (by simp [clientBody]) (fun _ => hp) hview
    refine ⟨_, _, hstep.loopStep_eq hterm, fun a => ?_⟩
    simp [processConnections, LoopBody.loopStep, Loop.terminated, hp, clientBody, Phase.isThrew]
  | _ => simp [knownLookups, View.knownLookup, hphase] at hmiss

end PromiseDemo
