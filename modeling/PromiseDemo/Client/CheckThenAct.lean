import PromiseDemo.Client.Futures

/-!
# Between a test and its use

`mutex_` is released between the calls of the I/O thread on a connection.  Other threads only add:
packets at the back of `outgoing_` and entries to `pending_`; entries are taken out by the I/O
thread alone.
-/

namespace PromiseDemo

open Transition PromiseStore

/-- Any other thread: `send_request`. -/
def byOthers (_ : View) : Action → Bool
  | .sendRequest _ => true
  | _ => false

/-- `remove_request(id)` and `close_with_error`, which take the entry of `id` out of `pending_`. -/
def takesEntry (id : UInt32) (v : View) : Action → Bool
  | .io .internal => v.phase = .removeRequest id || v.phase = .closeRead || v.phase = .closeWrite
  | _ => false

/-- What the I/O thread has found out under the mutex is still true when it acts on it, whatever
other threads do in the meantime. -/
structure WindowsSafe (v : View) : Prop where
  /-- `pop_outgoing` after `has_outgoing_data` -/
  pop : ∀ v₁ es₁ k v₂, v.phase = .hasOutgoing → View.step v (.io .internal) = some (v₁, es₁) →
    v₁.phase = .popOutgoing → Run View.step (fun w a => byOthers w a = true) v₁ k v₂ →
    ∃ packet rest more, v.conn.outgoing = packet :: rest ∧
      v₂.conn.popOutgoing = some ({ v₂.conn with outgoing := rest ++ more }, packet) ∧
      View.step v₂ (.io .internal) = some
        (⟨{ v₂.conn with outgoing := rest ++ more },
          .sending (encodeFrame packet.id packet.payload) 0⟩, [])
  /-- `incoming` after `has_incoming_data` -/
  incoming : ∀ op v₁ es₁ k v₂, View.step v (.io op) = some (v₁, es₁) → v₁.phase = .incoming →
    Run View.step (fun w a => byOthers w a = true) v₁ k v₂ →
    ∃ f rest, tryDecodeFrame { buffer := v₂.conn.readBuffer } = (true, ⟨rest, f.id, f.payload⟩) ∧
      View.step v₂ (.io .internal) =
        some (⟨{ v₂.conn with readBuffer := rest }, .getRequest f⟩, [.decoded f])
  /-- The reference that `get_request` returns is good until the entry is taken out. -/
  entry : ∀ data v₁ es₁, v.phase = .getRequest data →
    View.step v (.io .internal) = some (v₁, es₁) → v₁.phase = .pushFrame data →
    ∃ r, v.conn.getRequest data.id = some r ∧
      ∀ k w, Run View.step (fun u a => takesEntry data.id u a = false) v₁ k w →
        ∃ r', w.conn.getRequest data.id = some r' ∧ r'.promise = r.promise
  /-- Until the block for incoming data is left, nothing but `remove_request` takes the entry. -/
  block : ∀ data k w, v.phase = .pushFrame data →
    Run View.step (fun u a => takesEntry data.id u a = false ∧ u.phase ≠ .hasOutgoing) v k w →
    ∀ a, takesEntry data.id w a = true → w.phase = .removeRequest data.id
  /-- Other threads change no entry. -/
  frames : ∀ k w, Run View.step (fun u a => byOthers u a = true) v k w →
    ∀ id r, v.conn.getRequest id = some r → w.conn.getRequest id = some r
  /-- `remove_request` after `set_value` -/
  removal : ∀ id v₁ es₁ k v₂, v.phase = .setValue id →
    View.step v (.io .internal) = some (v₁, es₁) →
    Run View.step (fun w a => byOthers w a = true) v₁ k v₂ →
    ∃ r, v.conn.getRequest id = some r ∧ es₁ = [.satisfied r.promise (.value r.frames)] ∧
      v₂.conn.getRequest id = some { r with frames := [] } ∧
      View.step v₂ (.io .internal) = some (⟨v₂.conn.removeRequest id, .hasOutgoing⟩, []) ∧
      (v₂.conn.removeRequest id).getRequest id = none ∧
      ∀ i, i ≠ id → (v₂.conn.removeRequest id).getRequest i = v₂.conn.getRequest i

variable {h k es : List Event} {v v' w : View} {a : Action} {id : UInt32} {r : PendingRequest}

/-! ## What other threads do -/

/-- `w` is `v` after other threads have been at it. -/
structure Grown (v w : View) : Prop where
  phase : w.phase = v.phase
  readBuffer : w.conn.readBuffer = v.conn.readBuffer
  outgoing : v.conn.outgoing <+: w.conn.outgoing
  entries : ∀ {id r}, v.conn.getRequest id = some r → w.conn.getRequest id = some r

theorem Grown.refl (v : View) : Grown v v := ⟨rfl, rfl, List.prefix_rfl, id⟩

theorem Grown.trans {u : View} (huv : Grown u v) (hvw : Grown v w) : Grown u w where
  phase := hvw.phase.trans huv.phase
  readBuffer := hvw.readBuffer.trans huv.readBuffer
  outgoing := huv.outgoing.trans hvw.outgoing
  entries hr := hvw.entries (huv.entries hr)

theorem Sound.others_step (hs : Sound h v) (ha : byOthers v a = true)
    (hstep : View.step v a = some (v', es)) : Grown v v' := by
  cases ViewStep.of_step hstep with
  | sendRequest hp =>
    rcases hs.ledger.sendRequest_cases _ with ⟨-, hv, -⟩ | ⟨-, -, hv, -⟩ | ⟨-, hfresh, hv, -⟩
    · rw [hv]
      exact .refl v
    · rw [hv]
      exact ⟨rfl, rfl, List.prefix_append _ _, id⟩
    · rw [hv]
      refine ⟨rfl, rfl, List.prefix_append _ _, ?_⟩
      intro id r hr
      have hne : id ≠ v.conn.nextId := by
        rintro rfl
        cases hfresh.symm.trans hr
      exact (AList.lookup_insert_ne hne).trans hr
  | io hio => cases ha
  | enter => cases ha
  | leave => cases ha

theorem Sound.others_run (hs : Sound h v)
    (hrun : Run View.step (fun w a => byOthers w a = true) v k w) : Grown v w := by
  apply hs.invariant (I := Grown v) hrun
  · exact .refl v
  · intro k w a w' es hw hg ha hstep
    exact hg.trans (hw.others_step ha hstep)

/-! ## Entries -/

theorem Sound.entry_kept (hs : Sound h v) (ha : takesEntry id v a = false)
    (hstep : View.step v a = some (v', es)) (hr : v.conn.getRequest id = some r) :
    ∃ r', v'.conn.getRequest id = some r' ∧ r'.promise = r.promise := by
  -- the entry of `i` gets other frames
  have updated : ∀ {c : Connection} {i : UInt32} {q q' : PendingRequest},
      c.getRequest i = some q → q'.promise = q.promise → c.getRequest id = some r →
      ∃ r', (c.updateRequest i q').getRequest id = some r' ∧ r'.promise = r.promise := by
    intro c i q q' hq hp hr
    by_cases hi : id = i
    · subst hi
      obtain rfl := Option.some.inj (hq.symm.trans hr)
      exact ⟨q', AList.lookup_insert _, hp⟩
    · exact ⟨r, (AList.lookup_insert_ne hi).trans hr, rfl⟩
  cases ViewStep.of_step hstep with
  | sendRequest hp =>
    exact ⟨r, (hs.others_step rfl hstep).entries hr, rfl⟩
  | io hio =>
    cases hio with
    | received hp hc =>
      subst hc
      exact ⟨r, hr, rfl⟩
    | lost hv => simp [takesEntry] at ha
    | broken hv => simp [takesEntry] at ha
    | decoded hd =>
      cases hd
      exact ⟨r, hr, rfl⟩
    | pushed hq => exact updated hq rfl hr
    | valueSet hq hset => exact updated hq rfl hr
    | @removed c i =>
      have hi : id ≠ i := by
        rintro rfl
        simp [takesEntry] at ha
      exact ⟨r, (AList.lookup_erase_ne hi).trans hr, rfl⟩
    | _ => exact ⟨r, hr, rfl⟩
  | enter => exact ⟨r, hr, rfl⟩
  | leave => exact ⟨r, hr, rfl⟩

theorem Sound.entry_run (hs : Sound h v) (hr : v.conn.getRequest id = some r)
    (hrun : Run View.step (fun u a => takesEntry id u a = false) v k w) :
    ∃ r', w.conn.getRequest id = some r' ∧ r'.promise = r.promise := by
  apply hs.invariant
    (I := fun w => ∃ r', w.conn.getRequest id = some r' ∧ r'.promise = r.promise) hrun
  · exact ⟨r, hr, rfl⟩
  · rintro k w a w' es hw ⟨r', hr', hp⟩ ha hstep
    obtain ⟨r'', hr'', hp'⟩ := hw.entry_kept ha hstep hr'
    exact ⟨r'', hr'', hp'.trans hp⟩

/-! ## The windows -/

theorem Sound.pop_window (hs : Sound h v) {v₁ v₂ : View} {es₁ : List Event}
    (hphase : v.phase = .hasOutgoing) (hstep : View.step v (.io .internal) = some (v₁, es₁))
    (hpop : v₁.phase = .popOutgoing)
    (hrun : Run View.step (fun w a => byOthers w a = true) v₁ k v₂) :
    ∃ packet rest more, v.conn.outgoing = packet :: rest ∧
      v₂.conn.popOutgoing = some ({ v₂.conn with outgoing := rest ++ more }, packet) ∧
      View.step v₂ (.io .internal) = some
        (⟨{ v₂.conn with outgoing := rest ++ more },
          .sending (encodeFrame packet.id packet.payload) 0⟩, []) := by
  have hgrown := (hs.step hstep).others_run hrun
  obtain ⟨c, phase⟩ := v
  obtain ⟨c₂, phase₂⟩ := v₂
  subst hphase
  obtain rfl : phase₂ = .popOutgoing := hgrown.phase.trans hpop
  cases hstep
  have hout : c.outgoing ≠ [] := by
    intro hnil
    simp [Connection.hasOutgoingData, hnil] at hpop
  obtain ⟨packet, rest, houtgoing⟩ := List.exists_cons_of_ne_nil hout
  obtain ⟨more, hmore⟩ := hgrown.outgoing
  have hfront : c₂.outgoing = packet :: (rest ++ more) := by
    rw [← hmore, houtgoing, List.cons_append]
  refine ⟨packet, rest, more, houtgoing, ?_, ?_⟩
  · simp [Connection.popOutgoing, hfront]
  · exact ioStep_iff.mpr (.popped hfront)

theorem Sound.incoming_window (hs : Sound h v) {op : IoOp} {v₁ v₂ : View} {es₁ : List Event}
    (hstep : View.step v (.io op) = some (v₁, es₁)) (hphase : v₁.phase = .incoming)
    (hrun : Run View.step (fun w a => byOthers w a = true) v₁ k v₂) :
    ∃ f rest, tryDecodeFrame { buffer := v₂.conn.readBuffer } = (true, ⟨rest, f.id, f.payload⟩) ∧
      View.step v₂ (.io .internal) =
        some (⟨{ v₂.conn with readBuffer := rest }, .getRequest f⟩, [.decoded f]) := by
  have hready : v₁.conn.frameReady = true := by
    have hpoint := (hs.step hstep).point
    rwa [hphase] at hpoint
  have hgrown := (hs.step hstep).others_run hrun
  obtain ⟨f, rest, hnext⟩ := (Connection.frameReady_iff _).mp hready
  rw [← hgrown.readBuffer] at hnext
  obtain ⟨c₂, phase₂⟩ := v₂
  obtain rfl : phase₂ = .incoming := hgrown.phase.trans hphase
  refine ⟨f, rest, nextFrame_eq_some.mp hnext, ?_⟩
  exact ioStep_iff.mpr (.decoded (Connection.incoming_of_nextFrame hnext))

theorem Sound.removal_window (hs : Sound h v) {v₁ v₂ : View} {es₁ : List Event}
    (hphase : v.phase = .setValue id) (hstep : View.step v (.io .internal) = some (v₁, es₁))
    (hrun : Run View.step (fun w a => byOthers w a = true) v₁ k v₂) :
    ∃ r, v.conn.getRequest id = some r ∧ es₁ = [.satisfied r.promise (.value r.frames)] ∧
      v₂.conn.getRequest id = some { r with frames := [] } ∧
      View.step v₂ (.io .internal) = some (⟨v₂.conn.removeRequest id, .hasOutgoing⟩, []) ∧
      (v₂.conn.removeRequest id).getRequest id = none ∧
      ∀ i, i ≠ id → (v₂.conn.removeRequest id).getRequest i = v₂.conn.getRequest i := by
  have hgrown := (hs.step hstep).others_run hrun
  have hledger := hs.ledger
  cases ViewStep.of_step hstep with
  | io hio =>
    cases hio with
    | @valueSet c i r promises hr hset =>
      cases hphase
      obtain ⟨c₂, phase₂⟩ := v₂
      obtain rfl : phase₂ = .removeRequest id := hgrown.phase
      have hkept : c₂.getRequest id = some { r with frames := [] } :=
        hgrown.entries (AList.lookup_insert _)
      refine ⟨r, hr, rfl, hkept, rfl, AList.lookup_erase _ _, ?_⟩
      intro i hi
      exact AList.lookup_erase_ne hi
    | @valueFault c i r fault hr hset =>
      -- the promise of an entry has not been satisfied yet
      obtain ⟨promises, hok, -⟩ := Ledger.setValue hledger hr (.value r.frames)
      cases hok.symm.trans hset
    | _ => cases hphase

/-- Where the I/O thread stands in the block for incoming data once it has the reference. -/
def InBlock (id : UInt32) (w : View) : Prop :=
  (∃ data : DataPacket, data.id = id ∧ w.phase = .pushFrame data) ∨ w.phase = .setValue id ∨
    w.phase = .removeRequest id ∨ w.phase = .hasOutgoing

theorem Sound.inBlock_step (hs : Sound h v) (hv : InBlock id v)
    (ha : takesEntry id v a = false ∧ v.phase ≠ .hasOutgoing)
    (hstep : View.step v a = some (v', es)) : InBlock id v' := by
  cases ViewStep.of_step hstep with
  | sendRequest hp => exact hv
  | enter => rcases hv with ⟨data, -, hp⟩ | hp | hp | hp <;> cases hp
  | leave => rcases hv with ⟨data, -, hp⟩ | hp | hp | hp <;> cases hp
  | io hio =>
    cases hio with
    | @pushed c data request hr =>
      obtain ⟨data', hid, hp⟩ : ∃ data' : DataPacket, data'.id = id ∧
          Phase.pushFrame data = .pushFrame data' := by
        simpa [InBlock] using hv
      cases hp
      subst hid
      show InBlock data.id ⟨_, if data.payload = endPayload then _ else _⟩
      split
      · exact .inr (.inl rfl)
      · exact .inr (.inr (.inr rfl))
    | @valueSet c i request promises hr hset =>
      obtain rfl : i = id := by simpa [InBlock] using hv
      exact .inr (.inr (.inl rfl))
    | @valueFault c i request fault hr hset =>
      obtain ⟨promises, hok, -⟩ := Ledger.setValue hs.ledger hr (.value request.frames)
      cases hok.symm.trans hset
    | removed => exact .inr (.inr (.inr rfl))
    | someOutgoing => exact absurd rfl ha.2
    | noOutgoing => exact absurd rfl ha.2
    | _ => simp [InBlock] at hv

theorem Sound.block_window (hs : Sound h v) {data : DataPacket} (hphase : v.phase = .pushFrame data)
    (hrun : Run View.step (fun u a => takesEntry data.id u a = false ∧ u.phase ≠ .hasOutgoing)
      v k w) (htakes : takesEntry data.id w a = true) : w.phase = .removeRequest data.id := by
  have hblock : InBlock data.id w := by
    apply hs.invariant (I := InBlock data.id) hrun
    · exact .inl ⟨data, rfl, hphase⟩
    · intro k w a w' es hw hv ha hstep
      exact hw.inBlock_step hv ha hstep
  have hpoint : w.phase = .removeRequest data.id ∨ w.phase = .closeRead ∨
      w.phase = .closeWrite := by
    cases a with
    | io op =>
      cases op with
      | internal => simpa [takesEntry, or_assoc] using htakes
      | _ => cases htakes
    | _ => cases htakes
  rcases hpoint with hp | hp | hp
  · exact hp
  · simp [InBlock, hp] at hblock
  · simp [InBlock, hp] at hblock

theorem Sound.windows (hs : Sound h v) : WindowsSafe v where
  pop _ _ _ _ hphase hstep hpop hrun := hs.pop_window hphase hstep hpop hrun
  incoming _ _ _ _ _ hstep hphase hrun := hs.incoming_window hstep hphase hrun
  entry data v₁ es₁ hphase hstep hpush := by
    have hs₁ := hs.step hstep
    cases ViewStep.of_step hstep with
    | io hio =>
      cases hio with
      | @found c data' r hr =>
        cases hpush
        refine ⟨r, hr, ?_⟩
        intro k w hrun
        exact hs₁.entry_run hr hrun
      | missing hr => cases hpush
      | lost hv => cases hphase
      | broken hv => cases hphase
      | _ => cases hphase
  block _ _ _ hphase hrun _ htakes := hs.block_window hphase hrun htakes
  frames _ _ hrun _ _ hr := (hs.others_run hrun).entries hr
  removal _ _ _ _ _ hphase hstep hrun := hs.removal_window hphase hstep hrun

/-- In every reachable state of the client and at every connection, what the I/O thread tests
under one lock still holds when it acts under the next. -/
theorem check_then_act_safe {n : ℕ} {h : List (Fin n × Event)} {s : Client n}
    (hrun : Run processConnections anyAction Client.init h s) (c : Fin n) :
    WindowsSafe (s.parts c) := (Client.sound hrun c).windows

/-- The thread is about to ask for outgoing data, and a request is queued. -/
theorem check_then_act_safe_queued :
    ∃ (h : List (Fin 1 × Event)) (s : Client 1),
      Run processConnections anyAction Client.init h s ∧ (s.parts 0).phase = .hasOutgoing ∧
      (s.parts 0).conn.hasOutgoingData = true ∧ WindowsSafe (s.parts 0) := by
  have hrun := Run.of_actions processConnections anyAction (Client.init (n := 1))
    [.part 0 (.sendRequest [104, 105]), .test, .part 0 (.io (.waitReadable false))] (by decide)
  exact ⟨_, _, hrun, by decide, by decide, check_then_act_safe hrun 0⟩

end PromiseDemo
