import PromiseDemo.Client.Futures

/-!
# Reply correlation

The frames of a request are collected in its entry of `pending_` while other threads extend the
map.  From the moment the request is issued until its promise gets a value, the entry and the
frame in the I/O thread's hand together hold what has been decoded for the id, in order.
-/

namespace PromiseDemo

open Transition PromiseStore

def Event.payloadFor (id : UInt32) : Event → Option Bytes
  | .decoded data => if data.id = id then some data.payload else none
  | _ => none

/-- The payloads of all frames with this id decoded in a history, in order of arrival. -/
def framesFor (id : UInt32) (h : List Event) : List Bytes := h.filterMap (Event.payloadFor id)

@[simp] theorem framesFor_nil (id : UInt32) : framesFor id [] = [] := rfl

@[simp] theorem framesFor_append (id : UInt32) (h k : List Event) :
    framesFor id (h ++ k) = framesFor id h ++ framesFor id k := List.filterMap_append

/-- The payload of a frame with this id that has been decoded and not yet appended to the frames
of a request. -/
def Phase.inHand (id : UInt32) : Phase → List Bytes
  | .getRequest data | .pushFrame data => if data.id = id then [data.payload] else []
  | _ => []

/-- The end mark of a reply that is about to be given to its promise. -/
def Phase.mark (id : UInt32) : Phase → List Bytes
  | .setValue i => if i = id then [endPayload] else []
  | _ => []

/-- A waiting request has collected `held` and all frames decoded for it in `h`. -/
def Collecting (p : ℕ) (id : UInt32) (held : Reply) (h : List Event) (v : View) : Prop :=
  ∃ r fs, v.conn.pending.lookup id = some r ∧ r.promise = p ∧ endPayload ∉ fs ∧
    r.frames = fs ++ v.phase.mark id ∧ held ++ framesFor id h = r.frames ++ v.phase.inHand id

variable {p : ℕ} {id : UInt32} {held : Reply} {h₀ h es : List Event} {v v' : View}

theorem Collecting.congr (hc : Collecting p id held h v)
    (hp : v'.conn.pending.lookup id = v.conn.pending.lookup id)
    (hm : v'.phase.mark id = v.phase.mark id)
    (hh : v'.phase.inHand id = v.phase.inHand id ++ framesFor id es) :
    Collecting p id held (h ++ es) v' := by
  obtain ⟨r, fs, hr, hrp, hfs, hframes, heq⟩ := hc
  refine ⟨r, fs, hp.trans hr, hrp, hfs, by rw [hm, hframes], ?_⟩
  rw [framesFor_append, hh, ← List.append_assoc, heq, List.append_assoc]

theorem outcomesOf_ne_nil_of_mem {o : Outcome} (hmem : Event.satisfied p o ∈ h) :
    outcomesOf p h ≠ [] :=
  List.ne_nil_of_mem (List.mem_filterMap.mpr ⟨_, hmem, if_pos rfl⟩)

theorem outcomesOf_extend (hout : outcomesOf p (h₀ ++ h) ≠ []) :
    outcomesOf p (h₀ ++ (h ++ es)) ≠ [] := by
  rw [← List.append_assoc, outcomesOf_append]
  exact List.append_ne_nil_of_left_ne_nil hout _

theorem value_satisfied {a : Action} {reply : Reply} (hstep : View.step v a = some (v', es))
    (hmem : Event.satisfied p (.value reply) ∈ es) :
    ∃ c i r, v = ⟨c, .setValue i⟩ ∧ c.getRequest i = some r ∧ r.promise = p ∧
      r.frames = reply ∧ es = [.satisfied p (.value reply)] := by
  cases ViewStep.of_step hstep with
  | sendRequest hp =>
    rcases mem_sendEvents hmem with ⟨-, he⟩ | ⟨q, he⟩ | ⟨x, he⟩ <;> cases he
  | io hio =>
    cases hio with
    | lost hw => rcases Connection.mem_closeStep hw hmem with ⟨q, he⟩ | he <;> cases he
    | broken hw => rcases Connection.mem_closeStep hw hmem with ⟨q, he⟩ | he <;> cases he
    | @valueSet c i r promises hr hset =>
      simp only [List.mem_singleton, Event.satisfied.injEq, Outcome.value.injEq] at hmem
      obtain ⟨rfl, rfl⟩ := hmem
      exact ⟨c, i, r, rfl, hr, rfl, rfl, rfl⟩
    | _ => simp at hmem
  | enter => simp at hmem
  | leave => simp at hmem

theorem Collecting.value {a : Action} {reply : Reply} (hs : Sound (h₀ ++ h) v)
    (hc : Collecting p id held h v) (hstep : View.step v a = some (v', es))
    (hmem : Event.satisfied p (.value reply) ∈ es) :
    reply = held ++ framesFor id h ∧ ∃ fs, reply = fs ++ [endPayload] ∧ endPayload ∉ fs := by
  obtain ⟨c, i, q, rfl, hq, hqp, rfl, -⟩ := value_satisfied hstep hmem
  obtain ⟨r, fs, hr, hrp, hfs, hframes, heq⟩ := hc
  obtain rfl : i = id := hs.ledger.inj hq hr (hqp.trans hrp.symm)
  obtain rfl : q = r := Option.some.inj (hq.symm.trans hr)
  simp only [Phase.mark, if_true] at hframes
  simp only [Phase.inHand, List.append_nil] at heq
  exact ⟨heq.symm, fs, hframes, hfs⟩

theorem Collecting.sendRequest (hs : Sound (h₀ ++ h) v) (hc : Collecting p id held h v)
    (payload : Bytes) :
    Collecting p id held (h ++ v.conn.sendEvents payload)
      ⟨(v.conn.sendRequest payload).1, v.phase⟩ := by
  rcases hs.ledger.sendRequest_cases payload with ⟨-, hv, he⟩ | ⟨-, -, hv, he⟩ | ⟨-, hid, hv, he⟩
  · rw [hv, he]
    exact hc.congr rfl rfl (by simp [framesFor, Event.payloadFor])
  · rw [hv, he]
    exact hc.congr rfl rfl (by simp [framesFor, Event.payloadFor])
  · have hcopy := hc
    obtain ⟨r, fs, hr, -⟩ := hcopy
    have hne : id ≠ v.conn.nextId := by
      intro heq
      rw [← heq, hr] at hid
      cases hid
    rw [hv, he]
    refine hc.congr ?_ rfl (by simp [framesFor, Event.payloadFor])
    exact AList.lookup_insert_ne hne

theorem Collecting.ioStep {op : IoOp} (hs : Sound (h₀ ++ h) v) (hc : Collecting p id held h v)
    (hstep : IoStep v op v' es) :
    Collecting p id held (h ++ es) v' ∨ outcomesOf p (h₀ ++ h) ≠ [] ∨ outcomesOf p es ≠ [] := by
  have hcopy := hc
  obtain ⟨r, fs, hr, hrp, hfs, hframes, heq⟩ := hcopy
  have closing : ∀ {what : String} {next : Phase} {w : View} {es : List Event},
      v.phase.served = none → v.conn.closeStep what next = (w, es) → outcomesOf p es ≠ [] := by
    intro what next w es hserved hw
    obtain ⟨promises, -, hes, -⟩ := (hserved ▸ hs.ledger).of_closeStep hw
    apply outcomesOf_ne_nil_of_mem (o := .exception what)
    rw [hes]
    apply List.mem_append_left
    exact List.mem_map.mpr ⟨p, Ledger.mem_pendingPromises.mpr ⟨id, r, hr, hrp⟩, rfl⟩
  cases hstep with
  | lost hw => exact .inr (.inr (closing rfl hw))
  | broken hw => exact .inr (.inr (closing rfl hw))
  | received hp hcc =>
    subst hcc
    left
    refine hc.congr rfl ?_ ?_
    · dsimp only; split <;> rfl
    · dsimp only; split <;> rfl
  | @decoded c c' data hd =>
    left
    have hpend : c'.pending = c.pending := by cases hd; rfl
    refine hc.congr (by rw [hpend]) rfl ?_
    by_cases hid : data.id = id <;> simp [Phase.inHand, framesFor, Event.payloadFor, hid]
  | found hreq => exact .inl (hc.congr rfl rfl (by simp [Phase.inHand, framesFor, Event.payloadFor]))
  | @missing c data hnone =>
    -- a request that waits is found
    have hid : data.id ≠ id := by
      intro he
      rw [Connection.getRequest, he] at hnone
      cases hnone.symm.trans hr
    exact .inl (hc.congr rfl rfl (by simp [Phase.inHand, framesFor, Event.payloadFor, hid]))
  | @pushed c data request hreq =>
    left
    by_cases hid : data.id = id
    · subst hid
      obtain rfl : request = r := Option.some.inj (hreq.symm.trans hr)
      simp only [Phase.mark, List.append_nil] at hframes
      simp only [Phase.inHand, if_true] at heq
      by_cases hend : data.payload = endPayload
      · refine ⟨_, fs, AList.lookup_insert _, hrp, hfs, ?_, ?_⟩
        · simp [hend, Phase.mark, hframes]
        · simp [hend, Phase.inHand, heq]
      · refine ⟨_, fs ++ [data.payload], AList.lookup_insert _, hrp, ?_, ?_, ?_⟩
        · simp [hfs, Ne.symm hend]
        · simp [hend, Phase.mark, hframes]
        · simp [hend, Phase.inHand, heq]
    · apply hc.congr
      · exact AList.lookup_insert_ne (Ne.symm hid)
      · dsimp only; split <;> simp [Phase.mark, hid]
      · dsimp only; split <;> simp [Phase.inHand, hid]
  | @valueSet c i request promises hreq hset =>
    by_cases hid : i = id
    · subst hid
      obtain rfl : request = r := Option.some.inj (hreq.symm.trans hr)
      right; right
      apply outcomesOf_ne_nil_of_mem (o := .value request.frames)
      simp [hrp]
    · left
      apply hc.congr
      · exact AList.lookup_insert_ne (Ne.symm hid)
      · simp [Phase.mark, hid]
      · simp [Phase.inHand, framesFor, Event.payloadFor]
  | valueFault hreq hset =>
    obtain ⟨promises, hok, -⟩ := Ledger.setValue hs.ledger hreq (.value _)
    cases hset.symm.trans hok
  | @removed c i =>
    by_cases hid : i = id
    · subst hid
      obtain ⟨q, o, hq, ho⟩ := hs.ledger.settled rfl
      obtain rfl : q = r := Option.some.inj (hq.symm.trans hr)
      right; left
      rw [hs.ledger.outcomes, ← hrp, ho]
      simp
    · left
      refine hc.congr ?_ rfl rfl
      exact AList.lookup_erase_ne (Ne.symm hid)
  | _ => exact .inl (hc.congr rfl rfl rfl)

theorem Collecting.step {a : Action} (hs : Sound (h₀ ++ h) v) (hc : Collecting p id held h v)
    (hstep : View.step v a = some (v', es)) :
    Collecting p id held (h ++ es) v' ∨ outcomesOf p (h₀ ++ (h ++ es)) ≠ [] := by
  cases ViewStep.of_step hstep with
  | sendRequest hp => exact .inl (hc.sendRequest hs _)
  | io hio =>
    rcases hc.ioStep hs hio with hc | hout | hout
    · exact .inl hc
    · exact .inr (outcomesOf_extend hout)
    · right
      rw [← List.append_assoc, outcomesOf_append]
      exact List.append_ne_nil_of_right_ne_nil _ hout
  | enter => exact .inl (hc.congr rfl rfl rfl)
  | leave => exact .inl (hc.congr rfl rfl rfl)

/-- An outcome in the history is the only one. -/
theorem Sound.not_satisfied_again {o : Outcome} (hs : Sound (h ++ es) v)
    (hout : outcomesOf p h ≠ []) : Event.satisfied p o ∉ es := by
  intro hmem
  have hlen : (outcomesOf p (h ++ es)).length ≤ 1 := by
    rw [hs.ledger.outcomes]
    cases resultOf v.conn.promises p <;> simp
  have h₁ := List.length_pos_of_ne_nil hout
  have h₂ := List.length_pos_of_ne_nil (outcomesOf_ne_nil_of_mem hmem)
  rw [outcomesOf_append, List.length_append] at hlen
  omega

/-- The account of one request from its issue, after `h₀`, on. -/
structure Tracked (p : ℕ) (id : UInt32) (held : Reply) (h₀ h : List Event) (v : View) : Prop where
  sound : Sound (h₀ ++ h) v
  progress : Collecting p id held h v ∨ outcomesOf p (h₀ ++ h) ≠ []
  value : ∀ {before after reply}, h = before ++ .satisfied p (.value reply) :: after →
    reply = held ++ framesFor id before ∧ ∃ fs, reply = fs ++ [endPayload] ∧ endPayload ∉ fs

theorem Tracked.step {a : Action} (ht : Tracked p id held h₀ h v)
    (hstep : View.step v a = some (v', es)) : Tracked p id held h₀ (h ++ es) v' := by
  have hs' : Sound (h₀ ++ h ++ es) v' := ht.sound.step hstep
  refine ⟨by rwa [← List.append_assoc], ?_, ?_⟩
  · rcases ht.progress with hc | hout
    · exact hc.step ht.sound hstep
    · exact .inr (outcomesOf_extend hout)
  · intro before after reply heq
    rcases split_event heq with ⟨rest, hold, -⟩ | ⟨front, rfl, hnew⟩
    · exact ht.value hold
    · have hmem : Event.satisfied p (.value reply) ∈ es := by simp [hnew]
      rcases ht.progress with hc | hout
      · obtain ⟨-, -, -, -, -, -, -, hone⟩ := value_satisfied hstep hmem
        obtain rfl : front = [] := (single_event (hone.symm.trans hnew)).1
        rw [List.append_nil]
        exact hc.value ht.sound hstep hmem
      · exact absurd hmem (hs'.not_satisfied_again hout)

theorem Tracked.issue {payload : Bytes} (hs : Sound h₀ v)
    (hstep : View.step v (.sendRequest payload) = some (v', es))
    (hmem : Event.issued p id payload ∈ es) :
    Tracked p id (v.phase.inHand id) (h₀ ++ es) [] v' := by
  refine ⟨by simpa using hs.step hstep, .inl ?_, fun heq => by simp at heq⟩
  cases ViewStep.of_step hstep
  rcases hs.ledger.sendRequest_cases payload with ⟨-, -, he⟩ | ⟨-, -, -, he⟩ | ⟨-, hid, hv, he⟩
  · simp [he] at hmem
  · simp [he] at hmem
  · simp only [he, List.mem_cons, reduceCtorEq, Event.issued.injEq, List.not_mem_nil, or_false,
      false_or, and_true] at hmem
    obtain ⟨rfl, rfl⟩ := hmem
    rw [hv]
    have hmark : v.phase.mark v.conn.nextId = [] := by
      cases hp : v.phase with
      | setValue i =>
        -- the entry under `i` exists, the one under the new id did not
        have hat := hs.point
        rw [hp] at hat
        obtain ⟨r, hr⟩ := hat
        have hne : i ≠ v.conn.nextId := by
          rintro rfl
          cases hid.symm.trans hr
        exact if_neg hne
      | _ => rfl
    refine ⟨_, [], AList.lookup_insert _, rfl, List.not_mem_nil, ?_, ?_⟩
    · simp [hmark]
    · simp

theorem Tracked.run {allowed : View → Action → Prop} {k : List Event}
    (ht : Tracked p id held h₀ h v) (hrun : Run View.step allowed v k v') :
    Tracked p id held h₀ (h ++ k) v' :=
  hrun.invariant (I := fun k v' => Tracked p id held h₀ (h ++ k) v') (by simpa using ht)
    fun hI _ hstep => by rw [← List.append_assoc]; exact hI.step hstep

end PromiseDemo
