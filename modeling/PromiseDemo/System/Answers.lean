import PromiseDemo.Client.Closing
import PromiseDemo.Client.Correlation
import PromiseDemo.Client.Streams
import PromiseDemo.Server.Server

/-!
# Answers in the order of the requests

When the peer answers the requests of a connection in order, each with its echo and an `"END"`
frame, the entries of `pending_` are used up like a queue: only the oldest one collects frames,
and it is complete exactly when the second frame of its reply has been decoded.
-/

namespace PromiseDemo

open Transition PromiseStore

/-- The frame that has been decoded and not yet appended to the frames of its request. -/
def Phase.held : Phase → List Frame
  | .getRequest data | .pushFrame data => [data]
  | _ => []

/-- The id whose promise is about to be satisfied. -/
def Phase.valuing : Phase → Option UInt32
  | .setValue id => some id
  | _ => none

/-- An open connection on which the requests `answered` have got their values; of the reply to
the first of those `waiting`, `stage` frames have been appended. -/
structure Answering (answered waiting : List Frame) (stage : ℕ) (h : List Event) (v : View) :
    Prop where
  queued : queuedOf h = answered ++ waiting
  decoded : decodedOf h =
    replyFrames answered ++ (replyFrames waiting).take stage ++ v.phase.held
  distinct : (waiting.map Frame.id).Nodup
  none_begun : waiting = [] → stage = 0
  unfinished : v.phase.valuing = none → stage ≤ 1
  complete : ∀ {id}, v.phase.valuing = some id →
    stage = 2 ∧ ∃ f rest, waiting = f :: rest ∧ f.id = id
  entry : ∀ f ∈ waiting, ∃ r, v.conn.pending.lookup f.id = some r ∧
    r.frames = (if waiting.head? = some f then [f.payload, endPayload].take stage else []) ∧
    .issued r.promise f.id f.payload ∈ h
  served : ∀ {id}, v.phase.served = some id →
    stage = 0 ∧ id ∉ waiting.map Frame.id ∧ ∃ front f, answered = front ++ [f] ∧ f.id = id
  fate : ∀ {p id payload}, .issued p id payload ∈ h →
    (⟨id, payload⟩ ∈ waiting ∧ ∃ r, v.conn.pending.lookup id = some r ∧ r.promise = p) ∨
      resultOf v.conn.promises p = some (.value [payload, endPayload])

namespace Answering

variable {answered waiting : List Frame} {stage : ℕ} {h es : List Event} {v v' : View}

theorem init : Answering [] [] 0 [] View.init where
  queued := rfl
  decoded := rfl
  distinct := List.nodup_nil
  none_begun _ := rfl
  unfinished _ := Nat.zero_le _
  complete h := nomatch h
  entry _ hf := nomatch hf
  served h := nomatch h
  fate h := nomatch h

theorem congr (ha : Answering answered waiting stage h v)
    (hpending : v'.conn.pending = v.conn.pending) (hpromises : v'.conn.promises = v.conn.promises)
    (hqueued : queuedOf es = []) (hheld : v'.phase.held = v.phase.held ++ decodedOf es)
    (hissued : ∀ p id payload, Event.issued p id payload ∉ es)
    (hvaluing : v.phase.valuing = none) (hvaluing' : v'.phase.valuing = none)
    (hserved : v'.phase.served = none) : Answering answered waiting stage (h ++ es) v' where
  queued := by rw [queuedOf_append, hqueued, List.append_nil, ha.queued]
  decoded := by rw [decodedOf_append, ha.decoded, hheld, ← List.append_assoc]
  distinct := ha.distinct
  none_begun := ha.none_begun
  unfinished _ := ha.unfinished hvaluing
  complete hv := nomatch hvaluing'.symm.trans hv
  entry f hf := by
    obtain ⟨r, hr, hframes, hmem⟩ := ha.entry f hf
    exact ⟨r, by rw [hpending]; exact hr, hframes, List.mem_append_left _ hmem⟩
  served hv := nomatch hserved.symm.trans hv
  fate hmem := by
    rw [hpending, hpromises]
    rcases List.mem_append.mp hmem with hmem | hmem
    · exact ha.fate hmem
    · exact absurd hmem (hissued _ _ _)

theorem next {data : Frame} (ha : Answering answered waiting stage h v)
    (hd : decodedOf h <+: replyFrames (queuedOf h)) (hheld : v.phase.held = [data])
    (hvaluing : v.phase.valuing = none) :
    ∃ f rest, waiting = f :: rest ∧
      ((stage = 0 ∧ data = f) ∨ (stage = 1 ∧ data = ⟨f.id, endPayload⟩)) := by
  have hle := ha.unfinished hvaluing
  rw [ha.decoded, ha.queued, hheld, replyFrames_append, List.append_assoc,
    List.prefix_append_right_inj] at hd
  cases waiting with
  | nil => simp [replyFrames] at hd
  | cons f rest =>
    have hcons : replyFrames (f :: rest) = f :: ⟨f.id, endPayload⟩ :: replyFrames rest := rfl
    rw [hcons] at hd
    refine ⟨f, rest, rfl, ?_⟩
    obtain rfl | rfl : stage = 0 ∨ stage = 1 := by omega
    · left
      simpa using hd
    · right
      simpa using hd

theorem issue (ha : Answering answered waiting stage h v) (hs : Sound h v) {payload : Bytes}
    (hid : v.conn.pending.lookup v.conn.nextId = none) {c : Connection}
    (hpending : c.pending =
      v.conn.pending.insert v.conn.nextId { promise := v.conn.promises.length })
    (hpromises : c.promises = v.conn.promises ++ [{ retrieved := true }]) :
    Answering answered (waiting ++ [⟨v.conn.nextId, payload⟩]) stage
      (h ++ [.queued ⟨v.conn.nextId, payload⟩,
        .issued v.conn.promises.length v.conn.nextId payload]) ⟨c, v.phase⟩ := by
  have hnew : v.conn.nextId ∉ waiting.map Frame.id := by
    intro hmem
    obtain ⟨f, hf, he⟩ := List.mem_map.mp hmem
    obtain ⟨r, hr, -⟩ := ha.entry f hf
    rw [he, hid] at hr
    cases hr
  have hkeep : ∀ {i r}, v.conn.pending.lookup i = some r → c.pending.lookup i = some r := by
    intro i r hr
    have hi : i ≠ v.conn.nextId := by
      rintro rfl
      cases hid.symm.trans hr
    rw [hpending, AList.lookup_insert_ne hi, hr]
  have hold : ∀ {p o}, resultOf v.conn.promises p = some o → resultOf c.promises p = some o := by
    intro p o hp
    have hlt := lt_length_of_result hp
    rw [hpromises, resultOf, List.getElem?_append_left hlt]
    exact hp
  have hhead : ∀ f, f ∈ waiting →
      ((waiting ++ [(⟨v.conn.nextId, payload⟩ : Frame)]).head? = some f ↔
        waiting.head? = some f) := by
    intro f hf
    cases waiting with
    | nil => cases hf
    | cons g rest => simp
  have htake : (replyFrames (waiting ++ [⟨v.conn.nextId, payload⟩])).take stage =
      (replyFrames waiting).take stage := by
    cases waiting with
    | nil => simp [ha.none_begun rfl]
    | cons f rest =>
      have hle : stage ≤ 2 := by
        cases hv : v.phase.valuing with
        | none => have := ha.unfinished hv; omega
        | some id => rw [(ha.complete hv).1]
      rw [replyFrames_append, List.take_append_of_le_length]
      simp [replyFrames]
      omega
  refine ⟨?_, ?_, ?_, ?_, ha.unfinished, ?_, ?_, ?_, ?_⟩
  · simp [ha.queued]
  · rw [htake]
    simpa using ha.decoded
  · rw [List.map_append, List.nodup_append]
    refine ⟨ha.distinct, by simp, ?_⟩
    rintro i hi j hj rfl
    rw [List.map_singleton, List.mem_singleton] at hj
    subst hj
    exact hnew hi
  · intro hnil
    simp at hnil
  · intro id hv
    obtain ⟨h2, f, rest, rfl, hf⟩ := ha.complete hv
    exact ⟨h2, f, rest ++ [⟨v.conn.nextId, payload⟩], rfl, hf⟩
  · intro f hf
    rcases List.mem_append.mp hf with hf | hf
    · obtain ⟨r, hr, hframes, hmem⟩ := ha.entry f hf
      refine ⟨r, hkeep hr, ?_, List.mem_append_left _ hmem⟩
      rw [hframes]
      simp only [hhead f hf]
    · obtain rfl := List.mem_singleton.mp hf
      refine ⟨_, by rw [hpending, AList.lookup_insert], ?_, by simp⟩
      cases waiting with
      | nil => simp [ha.none_begun rfl]
      | cons g rest =>
        have hne : g ≠ ⟨v.conn.nextId, payload⟩ := by
          rintro rfl
          exact hnew (by simp)
        simp [hne]
  · intro id hv
    obtain ⟨h0, hid', front, f, hfront, hf⟩ := ha.served hv
    refine ⟨h0, ?_, front, f, hfront, hf⟩
    obtain ⟨r, -, hr, -⟩ := hs.ledger.settled hv
    have hne : id ≠ v.conn.nextId := by
      rintro rfl
      cases hid.symm.trans hr
    simpa [hne] using hid'
  · intro p id pl hmem
    rcases List.mem_append.mp hmem with hmem | hmem
    · rcases ha.fate hmem with ⟨hw, r, hr, hp⟩ | hres
      · exact .inl ⟨List.mem_append_left _ hw, r, hkeep hr, hp⟩
      · exact .inr (hold hres)
    · simp only [List.mem_cons, reduceCtorEq, Event.issued.injEq, List.not_mem_nil, or_false,
        false_or] at hmem
      obtain ⟨rfl, rfl, rfl⟩ := hmem
      exact .inl ⟨by simp, _, by rw [hpending, AList.lookup_insert], rfl⟩

theorem push {c : Connection} {data : Frame} {r : PendingRequest}
    (ha : Answering answered waiting stage h ⟨c, .pushFrame data⟩)
    (hd : decodedOf h <+: replyFrames (queuedOf h))
    (hplain : ∀ f ∈ queuedOf h, f.payload ≠ endPayload)
    (hr : c.getRequest data.id = some r) :
    Answering answered waiting (stage + 1) h
      ⟨c.updateRequest data.id { r with frames := r.frames ++ [data.payload] },
        if data.payload = endPayload then .setValue data.id else .hasOutgoing⟩ := by
  obtain ⟨f, rest, rfl, hnext⟩ := ha.next hd rfl rfl
  have hid : data.id = f.id := by rcases hnext with ⟨-, rfl⟩ | ⟨-, rfl⟩ <;> rfl
  have hfp : f.payload ≠ endPayload := hplain f (by rw [ha.queued]; simp)
  have hend : data.payload = endPayload ↔ stage = 1 := by
    rcases hnext with ⟨h0, rfl⟩ | ⟨h1, rfl⟩
    · exact iff_of_false hfp (by omega)
    · exact iff_of_true rfl h1
  have hstage : stage ≤ 1 := by rcases hnext with ⟨h0, -⟩ | ⟨h1, -⟩ <;> omega
  have hrest : ∀ g ∈ rest, g.id ≠ f.id := by
    intro g hg he
    have hnd := (List.nodup_cons.mp (List.map_cons ▸ ha.distinct)).1
    exact hnd (List.mem_map.mpr ⟨g, hg, he⟩)
  refine ⟨ha.queued, ?_, ha.distinct, fun hnil => (nomatch hnil), ?_, ?_, ?_, ?_, ?_⟩
  · -- one frame moves from the hand to the entry
    have hheld : (if data.payload = endPayload then Phase.setValue data.id
        else Phase.hasOutgoing).held = [] := by split <;> rfl
    have hcons : replyFrames (f :: rest) = f :: ⟨f.id, endPayload⟩ :: replyFrames rest := rfl
    rw [hheld, ha.decoded, hcons]
    rcases hnext with ⟨rfl, rfl⟩ | ⟨rfl, rfl⟩ <;> simp [Phase.held]
  · intro hv
    by_cases he : data.payload = endPayload
    · simp [he, Phase.valuing] at hv
    · have := mt hend.mpr he
      omega
  · intro id hv
    by_cases he : data.payload = endPayload
    · simp only [he, if_true, Phase.valuing, Option.some.injEq] at hv
      exact ⟨by rw [hend.mp he], f, rest, rfl, by rw [← hv, hid]⟩
    · simp [he, Phase.valuing] at hv
  · intro g hg
    rcases List.mem_cons.mp hg with rfl | hg
    · obtain ⟨q, hq, hframes, hmem⟩ := ha.entry g (by simp)
      obtain rfl : q = r := Option.some.inj (hq.symm.trans (hid ▸ hr))
      refine ⟨{ q with frames := q.frames ++ [data.payload] }, ?_, ?_, hmem⟩
      · rw [← hid]
        exact AList.lookup_insert _
      simp only [List.head?_cons, if_true] at hframes ⊢
      rw [hframes]
      rcases hnext with ⟨rfl, rfl⟩ | ⟨rfl, rfl⟩ <;> simp
    · obtain ⟨q, hq, hframes, hmem⟩ := ha.entry g (by simp [hg])
      have hne : f ≠ g := by
        rintro rfl
        exact hrest f hg rfl
      refine ⟨q, ?_, by simpa [hne] using hframes, hmem⟩
      rw [← hq]
      exact AList.lookup_insert_ne (by rw [hid]; exact hrest g hg)
  · intro id hv
    split at hv <;> cases hv
  · intro p id pl hmem
    rcases ha.fate hmem with ⟨hw, q, hq, hp⟩ | hres
    · left
      refine ⟨hw, ?_⟩
      by_cases hi : id = data.id
      · subst hi
        obtain rfl : q = r := Option.some.inj (hq.symm.trans hr)
        exact ⟨_, AList.lookup_insert _, hp⟩
      · exact ⟨q, (AList.lookup_insert_ne hi).trans hq, hp⟩
    · exact .inr hres

theorem setValue {c : Connection} {i : UInt32} {r : PendingRequest} {promises : Store Outcome}
    (ha : Answering answered waiting stage h ⟨c, .setValue i⟩) (hs : Sound h ⟨c, .setValue i⟩)
    (hr : c.getRequest i = some r)
    (hset : satisfy c.promises r.promise (.value r.frames) = .ok promises) :
    ∃ f rest, waiting = f :: rest ∧ r.frames = [f.payload, endPayload] ∧
      .issued r.promise f.id f.payload ∈ h ∧ decodedOf h = replyFrames (answered ++ [f]) ∧
      Answering (answered ++ [f]) rest 0 (h ++ [.satisfied r.promise (.value r.frames)])
        ⟨{ c with promises }.updateRequest i { r with frames := [] }, .removeRequest i⟩ := by
  obtain ⟨rfl, f, rest, rfl, rfl⟩ := ha.complete rfl
  obtain ⟨q, hq, hframes, hissued⟩ := ha.entry f (by simp)
  obtain rfl : q = r := Option.some.inj (hq.symm.trans hr)
  simp only [List.head?_cons, if_true, List.take_succ_cons, List.take_zero] at hframes
  have hnd := List.nodup_cons.mp (List.map_cons ▸ ha.distinct)
  have hrest : ∀ g ∈ rest, g.id ≠ f.id := fun g hg he => hnd.1 (List.mem_map.mpr ⟨g, hg, he⟩)
  have hdecoded : decodedOf h = replyFrames (answered ++ [f]) := by
    rw [ha.decoded]
    simp [replyFrames, Phase.held]
  have hw : Waiting c.promises q.promise :=
    ⟨hs.ledger.bound hr, hs.ledger.unsatisfied hr (by simp [Phase.served])⟩
  obtain ⟨promises', hok, -, hres, -⟩ := satisfy_of_waiting hw (.value q.frames)
  obtain rfl : promises = promises' := Except.ok.inj (hset.symm.trans hok)
  refine ⟨f, rest, rfl, hframes, hissued, hdecoded, ?_⟩
  refine ⟨?_, ?_, hnd.2, fun _ => rfl, fun _ => Nat.zero_le _, (by simp [Phase.valuing]), ?_, ?_, ?_⟩
  · simp [ha.queued]
  · simp [hdecoded, Phase.held]
  · intro g hg
    obtain ⟨s, hs, hsframes, hmem⟩ := ha.entry g (by simp [hg])
    have hne : f ≠ g := by
      rintro rfl
      exact hrest f hg rfl
    refine ⟨s, ?_, by simpa [hne] using hsframes, List.mem_append_left _ hmem⟩
    exact (AList.lookup_insert_ne (hrest g hg)).trans hs
  · intro id hv
    obtain rfl := Option.some.inj hv
    exact ⟨rfl, hnd.1, answered, f, rfl, rfl⟩
  · intro p id payload hmem
    have hold : Event.issued p id payload ∈ h := by simpa using hmem
    simp only [Connection.updateRequest, hres]
    rcases ha.fate hold with ⟨hwait, s, hs, rfl⟩ | hvalue
    · rcases List.mem_cons.mp hwait with rfl | hwait
      · obtain rfl : s = q := Option.some.inj (hs.symm.trans hr)
        right
        rw [if_pos rfl, hframes]
      · have hi : id ≠ f.id := hrest _ hwait
        exact .inl ⟨hwait, s, (AList.lookup_insert_ne hi).trans hs, rfl⟩
    · right
      have hp : p ≠ q.promise := by
        rintro rfl
        cases hw.2.symm.trans hvalue
      rw [if_neg hp, hvalue]

theorem remove {c : Connection} {i : UInt32}
    (ha : Answering answered waiting stage h ⟨c, .removeRequest i⟩) :
    Answering answered waiting stage h ⟨c.removeRequest i, .hasOutgoing⟩ := by
  obtain ⟨rfl, hi, -⟩ := ha.served rfl
  have hkeep : ∀ {id r}, id ∈ waiting.map Frame.id → c.pending.lookup id = some r →
      (c.removeRequest i).pending.lookup id = some r := by
    intro id r hid hr
    have hne : id ≠ i := by
      rintro rfl
      exact hi hid
    exact (AList.lookup_erase_ne hne).trans hr
  refine ⟨ha.queued, ha.decoded, ha.distinct, ha.none_begun, fun _ => Nat.zero_le _,
    fun hv => (nomatch hv), ?_, fun hv => (nomatch hv), ?_⟩
  · intro f hf
    obtain ⟨r, hr, hframes, hmem⟩ := ha.entry f hf
    exact ⟨r, hkeep (List.mem_map_of_mem hf) hr, hframes, hmem⟩
  · intro p id payload hmem
    rcases ha.fate hmem with ⟨hwait, r, hr, hp⟩ | hvalue
    · exact .inl ⟨hwait, r, hkeep (List.mem_map_of_mem (f := Frame.id) hwait) hr, hp⟩
    · exact .inr hvalue

end Answering

/-- Before a promise gets its value, the reply of its request has been decoded to the end, and
nothing beyond it. -/
def Answered (h : List Event) (p : ℕ) (value : Reply) : Prop :=
  ∃ answered f rest, queuedOf h = answered ++ f :: rest ∧
    .issued p f.id f.payload ∈ h ∧ value = [f.payload, endPayload] ∧
    decodedOf h = replyFrames (answered ++ [f])

/-- A connection of the client whose server answers in order, after history `h`. -/
structure Answers (h : List Event) (v : View) : Prop where
  live : v.conn.closed = false → ∃ answered waiting stage, Answering answered waiting stage h v
  closing : Closing h v
  drained : v.conn.closed = true ∨ v.phase = .closeWrite → v.conn.frameReady = false
  unharmed : v.phase.isThrew = false
  plain : ∀ f ∈ queuedOf h, f.payload ≠ endPayload
  values : ∀ before after p value, h = before ++ .satisfied p (.value value) :: after →
    Answered before p value

/-- What the client relies on: a request that is queued fits the format, is not `"END"` and does
not take the id of one that waits, and `::send` fails only when no complete frame is buffered. -/
def View.careful (v : View) : Action → Bool
  | .sendRequest payload => v.conn.closed ||
      (payload.length ≤ 2 ^ 32 - 9 && payload ≠ endPayload &&
        (v.conn.pending.lookup v.conn.nextId).isNone)
  | .io (.send .failed) => !v.conn.frameReady
  | _ => true

theorem View.careful_sendRequest {v : View} {payload : Bytes}
    (hcare : v.careful (.sendRequest payload) = true) (hopen : v.conn.closed = false) :
    payload.length ≤ 2 ^ 32 - 9 ∧ payload ≠ endPayload ∧
      v.conn.pending.lookup v.conn.nextId = none := by
  simpa [View.careful, hopen, and_assoc] using hcare

namespace Answers

variable {h es : List Event} {v v' : View} {a : Action}

theorem init : Answers [] View.init where
  live _ := ⟨[], [], 0, .init⟩
  closing := .init
  drained h := by simp [View.init] at h
  unharmed := rfl
  plain _ hf := nomatch hf
  values before after p value h := by simp at h

theorem openStep (ha : Answers h v) (hs : Sound h v)
    (hd : decodedOf h <+: replyFrames (queuedOf h)) (hopen : v.conn.closed = false)
    (hcare : v.careful a = true) (hstep : View.step v a = some (v', es)) :
    v'.conn.closed = true ∨ v'.phase.isThrew = false ∧
      ∃ answered waiting stage, Answering answered waiting stage (h ++ es) v' := by
  obtain ⟨answered, waiting, stage, hl⟩ := ha.live hopen
  cases ViewStep.of_step hstep with
  | @sendRequest v payload hp =>
    obtain ⟨-, -, hid⟩ := View.careful_sendRequest hcare hopen
    rcases hs.ledger.sendRequest_cases payload with ⟨hc, -⟩ | ⟨-, ⟨q, hq⟩, -⟩ | ⟨-, -, hv, he⟩
    · cases hopen.symm.trans hc
    · cases hid.symm.trans hq
    · rw [hv, he]
      exact .inr ⟨hp, _, _, _, hl.issue hs hid rfl rfl⟩
  | io hio =>
    cases hio with
    | lost hv =>
      obtain ⟨promises, rfl, -⟩ := hs.ledger.of_closeStep hv
      exact .inl rfl
    | broken hv =>
      obtain ⟨promises, rfl, -⟩ := hs.ledger.of_closeStep hv
      exact .inl rfl
    | received hp hc =>
      subst hc
      refine .inr ⟨?_, _, _, _, hl.congr rfl rfl rfl ?_ (by simp) rfl ?_ ?_⟩ <;>
        dsimp only <;> split <;> rfl
    | decoded hv =>
      cases hv
      exact .inr ⟨rfl, _, _, _, hl.congr rfl rfl rfl rfl (by simp) rfl rfl rfl⟩
    | @missing c data hnone =>
      obtain ⟨f, rest, rfl, hnext⟩ := hl.next hd rfl rfl
      obtain ⟨r, hr, -⟩ := hl.entry f (by simp)
      have hid : data.id = f.id := by rcases hnext with ⟨-, rfl⟩ | ⟨-, rfl⟩ <;> rfl
      rw [Connection.getRequest, hid] at hnone
      cases hnone.symm.trans hr
    | pushed hr =>
      rw [List.append_nil]
      refine .inr ⟨?_, _, _, _, hl.push hd ha.plain hr⟩
      dsimp only
      split <;> rfl
    | valueSet hr hset =>
      obtain ⟨f, rest, -, -, -, -, hl'⟩ := hl.setValue hs hr hset
      exact .inr ⟨rfl, _, _, _, hl'⟩
    | valueFault hr hset =>
      obtain ⟨promises, hok, -⟩ := Ledger.setValue hs.ledger hr (.value _)
      cases hset.symm.trans hok
    | removed =>
      rw [List.append_nil]
      exact .inr ⟨rfl, _, _, _, hl.remove⟩
    | _ => exact .inr ⟨rfl, _, _, _, hl.congr rfl rfl rfl rfl (by simp) rfl rfl rfl⟩
  | enter => exact .inr ⟨rfl, _, _, _, hl.congr rfl rfl rfl rfl (by simp) rfl rfl rfl⟩
  | leave => exact .inr ⟨rfl, _, _, _, hl.congr rfl rfl rfl rfl (by simp) rfl rfl rfl⟩

theorem drainedStep (ha : Answers h v) (hs : Sound h v) (hcare : v.careful a = true)
    (hstep : View.step v a = some (v', es))
    (hv' : v'.conn.closed = true ∨ v'.phase = .closeWrite) : v'.conn.frameReady = false := by
  cases ViewStep.of_step hstep with
  | sendRequest hp =>
    rw [Connection.sendRequest_frameReady]
    exact ha.drained (by simpa using hv')
  | io hio =>
    cases hio with
    | received hp hc =>
      subst hc
      rcases hv' with hclosed | hphase
      · cases hs.point.1.symm.trans hclosed
      · dsimp only at hphase
        split at hphase <;> cases hphase
    | lost hv =>
      obtain ⟨promises, rfl, -⟩ := hs.ledger.of_closeStep hv
      exact hs.point.2
    | broken hv =>
      obtain ⟨promises, rfl, -⟩ := hs.ledger.of_closeStep hv
      exact ha.drained (.inr rfl)
    | decoded hv =>
      cases hv
      rcases hv' with hclosed | hphase
      · cases hs.point.symm.trans (ha.drained (.inl hclosed))
      · cases hphase
    | pushed hr =>
      rcases hv' with hclosed | hphase
      · exact ha.drained (.inl hclosed)
      · dsimp only at hphase
        split at hphase <;> cases hphase
    | sendFailed hlt => simpa [View.careful] using hcare
    | _ => exact ha.drained (hv'.imp_right fun hphase => (nomatch hphase))
  | enter => exact ha.drained (hv'.imp_right fun hphase => (nomatch hphase))
  | leave => exact ha.drained (hv'.imp_right fun hphase => (nomatch hphase))

theorem valueStep (ha : Answers h v) (hs : Sound h v) (hstep : View.step v a = some (v', es))
    {before after : List Event} {p : ℕ} {value : Reply}
    (heq : h ++ es = before ++ .satisfied p (.value value) :: after) :
    Answered before p value := by
  rcases split_event heq with ⟨rest, hold, -⟩ | ⟨front, rfl, hnew⟩
  · exact ha.values before rest p value hold
  · have hmem : Event.satisfied p (.value value) ∈ es := by simp [hnew]
    obtain ⟨c, i, r, rfl, hr, rfl, rfl, hes⟩ := value_satisfied hstep hmem
    obtain rfl : front = [] := (single_event (hes.symm.trans hnew)).1
    obtain ⟨answered, waiting, stage, hl⟩ := ha.live (hs.open_of_pending hr)
    obtain ⟨promises, hset, -⟩ := Ledger.setValue hs.ledger hr (.value r.frames)
    obtain ⟨f, rest, rfl, hframes, hissued, hdecoded, -⟩ := hl.setValue hs hr hset
    rw [List.append_nil]
    exact ⟨answered, f, rest, hl.queued, hissued, hframes, hdecoded⟩

theorem step (ha : Answers h v) (hs : Sound h v) (hd : decodedOf h <+: replyFrames (queuedOf h))
    (hcare : v.careful a = true) (hstep : View.step v a = some (v', es)) : Answers (h ++ es) v' := by
  have hclosing : Closing (h ++ es) v' :=
    ha.closing.step hs (fun _ hclosed => ha.drained (.inl hclosed)) hstep
  have hopen : v'.conn.closed = false → v'.phase.isThrew = false ∧
      ∃ answered waiting stage, Answering answered waiting stage (h ++ es) v' := by
    intro ho
    have hv : v.conn.closed = false := by
      by_contra hc
      rw [Bool.not_eq_false] at hc
      cases ho.symm.trans (View.closed_mono hc hstep)
    rcases ha.openStep hs hd hv hcare hstep with hc | hl
    · cases ho.symm.trans hc
    · exact hl
  refine ⟨fun ho => (hopen ho).2, hclosing, ha.drainedStep hs hcare hstep, ?_, ?_,
    fun _ _ _ _ heq => ha.valueStep hs hstep heq⟩
  · cases hc : v'.conn.closed with
    | false => exact (hopen hc).1
    | true =>
      have hrest := hclosing.resting hc
      cases hp : v'.phase <;> rw [hp] at hrest <;> first | rfl | cases hrest
  · intro f hf
    rw [queuedOf_append] at hf
    rcases List.mem_append.mp hf with hf | hf
    · exact ha.plain f hf
    · obtain ⟨payload, rfl, hv, rfl⟩ := View.step_queued hstep (mem_queuedOf.mp hf)
      exact (View.careful_sendRequest hcare hv).2.1

end Answers

end PromiseDemo
