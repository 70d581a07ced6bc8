import PromiseDemo.Rpc.ClientLedger

/-!
# Runs of the client

What holds after every run of the client, against every peer and under every interleaving of its
user threads with the I/O thread.
-/

namespace PromiseDemo.Rpc

open Transition MsgPack PromiseStore

/-- What has happened to the write queue. -/
def wroteOf (h : List ClientEvent) : List WriterEvent :=
  h.filterMap fun e => match e with
    | .writer e => some e
    | _ => none

/-- The packed requests, in the order in which they were posted. -/
def requestedOf (h : List ClientEvent) : List Bytes :=
  h.filterMap fun e => match e with
    | .issued _ idx funcName args => some (packCall idx funcName args)
    | .notified funcName args => some (packNotification funcName args)
    | _ => none

/-- The ids whose entries are to be erased. -/
def erasesOf (cs : List Closure) : List ℕ :=
  cs.filterMap fun c => match c with
    | .erase id => some id
    | _ => none

/-- The requests that are posted and not queued. -/
def buffersOf (cs : List Closure) : List Bytes :=
  cs.filterMap fun c => match c with
    | .call _ _ _ buffer => some buffer
    | .notify buffer => some buffer
    | .erase _ => none

@[simp] theorem wroteOf_append (h k : List ClientEvent) :
    wroteOf (h ++ k) = wroteOf h ++ wroteOf k := List.filterMap_append

@[simp] theorem requestedOf_append (h k : List ClientEvent) :
    requestedOf (h ++ k) = requestedOf h ++ requestedOf k := List.filterMap_append

@[simp] theorem wroteOf_map_writer (es : List WriterEvent) : wroteOf (es.map .writer) = es := by
  simp [wroteOf, List.filterMap_map]

@[simp] theorem buffersOf_append (cs ds : List Closure) :
    buffersOf (cs ++ ds) = buffersOf cs ++ buffersOf ds := List.filterMap_append

/-- The invariant of a client after history `h`. -/
structure Books (h : List ClientEvent) (c : ClientImpl) : Prop where
  queue : Queue (wroteOf h) c.writer
  intake : Intake (chunksOf h) (respondedOf h) c.unpacker c.phase
  accounts : Accounts h (tickets c.strand) (erasesOf c.strand) c.ongoingCalls c.promises
  order : c.destroyed = false → queuedOf (wroteOf h) ++ buffersOf c.strand = requestedOf h
  front : queuedOf (wroteOf h) <+: requestedOf h
  exit : c.writer.exit = false
  gone : c.destroyed = true → c.strand = [] ∧ c.ongoingCalls = ∅
  terminated : c.terminated = true → (Unpacker.readChunks (chunksOf h)).2 = none ∨
    (∃ msg ∈ respondedOf h, convertResponse msg = none) ∨ ¬(respondedIds h).Nodup

namespace Books

variable {h es : List ClientEvent} {c c' : ClientImpl}

theorem init : Books [] {} where
  queue := .init
  intake := .init
  accounts := .init
  order _ := rfl
  front := List.nil_prefix
  exit := rfl
  gone := nofun
  terminated := nofun

theorem still (hb : Books h c) (hqueue : c'.writer = c.writer)
    (hintake : Intake (chunksOf h) (respondedOf h) c'.unpacker c'.phase)
    (hstrand : c'.strand = c.strand) (hongoing : c'.ongoingCalls = c.ongoingCalls)
    (hpromises : c'.promises = c.promises) (hdestroyed : c'.destroyed = c.destroyed)
    (hterminated : c'.terminated = c.terminated) : Books h c' := by
  refine ⟨?_, hintake, ?_, ?_, hb.front, ?_, ?_, ?_⟩
  · rw [hqueue]
    exact hb.queue
  · rw [hstrand, hongoing, hpromises]
    exact hb.accounts
  · rw [hdestroyed, hstrand]
    exact hb.order
  · rw [hqueue]
    exact hb.exit
  · rw [hdestroyed, hstrand, hongoing]
    exact hb.gone
  · rw [hterminated]
    exact hb.terminated

theorem takeNumber (hb : Books h c) (funcName : Bytes) (args : List Object) :
    Books (h ++ (c.takeNumber funcName args).2) (c.takeNumber funcName args).1 := by
  refine ⟨?_, ?_, hb.accounts.neutral (by simp [ClientImpl.takeNumber, ClientEvent.neutral]), ?_,
    ?_, hb.exit, hb.gone, ?_⟩
  · simpa [ClientImpl.takeNumber, wroteOf] using hb.queue
  · simpa [ClientImpl.takeNumber, chunksOf, respondedOf] using hb.intake
  · simpa [ClientImpl.takeNumber, wroteOf, requestedOf] using hb.order
  · simpa [ClientImpl.takeNumber, wroteOf, requestedOf] using hb.front
  · simpa [ClientImpl.takeNumber, chunksOf, respondedOf, respondedIds] using hb.terminated

theorem post (hb : Books h c) (halive : c.destroyed = false) (n : Numbered) (i : ℕ) :
    Books (h ++ [.issued c.promises.length n.idx n.funcName n.args])
      { c with
        promises := c.promises ++ [{ retrieved := true }]
        numbered := c.numbered.eraseIdx i
        strand := c.strand ++ [.call n.idx n.funcName c.promises.length
          (packCall n.idx n.funcName n.args)] } := by
  refine ⟨?_, ?_, ?_, ?_, ?_, hb.exit, ?_, ?_⟩
  · simpa [wroteOf] using hb.queue
  · simpa [chunksOf, respondedOf] using hb.intake
  · simpa [tickets, erasesOf] using hb.accounts.issue n.idx n.funcName n.args
  · intro _
    have horder := hb.order halive
    rw [requestedOf_append, wroteOf_append, ← horder]
    simp [wroteOf, requestedOf, buffersOf]
  · simpa [wroteOf, requestedOf] using hb.front.trans (List.prefix_append _ _)
  · intro hgone
    cases halive.symm.trans hgone
  · simpa [chunksOf, respondedOf, respondedIds] using hb.terminated

theorem send (hb : Books h c) (halive : c.destroyed = false) (funcName : Bytes)
    (args : List Object) : Books (h ++ [.notified funcName args])
      { c with strand := c.strand ++ [.notify (packNotification funcName args)] } := by
  refine ⟨?_, ?_, ?_, ?_, ?_, hb.exit, ?_, ?_⟩
  · simpa [wroteOf] using hb.queue
  · simpa [chunksOf, respondedOf] using hb.intake
  · have hneutral : ∀ e ∈ [ClientEvent.notified funcName args], e.neutral = true := by
      simp [ClientEvent.neutral]
    have haccounts := hb.accounts.neutral hneutral
    simpa [tickets, erasesOf] using haccounts
  · intro _
    have horder := hb.order halive
    rw [requestedOf_append, wroteOf_append, ← horder]
    simp [wroteOf, requestedOf, buffersOf]
  · simpa [wroteOf, requestedOf] using hb.front.trans (List.prefix_append _ _)
  · intro hgone
    cases halive.symm.trans hgone
  · simpa [chunksOf, respondedOf, respondedIds] using hb.terminated

theorem queued (hb : Books h c) (halive : c.destroyed = false) {closure : Closure}
    {rest : List Closure} {buffer : Bytes} (hstrand : c.strand = closure :: rest)
    (hbuffer : buffersOf [closure] = [buffer]) (es' : List ClientEvent)
    (hes : es = es' ++ [.writer (.queued buffer)])
    (hquiet : wroteOf es' = [] ∧ requestedOf es' = [] ∧ chunksOf es' = [] ∧ respondedOf es' = [])
    (hwriter : c'.writer = c.writer.write buffer) (hrest : c'.strand = rest)
    (haccounts : Accounts (h ++ es) (tickets rest) (erasesOf rest) c'.ongoingCalls c'.promises)
    (hunpacker : c'.unpacker = c.unpacker) (hphase : c'.phase = c.phase)
    (hdestroyed : c'.destroyed = c.destroyed) (hterminated : c'.terminated = c.terminated) :
    Books (h ++ es) c' := by
  obtain ⟨hw, hr, hchunks, hresponded⟩ := hquiet
  have hwrote : wroteOf (h ++ es) = wroteOf h ++ [.queued buffer] := by
    rw [hes, wroteOf_append, wroteOf_append, hw]
    rfl
  have hrequested : requestedOf (h ++ es) = requestedOf h := by
    rw [hes, requestedOf_append, requestedOf_append, hr]
    simp [requestedOf]
  have hchunks' : chunksOf (h ++ es) = chunksOf h := by
    rw [hes, chunksOf_append, chunksOf_append, hchunks]
    simp [chunksOf]
  have hresponded' : respondedOf (h ++ es) = respondedOf h := by
    rw [hes, respondedOf_append, respondedOf_append, hresponded]
    simp [respondedOf]
  have horder : queuedOf (wroteOf (h ++ es)) ++ buffersOf rest = requestedOf h := by
    have hcons : buffersOf (closure :: rest) = buffer :: buffersOf rest := by
      rw [← List.singleton_append, buffersOf_append, hbuffer]
      rfl
    rw [← hb.order halive, hstrand, hcons, hwrote, queuedOf_append, List.append_assoc]
    rfl
  refine ⟨?_, ?_, ?_, ?_, ?_, ?_, ?_, ?_⟩
  · rw [hwrote, hwriter]
    exact hb.queue.write buffer
  · rw [hchunks', hresponded', hunpacker, hphase]
    exact hb.intake
  · rw [hrest]
    exact haccounts
  · intro _
    rw [hrest, horder, hrequested]
  · rw [hrequested, ← horder]
    exact List.prefix_append _ _
  · rw [hwriter, write_exit, hb.exit]
  · intro hgone
    cases (hdestroyed.trans halive).symm.trans hgone
  · rw [hterminated, hchunks', hresponded', respondedIds, hresponded']
    exact hb.terminated

theorem runClosure (hb : Books h c) (halive : c.destroyed = false) {closure : Closure}
    {rest : List Closure} (hstrand : c.strand = closure :: rest) :
    Books (h ++ (ClientImpl.runClosure { c with strand := rest } closure).2)
      (ClientImpl.runClosure { c with strand := rest } closure).1 := by
  have haccounts := hb.accounts
  rw [hstrand] at haccounts
  cases closure with
  | call idx funcName p buffer =>
    have htickets : tickets (.call idx funcName p buffer :: rest) =
        ⟨idx, funcName, p⟩ :: tickets rest := rfl
    have herases : erasesOf (.call idx funcName p buffer :: rest) = erasesOf rest := rfl
    rw [htickets, herases] at haccounts
    unfold ClientImpl.runClosure
    dsimp only
    cases hlookup : c.ongoingCalls.lookup (castUnsigned 4 idx) with
    | none =>
      refine hb.queued halive hstrand rfl [] rfl ⟨rfl, rfl, rfl, rfl⟩ rfl rfl ?_ rfl rfl
        rfl rfl
      exact (haccounts.enter hlookup).neutral (by simp [ClientEvent.neutral])
    | some call =>
      obtain ⟨s', habandon, hdropped⟩ := haccounts.drop
      dsimp only at habandon ⊢
      rw [habandon]
      refine hb.queued halive hstrand rfl [.resolved p .brokenPromise] rfl
        ⟨rfl, rfl, rfl, rfl⟩ rfl rfl ?_ rfl rfl rfl rfl
      rw [← List.append_assoc]
      exact hdropped.neutral (by simp [ClientEvent.neutral])
  | notify buffer =>
    refine hb.queued halive hstrand rfl [] rfl ⟨rfl, rfl, rfl, rfl⟩ rfl rfl ?_ rfl rfl
      rfl rfl
    exact haccounts.neutral (by simp [ClientImpl.runClosure, ClientEvent.neutral])
  | erase id =>
    have herases : erasesOf (.erase id :: rest) = id :: erasesOf rest := rfl
    rw [herases] at haccounts
    obtain ⟨r, hlookup, habandon, herased⟩ := haccounts.erase
    have horder := hb.order halive
    rw [hstrand] at horder
    simp only [ClientImpl.runClosure, hlookup, habandon, List.append_nil]
    refine ⟨hb.queue, hb.intake, herased, fun _ => horder, hb.front, hb.exit, ?_, hb.terminated⟩
    intro hgone
    cases halive.symm.trans hgone

theorem io (hb : Books h c) {a : WriterAction} {w : AsyncWriter} {ws : List WriterEvent}
    (ha : ∀ data, a ≠ .write data) (hopen : a ≠ .close) (hw : c.writer.step a = some (w, ws)) :
    Books (h ++ ws.map .writer) { c with writer := w } := by
  have hqueued : queuedOf ws = [] := queuedOf_io ha hw
  have hchunks : chunksOf (ws.map .writer) = [] := by simp [chunksOf]
  have hresponded : respondedOf (ws.map .writer) = [] := by simp [respondedOf]
  have hrequested : requestedOf (ws.map .writer) = [] := by simp [requestedOf]
  refine ⟨?_, ?_, ?_, ?_, ?_, ?_, hb.gone, ?_⟩
  · rw [wroteOf_append, wroteOf_map_writer]
    exact hb.queue.step hw
  · rw [chunksOf_append, respondedOf_append, hchunks, hresponded, List.append_nil, List.append_nil]
    exact hb.intake
  · apply hb.accounts.neutral
    intro e he
    obtain ⟨w, -, rfl⟩ := List.mem_map.mp he
    rfl
  · rw [wroteOf_append, wroteOf_map_writer, requestedOf_append, hrequested, queuedOf_append,
      hqueued, List.append_nil, List.append_nil]
    exact hb.order
  · rw [wroteOf_append, wroteOf_map_writer, requestedOf_append, hrequested, queuedOf_append,
      hqueued, List.append_nil, List.append_nil]
    exact hb.front
  · exact (step_exit hopen hw).trans hb.exit
  · rw [chunksOf_append, hchunks, List.append_nil, respondedIds, respondedOf_append, hresponded,
      List.append_nil]
    exact hb.terminated

theorem ongoingAt_spec {c : ClientImpl} {calls : List Ticket} {erases : List ℕ}
    (ha : Accounts h calls erases c.ongoingCalls c.promises) (id : ℕ) :
    ∃ ongoingCalls promises call,
      c.ongoingAt id = ({ c with ongoingCalls, promises }, call) ∧
        Accounts h calls erases ongoingCalls promises ∧ ongoingCalls.lookup id = some call := by
  unfold ClientImpl.ongoingAt
  cases hlookup : c.ongoingCalls.lookup id with
  | some call => exact ⟨c.ongoingCalls, c.promises, call, rfl, ha, hlookup⟩
  | none => exact ⟨_, _, _, rfl, ha.makeEntry hlookup, AList.lookup_insert _⟩

theorem next (hb : Books h c) (halive : c.terminated = false) (hstay : c.destroyed = false)
    (hphase : c.phase = .parsing) : Books (h ++ c.next.2) c.next.1 := by
  have hintake := hb.intake
  rw [hphase] at hintake
  have hdead : ∀ {P : Prop}, c.terminated = true → P := fun ht => by cases halive.symm.trans ht
  unfold ClientImpl.next
  cases hnext : c.unpacker.next with
  | incomplete u =>
    dsimp only
    rw [List.append_nil]
    exact hb.still rfl (hintake.incomplete hnext) rfl rfl rfl rfl rfl
  | parseError =>
    refine ⟨?_, ?_, hb.accounts.neutral (by simp [ClientEvent.neutral]), ?_, ?_, hb.exit, hb.gone,
      ?_⟩
    · simpa [wroteOf] using hb.queue
    · simpa [chunksOf, respondedOf] using hb.intake
    · simpa [wroteOf, requestedOf] using hb.order
    · simpa [wroteOf, requestedOf] using hb.front
    · intro _
      left
      have hfails := hintake.fails hnext
      have hchunks : chunksOf (h ++ [.terminated]) = chunksOf h := by simp [chunksOf]
      rw [hchunks, hfails]
  | object msg u =>
    have htaken := hintake.object hnext
    dsimp only
    cases hconv : convertResponse msg with
    | none =>
      refine ⟨?_, ?_, hb.accounts.neutral (by simp [ClientEvent.neutral]), ?_, ?_, hb.exit,
        hb.gone, ?_⟩
      · simpa [wroteOf] using hb.queue
      · simpa [chunksOf, respondedOf, hphase] using htaken
      · simpa [wroteOf, requestedOf] using hb.order
      · simpa [wroteOf, requestedOf] using hb.front
      · intro _
        exact .inr (.inl ⟨msg, by simp [respondedOf], hconv⟩)
    | some t =>
      obtain ⟨id, error, result⟩ := t
      dsimp only
      obtain ⟨ongoing, promises, call, hat, haccounts, hlookup⟩ :=
        ongoingAt_spec (c := { c with unpacker := u }) hb.accounts id
      rw [hat]
      dsimp only
      cases hsat : resultOf promises call.promise with
      | none =>
        obtain ⟨s', hok, hanswered⟩ := haccounts.answer hlookup hsat hconv
        rw [hok]
        refine ⟨?_, ?_, ?_, ?_, ?_, hb.exit, ?_, hdead⟩
        · simpa [wroteOf] using hb.queue
        · simpa [chunksOf, respondedOf, hphase] using htaken
        · simpa [tickets, erasesOf] using hanswered
        · simpa [wroteOf, requestedOf, buffersOf] using hb.order
        · simpa [wroteOf, requestedOf] using hb.front
        · intro hgone
          cases hstay.symm.trans hgone
      | some o =>
        have hrepeated := haccounts.repeated hlookup (by simp [hsat])
        rw [satisfy_of_result hsat]
        refine ⟨?_, ?_, haccounts.neutral (by simp [ClientEvent.neutral]), ?_, ?_, hb.exit, ?_, ?_⟩
        · simpa [wroteOf] using hb.queue
        · simpa [chunksOf, respondedOf, hphase] using htaken
        · simpa [wroteOf, requestedOf] using hb.order
        · simpa [wroteOf, requestedOf] using hb.front
        · intro hgone
          cases hstay.symm.trans hgone
        · intro _
          refine .inr (.inr ?_)
          have hids : respondedIds (h ++ [.responded msg, .terminated]) =
              respondedIds h ++ [id] := by
            simp [respondedIds, respondedOf, hconv]
          rw [hids, List.nodup_append]
          rintro ⟨-, -, hne⟩
          exact hne id hrepeated id (List.mem_singleton_self id) rfl

theorem destroy (hb : Books h c) : Books (h ++ c.destroy.2) c.destroy.1 := by
  have haccounts := hb.accounts.destroy
  have hbroken := abandonAll_broken c.promises
    ((tickets c.strand).map Ticket.promise ++ ongoingPromises c.ongoingCalls)
  set es := (abandonAll c.promises
    ((tickets c.strand).map Ticket.promise ++ ongoingPromises c.ongoingCalls)).2 with hes
  have hevents : c.destroy.2 = es := rfl
  have hwrote : wroteOf es = [] := filterMap_broken hbroken fun _ => rfl
  have hrequested : requestedOf es = [] := filterMap_broken hbroken fun _ => rfl
  have hchunks : chunksOf es = [] := filterMap_broken hbroken fun _ => rfl
  have hresponded : respondedOf es = [] := filterMap_broken hbroken fun _ => rfl
  rw [hevents]
  refine ⟨?_, ?_, haccounts, nofun, ?_, hb.exit, fun _ => ⟨rfl, rfl⟩, ?_⟩
  · rw [wroteOf_append, hwrote, List.append_nil]
    exact hb.queue
  · rw [chunksOf_append, respondedOf_append, hchunks, hresponded, List.append_nil, List.append_nil]
    exact hb.intake
  · rw [wroteOf_append, requestedOf_append, hwrote, hrequested, List.append_nil, List.append_nil]
    exact hb.front
  · rw [chunksOf_append, hchunks, List.append_nil, respondedIds, respondedOf_append, hresponded,
      List.append_nil]
    exact hb.terminated

theorem step (hb : Books h c) {a : ClientAction} (hstep : c.step a = some (c', es)) :
    Books (h ++ es) c' := by
  obtain ⟨halive, hstay, hact⟩ := clientStep_of_step hstep
  cases hact with
  | connected hstate =>
    rw [List.append_nil]
    exact hb.still rfl hb.intake rfl rfl rfl rfl rfl
  | refused hstate =>
    rw [List.append_nil]
    exact hb.still rfl hb.intake rfl rfl rfl rfl rfl
  | call hopen => exact hb.takeNumber _ _
  | post hn => exact hb.post hstay _ _
  | send => exact hb.send hstay _ _
  | strand hstrand => exact hb.runClosure hstay hstrand
  | receive hopen hphase =>
    have hintake := hb.intake
    rw [hphase] at hintake
    refine ⟨?_, ?_, hb.accounts.neutral (by simp [ClientEvent.neutral]), ?_, ?_, hb.exit, hb.gone,
      fun hdead => by cases halive.symm.trans hdead⟩
    · simpa [wroteOf] using hb.queue
    · simpa [chunksOf, respondedOf] using hintake.receive _
    · simpa [wroteOf, requestedOf] using hb.order
    · simpa [wroteOf, requestedOf] using hb.front
  | next hphase => exact hb.next halive hstay hphase
  | exhausts hphase =>
    rw [List.append_nil]
    exact hb.still rfl hb.intake rfl rfl rfl rfl rfl
  | readError hopen hphase =>
    rw [List.append_nil]
    exact hb.still rfl hb.intake.ended rfl rfl rfl rfl rfl
  | io hwrite hclose hw => exact hb.io hwrite hclose hw
  | destroy hphase => exact hb.destroy

theorem of_run (hrun : Run ClientImpl.step anyAction {} h c) : Books h c := by
  induction hrun with
  | refl => exact .init
  | tail _ _ hstep ih => exact ih.step hstep

end Books

/-! ## What the strand holds -/

theorem runClosure_strand (c : ClientImpl) (closure : Closure) :
    (c.runClosure closure).1.strand = c.strand := by
  have hrun := closureStep c closure
  generalize c.runClosure closure = q at hrun ⊢
  cases hrun <;> rfl

theorem next_strand (c : ClientImpl) {idx : ℤ} {funcName buffer : Bytes} {p : ℕ}
    (hmem : .call idx funcName p buffer ∈ c.next.1.strand) :
    .call idx funcName p buffer ∈ c.strand := by
  have hnext := nextStep c
  generalize c.next = q at hnext hmem
  cases hnext with
  | answered => simpa using hmem
  | incomplete | parseError | malformed | repeated => exact hmem

theorem strand_step {c c' : ClientImpl} {a : ClientAction} {es : List ClientEvent}
    (hstep : c.step a = some (c', es)) {idx : ℤ} {funcName buffer : Bytes} {p : ℕ}
    (hmem : .call idx funcName p buffer ∈ c'.strand) :
    .call idx funcName p buffer ∈ c.strand ∨
      ∃ args, .issued p idx funcName args ∈ es ∧ buffer = packCall idx funcName args := by
  obtain ⟨-, -, hact⟩ := clientStep_of_step hstep
  cases hact with
  | connected | refused | call | receive | exhausts | readError | io => exact .inl hmem
  | post hn =>
    rcases List.mem_append.mp hmem with hold | hnew
    · exact .inl hold
    · rw [List.mem_singleton, Closure.call.injEq] at hnew
      obtain ⟨rfl, rfl, rfl, rfl⟩ := hnew
      exact .inr ⟨_, List.mem_singleton_self _, rfl⟩
  | send => exact .inl (by simpa using hmem)
  | strand hstrand =>
    rw [runClosure_strand] at hmem
    rw [hstrand]
    exact .inl (List.mem_cons_of_mem _ hmem)
  | next hphase => exact .inl (next_strand c hmem)
  | destroy hphase => cases hmem

/-- What the strand holds for a call is the call's packed request. -/
def Loaded (h : List ClientEvent) (c : ClientImpl) : Prop :=
  ∀ idx funcName p buffer, .call idx funcName p buffer ∈ c.strand →
    ∃ args, .issued p idx funcName args ∈ h ∧ buffer = packCall idx funcName args

theorem Loaded.step {h es : List ClientEvent} {c c' : ClientImpl} (hl : Loaded h c)
    {a : ClientAction} (hstep : c.step a = some (c', es)) : Loaded (h ++ es) c' := by
  intro idx funcName p buffer hmem
  rcases strand_step hstep hmem with hold | ⟨args, hnew, hbuffer⟩
  · obtain ⟨args, hissued, hbuffer⟩ := hl idx funcName p buffer hold
    exact ⟨args, List.mem_append_left _ hissued, hbuffer⟩
  · exact ⟨args, List.mem_append_right _ hnew, hbuffer⟩

/-! ## What is entered -/

/-- An entry is there for a call, or for a number that a response has named. -/
def Entered (h : List ClientEvent) (c : ClientImpl) : Prop :=
  ∀ id r, c.ongoingCalls.lookup id = some r →
    (∃ idx args, castUnsigned 4 idx = id ∧ .issued r.promise idx r.funcName args ∈ h) ∨
      id ∈ respondedIds h

theorem runClosure_lookup (c : ClientImpl) (closure : Closure) {id : ℕ} {r : OngoingCall}
    (hr : (c.runClosure closure).1.ongoingCalls.lookup id = some r) :
    c.ongoingCalls.lookup id = some r ∨ ∃ idx buffer,
      closure = .call idx r.funcName r.promise buffer ∧ castUnsigned 4 idx = id := by
  cases closure with
  | call idx funcName p buffer =>
    unfold ClientImpl.runClosure at hr
    dsimp only at hr
    split at hr
    · by_cases hid : id = castUnsigned 4 idx
      · subst hid
        have hnew := (AList.lookup_insert c.ongoingCalls).symm.trans hr
        cases hnew
        exact .inr ⟨idx, buffer, rfl, rfl⟩
      · exact .inl ((AList.lookup_insert_ne hid).symm.trans hr)
    · exact .inl hr
  | notify buffer => exact .inl hr
  | erase i =>
    unfold ClientImpl.runClosure at hr
    dsimp only at hr
    split at hr
    · exact .inl hr
    · by_cases hid : id = i
      · subst hid
        cases (AList.lookup_erase id c.ongoingCalls).symm.trans hr
      · exact .inl ((AList.lookup_erase_ne hid).symm.trans hr)

theorem ongoingAt_lookup (c : ClientImpl) {i id : ℕ} {r : OngoingCall}
    (hr : (c.ongoingAt i).1.ongoingCalls.lookup id = some r) :
    c.ongoingCalls.lookup id = some r ∨ id = i := by
  unfold ClientImpl.ongoingAt at hr
  split at hr
  · exact .inl hr
  · by_cases hid : id = i
    · exact .inr hid
    · exact .inl ((AList.lookup_insert_ne hid).symm.trans hr)

theorem next_lookup (c : ClientImpl) (id : ℕ) (r : OngoingCall) :
    c.next.1.ongoingCalls.lookup id = some r →
      c.ongoingCalls.lookup id = some r ∨ id ∈ respondedIds c.next.2 := by
  unfold ClientImpl.next
  cases c.unpacker.next with
  | incomplete u => exact .inl
  | parseError => exact .inl
  | object msg u =>
    dsimp only
    cases hconv : convertResponse msg with
    | none => exact .inl
    | some t =>
      obtain ⟨i, error, result⟩ := t
      have hentry : ({ c with unpacker := u }.ongoingAt i).1.ongoingCalls.lookup id = some r →
          c.ongoingCalls.lookup id = some r ∨ id = i := ongoingAt_lookup _
      dsimp only
      split
      · intro hr
        refine (hentry hr).imp_right ?_
        rintro rfl
        simp [respondedIds, respondedOf, hconv]
      · intro hr
        refine (hentry hr).imp_right ?_
        rintro rfl
        simp [respondedIds, respondedOf, hconv]

theorem Entered.step {h es : List ClientEvent} {c c' : ClientImpl} (he : Entered h c)
    (hl : Loaded h c) {a : ClientAction} (hstep : c.step a = some (c', es)) :
    Entered (h ++ es) c' := by
  have hold : ∀ {id r}, c.ongoingCalls.lookup id = some r →
      (∃ idx args, castUnsigned 4 idx = id ∧ .issued r.promise idx r.funcName args ∈ h ++ es) ∨
        id ∈ respondedIds (h ++ es) := by
    intro id r hr
    rw [respondedIds_append]
    refine (he id r hr).imp ?_ (List.mem_append_left _)
    rintro ⟨idx, args, hkey, hmem⟩
    exact ⟨idx, args, hkey, List.mem_append_left _ hmem⟩
  intro id r hr
  obtain ⟨-, -, hact⟩ := clientStep_of_step hstep
  cases hact with
  | connected | refused | call | post | send | receive | exhausts | readError | io => exact hold hr
  | @strand closure rest hstrand =>
    rcases runClosure_lookup { c with strand := rest } closure hr with hsame |
      ⟨idx, buffer, rfl, hkey⟩
    · exact hold hsame
    · obtain ⟨args, hmem, -⟩ := hl idx r.funcName r.promise buffer
        (hstrand ▸ List.mem_cons_self ..)
      exact .inl ⟨idx, args, hkey, List.mem_append_left _ hmem⟩
  | next hphase =>
    rcases next_lookup c id r hr with hsame | hnew
    · exact hold hsame
    · right
      rw [respondedIds_append]
      exact List.mem_append_right _ hnew
  | destroy hphase => cases hr

theorem Entered.of_run {h : List ClientEvent} {c : ClientImpl}
    (hrun : Run ClientImpl.step anyAction {} h c) : Entered h c ∧ Loaded h c := by
  induction hrun with
  | refl => exact ⟨(fun _ _ hr => by cases hr), fun _ _ _ _ hmem => by cases hmem⟩
  | tail _ _ hstep ih => exact ⟨ih.1.step ih.2 hstep, ih.2.step hstep⟩

end PromiseDemo.Rpc
