import PromiseDemo.Rpc.ServerSession

/-!
# What a session serves

The messages of the stream, each once, with replies in the order in which the tasks end, until the
session goes wrong; and what it takes for that.
-/

namespace PromiseDemo.Rpc

open MsgPack Transition

/-- The responses for a list of messages, in its order. -/
def Config.replies (c : Config) (msgs : List Object) : List Response := msgs.filterMap c.replyTo

/-- The invariant of a session after history `h`. -/
structure Serves (c : Config) (h : List ServerSessionEvent) (s : ServerSession) : Prop where
  queue : Queue (writerOf h) s.writer
  intake : Intake (receivedChunks h) (postedOf h) s.unpacker s.phase
  tasks : (ranOf h ++ s.tasks).Perm (postedOf h)
  replies : queuedOf (writerOf h) ++ (postedWrites s.strand).map Response.getData =
    (c.replies (ranOf h)).map Response.getData
  ran : ∀ msg ∈ ranOf h, c.serve msg ≠ .terminated
  terminated : s.terminated = true → (Unpacker.readChunks (receivedChunks h)).2 = none ∨
    ∃ msg ∈ s.tasks, c.serve msg = .terminated

namespace Serves

variable {c : Config} {h es : List ServerSessionEvent} {s s' : ServerSession}

theorem init : Serves c [] {} where
  queue := .init
  intake := .init
  tasks := .refl _
  replies := rfl
  ran := by simp [ranOf]
  terminated := nofun

theorem quiet (hs : Serves c h s) (hqueue : Queue (writerOf h) s'.writer)
    (hphase : s'.phase = .ended ∨ s'.phase = s.phase ∧ s'.unpacker = s.unpacker)
    (htasks : s'.tasks = s.tasks) (hstrand : postedWrites s'.strand = postedWrites s.strand)
    (hterminated : s'.terminated = s.terminated)
    (hes : receivedChunks es = [] ∧ postedOf es = [] ∧ ranOf es = [] ∧ writerOf es = []) :
    Serves c (h ++ es) s' := by
  obtain ⟨hr, hp, hn, hw⟩ := hes
  refine ⟨?_, ?_, ?_, ?_, ?_, ?_⟩
  · rw [writerOf_append, hw, List.append_nil]
    exact hqueue
  · rw [receivedChunks_append, postedOf_append, hr, hp, List.append_nil, List.append_nil]
    rcases hphase with hended | ⟨hsame, hunpacker⟩
    · rw [hended]
      exact hs.intake.ended
    · rw [hsame, hunpacker]
      exact hs.intake
  · rw [postedOf_append, ranOf_append, hp, hn, List.append_nil, List.append_nil, htasks]
    exact hs.tasks
  · rw [writerOf_append, ranOf_append, hw, hn, List.append_nil, List.append_nil, hstrand]
    exact hs.replies
  · rw [ranOf_append, hn, List.append_nil]
    exact hs.ran
  · rw [receivedChunks_append, hr, List.append_nil, htasks, hterminated]
    exact hs.terminated

theorem still (hs : Serves c h s) (hqueue : Queue (writerOf h) s'.writer)
    (hphase : s'.phase = .ended ∨ s'.phase = s.phase ∧ s'.unpacker = s.unpacker)
    (htasks : s'.tasks = s.tasks) (hstrand : postedWrites s'.strand = postedWrites s.strand)
    (hterminated : s'.terminated = s.terminated) : Serves c h s' := by
  rw [← List.append_nil h]
  exact hs.quiet hqueue hphase htasks hstrand hterminated ⟨rfl, rfl, rfl, rfl⟩

theorem close (hs : Serves c h s) (hes : es = [.closed]) : Serves c (h ++ es) s.close := by
  subst hes
  have hqueue := hs.queue.step (a := .close) rfl
  rw [List.append_nil] at hqueue
  refine hs.quiet hqueue (.inr ⟨rfl, rfl⟩) rfl ?_ rfl ⟨rfl, rfl, rfl, rfl⟩
  simp [ServerSession.close, postedWrites]

theorem receive (hs : Serves c h s) (hphase : s.phase = .reading) (halive : s.Alive)
    (chunk : Bytes) :
    Serves c (h ++ (s.receive chunk).2) (s.receive chunk).1 := by
  rw [ServerSession.receive]
  split_ifs with hexit
  · exact hs.quiet hs.queue (.inl rfl) rfl rfl rfl ⟨rfl, rfl, rfl, rfl⟩
  · have hintake := hs.intake
    rw [hphase] at hintake
    refine ⟨?_, ?_, ?_, ?_, ?_, ?_⟩
    · simpa [writerOf] using hs.queue
    · simpa [receivedChunks, postedOf] using hintake.receive chunk
    · simpa [ranOf, postedOf] using hs.tasks
    · simpa [writerOf, ranOf] using hs.replies
    · simpa [ranOf] using hs.ran
    · intro hterminated
      cases halive.1.symm.trans hterminated

theorem next (hs : Serves c h s) (hphase : s.phase = .parsing) (halive : s.Alive) :
    Serves c (h ++ s.next.2) s.next.1 := by
  have hintake := hs.intake
  rw [hphase] at hintake
  have hturn := sessionTurn s
  generalize s.next = q at hturn ⊢
  cases hturn with
  | closed => exact hs.quiet hs.queue (.inl rfl) rfl rfl rfl ⟨rfl, rfl, rfl, rfl⟩
  | @posted msg u hnext =>
    refine ⟨?_, ?_, ?_, ?_, ?_, ?_⟩
    · simpa [writerOf] using hs.queue
    · simpa [receivedChunks, postedOf, hphase] using hintake.object hnext
    · simpa [ranOf, postedOf] using hs.tasks.append_right [msg]
    · simpa [writerOf, ranOf] using hs.replies
    · simpa [ranOf] using hs.ran
    · intro hterminated
      cases halive.1.symm.trans hterminated
  | incomplete hnext =>
    rw [List.append_nil]
    exact ⟨hs.queue, hintake.incomplete hnext, hs.tasks, hs.replies, hs.ran, hs.terminated⟩
  | parseError hnext =>
    have hfails := hintake.fails hnext
    refine ⟨?_, ?_, ?_, ?_, ?_, ?_⟩
    · simpa [writerOf] using hs.queue
    · simpa [receivedChunks, postedOf] using hs.intake
    · simpa [ranOf, postedOf] using hs.tasks
    · simpa [writerOf, ranOf] using hs.replies
    · simpa [ranOf] using hs.ran
    · intro _
      left
      simp [receivedChunks] at hfails ⊢
      rw [hfails]

theorem closeSessions (hs : Serves c h s) : Serves c h s.closeSessions := by
  rw [ServerSession.closeSessions]
  split_ifs
  · exact hs.still hs.queue (.inr ⟨rfl, rfl⟩) rfl rfl rfl
  · exact hs

theorem runTask (hs : Serves c h s) (halive : s.Alive) {thread i : ℕ} {msg : Object}
    (hmsg : s.tasks[i]? = some msg) :
    Serves c (h ++ (s.runTask c thread i msg).2) (s.runTask c thread i msg).1 := by
  unfold ServerSession.runTask
  cases hserve : c.serve msg with
  | terminated =>
    refine ⟨?_, ?_, ?_, ?_, ?_, ?_⟩
    · simpa [writerOf] using hs.queue
    · simpa [receivedChunks, postedOf] using hs.intake
    · simpa [ranOf, postedOf] using hs.tasks
    · simpa [writerOf, ranOf] using hs.replies
    · simpa [ranOf] using hs.ran
    · intro _
      exact .inr ⟨msg, List.mem_of_getElem? hmsg, hserve⟩
  | finished reply exit stop =>
    have hran : ranOf (h ++ [.ran msg]) = ranOf h ++ [msg] := by simp [ranOf]
    have hwriter : writerOf (h ++ [.ran msg]) = writerOf h := by simp [writerOf]
    have hone : c.replyTo msg = reply := by rw [Config.replyTo, hserve]
    have hreply : c.replies (ranOf h ++ [msg]) = c.replies (ranOf h) ++ reply.toList := by
      rw [Config.replies, List.filterMap_append, List.filterMap_cons, List.filterMap_nil, hone]
      cases reply <;> rfl
    have hposts : postedWrites (s.strand.map (Posted.reuse thread (c.handler msg)) ++
        reply.toList.map fun resp => .write resp ((c.handler msg).storage thread)) =
          postedWrites s.strand ++ reply.toList := by
      rw [postedWrites_append, postedWrites_reuse]
      cases reply <;> rfl
    obtain ⟨hi, hget⟩ := List.getElem?_eq_some_iff.mp hmsg
    refine ⟨?_, ?_, ?_, ?_, ?_, ?_⟩
    · rw [hwriter]
      exact hs.queue
    · simpa [receivedChunks, postedOf] using hs.intake
    · have hposted : postedOf (h ++ [.ran msg]) = postedOf h := by simp [postedOf]
      have htaken : (msg :: s.tasks.eraseIdx i).Perm s.tasks := by
        rw [← hget]
        exact List.getElem_cons_eraseIdx_perm hi
      rw [hran, hposted, List.append_assoc, List.singleton_append]
      exact (htaken.append_left (ranOf h)).trans hs.tasks
    · rw [hran, hwriter, hreply, hposts, List.map_append, List.map_append, ← List.append_assoc,
        hs.replies]
    · intro m hm
      rw [hran, List.mem_append, List.mem_singleton] at hm
      rcases hm with hold | rfl
      · exact hs.ran m hold
      · rw [hserve]
        exact TaskOutcome.noConfusion
    · intro hterminated
      cases halive.1.symm.trans hterminated

theorem runPosted (hs : Serves c h s) (halive : s.Alive) {p : Posted} {rest : List Posted}
    (hstrand : s.strand = p :: rest) :
    Serves c (h ++ (ServerSession.runPosted { s with strand := rest } p).2)
      (ServerSession.runPosted { s with strand := rest } p).1 := by
  have hpop : postedWrites (p :: rest) = postedWrites rest →
      Serves c h { s with strand := rest } := by
    intro hsame
    have hsame' : postedWrites rest = postedWrites s.strand := by rw [hstrand, hsame]
    exact hs.still hs.queue (.inr ⟨rfl, rfl⟩) rfl hsame' rfl
  cases p with
  | write resp storage =>
    set e : ServerSessionEvent := .writer (.queued resp.getData) with he
    have hwriter : writerOf (h ++ [e]) = writerOf h ++ [.queued resp.getData] := by
      simp [writerOf, he]
    have hran : ranOf (h ++ [e]) = ranOf h := by simp [ranOf, he]
    have hposted : postedOf (h ++ [e]) = postedOf h := by simp [postedOf, he]
    have hchunks : receivedChunks (h ++ [e]) = receivedChunks h := by simp [receivedChunks, he]
    have hreplies := hs.replies
    rw [hstrand] at hreplies
    refine ⟨?_, ?_, ?_, ?_, ?_, ?_⟩
    · rw [ServerSession.runPosted, hwriter]
      exact hs.queue.write _
    · rw [ServerSession.runPosted, hchunks, hposted]
      exact hs.intake
    · rw [ServerSession.runPosted, hran, hposted]
      exact hs.tasks
    · rw [ServerSession.runPosted, hwriter, hran, queuedOf_append, List.append_assoc]
      exact hreplies
    · rw [ServerSession.runPosted, hran]
      exact hs.ran
    · intro hterminated
      cases halive.1.symm.trans hterminated
  | request r =>
    cases r with
    | close => exact (hpop rfl).close rfl
    | closeSessions =>
      rw [ServerSession.runPosted, List.append_nil]
      exact (hpop rfl).closeSessions
  | shutdown =>
    exact (hpop rfl).quiet hs.queue (.inr ⟨rfl, rfl⟩) rfl rfl rfl ⟨rfl, rfl, rfl, rfl⟩
  | leave =>
    exact (hpop rfl).quiet hs.queue (.inr ⟨rfl, rfl⟩) rfl rfl rfl ⟨rfl, rfl, rfl, rfl⟩

theorem io (hs : Serves c h s) {a : WriterAction} {w : AsyncWriter} {ws : List WriterEvent}
    (ha : ∀ data, a ≠ .write data) (hw : s.writer.step a = some (w, ws)) :
    Serves c (h ++ ws.map .writer) { s with writer := w } := by
  have hqueued : queuedOf ws = [] := queuedOf_io ha hw
  have hchunks : receivedChunks (ws.map .writer) = [] := by simp [receivedChunks]
  have hposted : postedOf (ws.map .writer) = [] := by simp [postedOf]
  have hran : ranOf (ws.map .writer) = [] := by simp [ranOf]
  refine ⟨?_, ?_, ?_, ?_, ?_, ?_⟩
  · rw [writerOf_append, writerOf_map_writer]
    exact hs.queue.step hw
  · rw [receivedChunks_append, postedOf_append, hchunks, hposted, List.append_nil,
      List.append_nil]
    exact hs.intake
  · rw [ranOf_append, postedOf_append, hran, hposted, List.append_nil, List.append_nil]
    exact hs.tasks
  · rw [writerOf_append, writerOf_map_writer, ranOf_append, hran, queuedOf_append, hqueued,
      List.append_nil, List.append_nil]
    exact hs.replies
  · rw [ranOf_append, hran, List.append_nil]
    exact hs.ran
  · rw [receivedChunks_append, hchunks, List.append_nil]
    exact hs.terminated

theorem step (hs : Serves c h s) {a : ServerSessionAction}
    (hstep : s.step c a = some (s', es)) : Serves c (h ++ es) s' := by
  obtain ⟨halive, hact⟩ := sessionStep_of_step hstep
  cases hact with
  | receive hphase => exact hs.receive hphase halive _
  | next hphase => exact hs.next hphase halive
  | fails hfails =>
    rw [List.append_nil]
    exact hs.still hs.queue (.inr ⟨rfl, rfl⟩) rfl rfl rfl
  | lost hphase ha =>
    rw [List.append_nil]
    exact hs.still hs.queue (.inl rfl) rfl rfl rfl
  | disconnect hphase =>
    have hended : Serves c h { s with phase := .ended } :=
      hs.still hs.queue (.inl rfl) rfl rfl rfl
    exact hended.close rfl
  | run hmsg => exact hs.runTask halive hmsg
  | @post j r rest hj =>
    rw [List.append_nil]
    have hsame : postedWrites (s.strand ++ [.request r]) = postedWrites s.strand := by
      rw [postedWrites_append]
      exact List.append_nil _
    exact hs.still hs.queue (.inr ⟨rfl, rfl⟩) rfl hsame rfl
  | reuse thread handler =>
    exact hs.quiet hs.queue (.inr ⟨rfl, rfl⟩) rfl (postedWrites_reuse thread handler _) rfl
      ⟨rfl, rfl, rfl, rfl⟩
  | closeSessions =>
    rw [List.append_nil]
    exact hs.closeSessions
  | closeTaken hclosing =>
    have htaken : Serves c h { s with closing := false } :=
      hs.still hs.queue (.inr ⟨rfl, rfl⟩) rfl rfl rfl
    exact htaken.close rfl
  | strand hstrand hright => exact hs.runPosted halive hstrand
  | io hwrite hclose hw => exact hs.io hwrite hw

theorem of_run (hrun : Run (ServerSession.step c) anyAction {} h s) : Serves c h s := by
  induction hrun with
  | refl => exact .init
  | tail _ _ hstep ih => exact ih.step hstep

theorem packed (hs : Serves c h s) :
    (queuedOf (writerOf h)).flatten ++ (postedWrites s.strand).flatMap Response.getData =
      packedStream ((c.replies (ranOf h)).map Response.toObject) := by
  have hdata : (c.replies (ranOf h)).map Response.getData =
      ((c.replies (ranOf h)).map Response.toObject).map pack := by
    rw [List.map_map]
    apply List.map_congr_left
    intro r hr
    obtain ⟨msg, -, hreply⟩ := List.mem_filterMap.mp hr
    exact Response.getData_eq (reply_id_lt hreply)
  rw [packedStream, List.flatMap_def, List.flatMap_def, ← hdata, ← hs.replies,
    List.flatten_append]

theorem mem_posted (hs : Serves c h s) {msg : Object} :
    msg ∈ postedOf h ↔ msg ∈ ranOf h ∨ msg ∈ s.tasks := by
  rw [← hs.tasks.mem_iff, List.mem_append]

end Serves

/-! ## What it takes to go wrong -/

/-- Does the function that the message names set an object of `this_handler`? -/
def Config.touches (c : Config) (msg : Object) : Bool :=
  (c.handler msg).sets .error || (c.handler msg).sets .resp

/-- Does its response point into the zone of an object that the function has set? -/
def Config.lends (c : Config) (msg : Object) : Bool := (c.handler msg).lends.isSome

/-- Does its task ask for the end of the session or of all sessions? -/
def Config.asksToEnd (c : Config) (msg : Object) : Bool :=
  match c.serve msg with
  | .finished _ exit stop => exit || stop
  | .terminated => false

def ServerSessionEvent.isReused : ServerSessionEvent → Bool
  | .reused => true
  | _ => false

/-- The tasks that may have freed the zone of an object of `this_handler`: those of this session
that have set one, and those of other sessions. -/
def touchings (c : Config) (h : List ServerSessionEvent) : ℕ :=
  (ranOf h).countP c.touches + h.countP ServerSessionEvent.isReused

theorem touchings_append (c : Config) (h k : List ServerSessionEvent) :
    touchings c (h ++ k) = touchings c h + touchings c k := by
  simp only [touchings, ranOf_append, List.countP_append]
  omega

theorem ThisHandler.sets_of_lends {handler : ThisHandler} {slot : Slot}
    (h : handler.lends = some slot) : handler.sets slot = true := by
  obtain ⟨hcaptured, -⟩ := Option.filter_eq_some_iff.mp h
  unfold captured at hcaptured
  split_ifs at hcaptured with herror hresp
  · cases hcaptured
    cases he : handler.error with
    | none => simp [get, he, isNil] at herror
    | some o => simp [sets, he]
  · cases hcaptured
    cases hr : handler.resp with
    | none => simp [get, hr, isNil] at hresp
    | some o => simp [sets, hr]

theorem Config.touches_of_lends {c : Config} {msg : Object} (h : c.lends msg = true) :
    c.touches msg = true := by
  obtain ⟨slot, hslot⟩ := Option.isSome_iff_exists.mp h
  have hsets := ThisHandler.sets_of_lends hslot
  cases slot <;> simp [Config.touches, hsets]

/-- What has brought a session to fail. -/
def Causes (c : Config) (h : List ServerSessionEvent) : Failure → Prop
  | .noMemory => Unpacker.Opens (receivedChunks h) (postedOf h)
  | .stackOverflow => ∃ msg ∈ ranOf h, ∃ r, c.replyTo msg = some r ∧ r.nests = true
  | .closeThrows => .closed ∈ h
  | .staleReply => (∃ msg ∈ ranOf h, c.lends msg = true) ∧ 2 ≤ touchings c h
  | .freedSession => ∃ msg ∈ ranOf h, c.asksToEnd msg = true

/-- Where all that may go wrong comes from. -/
structure Traced (c : Config) (h : List ServerSessionEvent) (s : ServerSession) : Prop where
  writes : ∀ resp storage, .write resp storage ∈ s.strand →
    ∃ msg ∈ ranOf h, c.replyTo msg = some resp ∧ (storage ≠ .own → c.lends msg = true)
  freed : ∀ resp, .write resp .freed ∈ s.strand → 2 ≤ touchings c h
  requests : ∀ r, .request r ∈ s.strand → ∃ msg ∈ ranOf h, c.asksToEnd msg = true
  ending : s.ending ≠ [] → ∃ msg ∈ ranOf h, c.asksToEnd msg = true
  shutdown : .shutdown ∈ s.strand → .closed ∈ h
  failure : ∀ failure, s.failure = some failure → Causes c h failure

namespace Traced

variable {c : Config} {h es : List ServerSessionEvent} {s s' : ServerSession}

theorem init : Traced c [] {} where
  writes := nofun
  freed := nofun
  requests := nofun
  ending := nofun
  shutdown := nofun
  failure := nofun

theorem extend (ht : Traced c h s)
    (hwrites : ∀ resp storage, Posted.write resp storage ∈ s'.strand → .write resp storage ∈ s.strand)
    (hrequests : ∀ r, .request r ∈ s'.strand → .request r ∈ s.strand ∨ s.ending ≠ [])
    (hending : s'.ending ≠ [] → s.ending ≠ [])
    (hshutdown : .shutdown ∈ s'.strand → .shutdown ∈ s.strand ∨ .closed ∈ es)
    (hfailure : s'.failure = none) : Traced c (h ++ es) s' := by
  have hmore : ∀ {P : Object → Prop}, (∃ msg ∈ ranOf h, P msg) → ∃ msg ∈ ranOf (h ++ es), P msg := by
    rintro P ⟨msg, hmsg, hP⟩
    exact ⟨msg, by rw [ranOf_append]; exact List.mem_append_left _ hmsg, hP⟩
  refine ⟨?_, ?_, ?_, ?_, ?_, ?_⟩
  · intro resp storage hmem
    exact hmore (ht.writes resp storage (hwrites resp storage hmem))
  · intro resp hmem
    rw [touchings_append]
    exact (ht.freed resp (hwrites resp .freed hmem)).trans (Nat.le_add_right _ _)
  · intro r hmem
    rcases hrequests r hmem with hold | hends
    · exact hmore (ht.requests r hold)
    · exact hmore (ht.ending hends)
  · intro hends
    exact hmore (ht.ending (hending hends))
  · intro hmem
    exact List.mem_append.mpr ((hshutdown hmem).imp_left ht.shutdown)
  · intro failure hsome
    cases hfailure.symm.trans hsome

/-- The zones that a thread frees when it sets its objects anew. -/
theorem freed_reuse (ht : Traced c h s) {thread : ℕ} {handler : ThisHandler} {resp : Response}
    (hmem : .write resp .freed ∈ s.strand.map (Posted.reuse thread handler)) :
    2 ≤ touchings c h ∨ 1 ≤ touchings c h ∧ ∃ slot, handler.sets slot = true := by
  obtain ⟨p, hp, heq⟩ := List.mem_map.mp hmem
  cases p with
  | write r storage =>
    obtain ⟨rfl, hstorage⟩ := Posted.write.inj heq
    cases storage with
    | own => cases hstorage
    | freed => exact .inl (ht.freed _ hp)
    | lent t slot =>
      rw [Storage.reuse] at hstorage
      split_ifs at hstorage with hsame
      obtain ⟨msg, hmsg, -, hlends⟩ := ht.writes _ _ hp
      have hone : 1 ≤ (ranOf h).countP c.touches :=
        List.one_le_countP_iff.mpr ⟨msg, hmsg, Config.touches_of_lends (hlends nofun)⟩
      exact .inr ⟨hone.trans (Nat.le_add_right _ _), slot, hsame.2⟩
  | request | shutdown | leave => cases heq

theorem write_reuse {thread : ℕ} {handler : ThisHandler} {ps : List Posted} {resp : Response}
    {storage : Storage} (hmem : .write resp storage ∈ ps.map (Posted.reuse thread handler)) :
    ∃ before, .write resp before ∈ ps ∧ (storage ≠ .own → before ≠ .own) := by
  obtain ⟨p, hp, heq⟩ := List.mem_map.mp hmem
  cases p with
  | write r before =>
    obtain ⟨rfl, rfl⟩ := Posted.write.inj heq
    refine ⟨before, hp, ?_⟩
    rintro hne rfl
    exact hne rfl
  | request | shutdown | leave => cases heq

theorem request_reuse {thread : ℕ} {handler : ThisHandler} {ps : List Posted} {r : Request}
    (hmem : .request r ∈ ps.map (Posted.reuse thread handler)) : .request r ∈ ps := by
  obtain ⟨p, hp, heq⟩ := List.mem_map.mp hmem
  cases p with
  | request q =>
    cases heq
    exact hp
  | write | shutdown | leave => cases heq

theorem shutdown_reuse {thread : ℕ} {handler : ThisHandler} {ps : List Posted}
    (hmem : .shutdown ∈ ps.map (Posted.reuse thread handler)) : .shutdown ∈ ps := by
  obtain ⟨p, hp, heq⟩ := List.mem_map.mp hmem
  cases p with
  | shutdown => exact hp
  | write | request | leave => cases heq

theorem write_own {ps : List Posted} {reply : Option Response} {resp : Response}
    {storage kept : Storage}
    (hmem : .write resp storage ∈ ps ++ reply.toList.map fun r => .write r kept) :
    .write resp storage ∈ ps ∨ reply = some resp ∧ storage = kept := by
  refine (List.mem_append.mp hmem).imp_right ?_
  intro hnew
  obtain ⟨r, hr, heq⟩ := List.mem_map.mp hnew
  cases heq
  exact ⟨Option.mem_toList.mp hr, rfl⟩

theorem runTask (ht : Traced c h s) (halive : s.Alive) {thread i : ℕ} {msg : Object} :
    Traced c (h ++ (s.runTask c thread i msg).2) (s.runTask c thread i msg).1 := by
  unfold ServerSession.runTask
  cases hserve : c.serve msg with
  | terminated => exact ht.extend (fun _ _ hp => hp) (fun _ hp => .inl hp) id .inl halive.2
  | finished reply exit stop =>
    dsimp only
    have hran : ranOf (h ++ [.ran msg]) = ranOf h ++ [msg] := by simp [ranOf]
    have hnew : msg ∈ ranOf (h ++ [.ran msg]) := by simp [hran]
    have hmore : ∀ {P : Object → Prop}, (∃ m ∈ ranOf h, P m) →
        ∃ m ∈ ranOf (h ++ [.ran msg]), P m := by
      rintro P ⟨m, hm, hP⟩
      exact ⟨m, by rw [hran]; exact List.mem_append_left _ hm, hP⟩
    have hone : c.replyTo msg = reply := by rw [Config.replyTo, hserve]
    refine ⟨?_, ?_, ?_, ?_, ?_, ?_⟩
    · intro resp storage hmem
      rcases write_own hmem with hold | ⟨hreply, rfl⟩
      · obtain ⟨before, hbefore, hfrom⟩ := write_reuse hold
        obtain ⟨m, hm, hreply, hlends⟩ := ht.writes resp before hbefore
        exact hmore ⟨m, hm, hreply, fun hne => hlends (hfrom hne)⟩
      · refine ⟨msg, hnew, hone.trans hreply, ?_⟩
        intro hne
        unfold ThisHandler.storage at hne
        rw [Config.lends]
        cases hlends : (c.handler msg).lends with
        | none =>
          rw [hlends] at hne
          exact absurd rfl hne
        | some slot => rfl
    · intro resp hmem
      rw [touchings_append]
      rcases write_own hmem with hold | ⟨-, hstorage⟩
      · rcases ht.freed_reuse hold with htwo | ⟨hone, slot, hsets⟩
        · omega
        · have htouches : c.touches msg = true := by
            cases slot <;> simp [Config.touches, hsets]
          have hthis : touchings c [.ran msg] = 1 := by
            simp [touchings, ranOf, htouches, ServerSessionEvent.isReused]
          omega
      · unfold ThisHandler.storage at hstorage
        split at hstorage <;> cases hstorage
    · intro r hmem
      rcases List.mem_append.mp hmem with hold | hwrite
      · exact hmore (ht.requests r (request_reuse hold))
      · obtain ⟨q, -, heq⟩ := List.mem_map.mp hwrite
        cases heq
    · intro hends
      by_cases hold : s.ending = []
      · refine ⟨msg, hnew, ?_⟩
        rw [Config.asksToEnd, hserve]
        cases exit <;> cases stop <;> first | rfl | exact absurd (by simp [hold, taskRequests]) hends
      · exact hmore (ht.ending hold)
    · intro hmem
      refine List.mem_append_left _ (ht.shutdown ?_)
      rcases List.mem_append.mp hmem with hold | hwrite
      · exact shutdown_reuse hold
      · obtain ⟨q, -, heq⟩ := List.mem_map.mp hwrite
        cases heq
    · intro failure hsome
      cases halive.2.symm.trans hsome

theorem fails (ht : Traced c h s) (hs : Serves c h s) {a : ServerSessionAction} {failure : Failure}
    (hfails : s.Fails a failure) : Causes c h failure := by
  cases hfails with
  | refused hphase hopens =>
    have hintake := hs.intake
    rw [hphase] at hintake
    exact (hintake.holds nofun).opens hopens
  | overflow hnested =>
    rw [ServerSession.nested] at hnested
    split at hnested
    · next resp storage rest hstrand =>
      obtain ⟨msg, hmsg, hreply, -⟩ := ht.writes resp storage (hstrand ▸ List.mem_cons_self ..)
      exact ⟨msg, hmsg, resp, hreply, hnested⟩
    · cases hnested
  | closeFails hcloses =>
    rw [ServerSession.closes] at hcloses
    split at hcloses
    · next rest hstrand => exact ht.shutdown (hstrand ▸ List.mem_cons_self ..)
    · cases hcloses
  | strand hwrong =>
    rw [ServerSession.wrong] at hwrong
    split at hwrong
    · next resp rest hstrand =>
      cases hwrong
      have hfront : .write resp .freed ∈ s.strand := hstrand ▸ List.mem_cons_self ..
      obtain ⟨msg, hmsg, -, hlends⟩ := ht.writes resp .freed hfront
      exact ⟨⟨msg, hmsg, hlends nofun⟩, ht.freed resp hfront⟩
    · next r rest hstrand =>
      split_ifs at hwrong
      cases hwrong
      exact ht.requests r (hstrand ▸ List.mem_cons_self ..)
    · cases hwrong

theorem runPosted (ht : Traced c h s) (halive : s.Alive) {p : Posted} {rest : List Posted}
    (hstrand : s.strand = p :: rest) :
    Traced c (h ++ (ServerSession.runPosted { s with strand := rest } p).2)
      (ServerSession.runPosted { s with strand := rest } p).1 := by
  have hsub : ∀ q ∈ rest, q ∈ s.strand := by
    intro q hq
    rw [hstrand]
    exact List.mem_cons_of_mem _ hq
  have hkept : ∀ {t : ServerSession} {es : List ServerSessionEvent}, t.strand = rest →
      t.ending = s.ending → t.failure = s.failure → Traced c (h ++ es) t := by
    intro t es hrest hending hfailure
    refine ht.extend ?_ ?_ ?_ ?_ (hfailure.trans halive.2)
    · intro resp storage hq
      exact hsub _ (hrest ▸ hq)
    · intro r hq
      exact .inl (hsub _ (hrest ▸ hq))
    · rw [hending]
      exact id
    · intro hq
      exact .inl (hsub _ (hrest ▸ hq))
  cases p with
  | write resp storage => exact hkept rfl rfl rfl
  | request r =>
    cases r with
    | close =>
      refine ht.extend (fun _ _ hq => hsub _ ?_) (fun _ hq => .inl (hsub _ ?_)) id (fun _ => .inr ?_)
        halive.2
      · simpa [ServerSession.runPosted, ServerSession.close] using hq
      · simpa [ServerSession.runPosted, ServerSession.close] using hq
      · exact List.mem_singleton_self _
    | closeSessions =>
      unfold ServerSession.runPosted ServerSession.closeSessions
      dsimp only
      split_ifs <;> exact hkept rfl rfl rfl
  | shutdown | leave => exact hkept rfl rfl rfl

theorem close (ht : Traced c h s) (hfailure : s.failure = none) :
    Traced c (h ++ [.closed]) s.close := by
  refine ht.extend (fun _ _ hq => ?_) (fun _ hq => .inl ?_) id (fun _ => .inr ?_) hfailure
  · simpa [ServerSession.close] using hq
  · simpa [ServerSession.close] using hq
  · exact List.mem_singleton_self _

theorem step (ht : Traced c h s) (hs : Serves c h s) {a : ServerSessionAction}
    (hstep : s.step c a = some (s', es)) : Traced c (h ++ es) s' := by
  obtain ⟨halive, hact⟩ := sessionStep_of_step hstep
  have hsame : ∀ {t : ServerSession} {fs : List ServerSessionEvent}, t.strand = s.strand →
      t.ending = s.ending → t.failure = s.failure → Traced c (h ++ fs) t := by
    intro t fs hstrand hending hfailure
    refine ht.extend ?_ ?_ ?_ ?_ (hfailure.trans halive.2)
    · intro resp storage hp
      rwa [hstrand] at hp
    · intro r hp
      rw [hstrand] at hp
      exact .inl hp
    · rw [hending]
      exact id
    · rw [hstrand]
      exact .inl
  cases hact with
  | receive hphase =>
    unfold ServerSession.receive
    split_ifs <;> exact hsame rfl rfl rfl
  | next hphase =>
    have hturn := sessionTurn s
    generalize s.next = q at hturn ⊢
    cases hturn <;> exact hsame rfl rfl rfl
  | @fails _ failure hfails =>
    rw [List.append_nil]
    refine ⟨ht.writes, ht.freed, ht.requests, ht.ending, ht.shutdown, ?_⟩
    intro f hf
    cases hf
    exact ht.fails hs hfails
  | lost => exact hsame rfl rfl rfl
  | disconnect =>
    have hended : Traced c h { s with phase := .ended } :=
      ⟨ht.writes, ht.freed, ht.requests, ht.ending, ht.shutdown, ht.failure⟩
    exact hended.close halive.2
  | run hmsg => exact ht.runTask halive
  | @post j r rest hj =>
    refine ht.extend ?_ ?_ ?_ ?_ halive.2
    · intro resp storage hp
      simpa [ServerSession.post] using hp
    · intro q hp
      by_cases hends : s.ending = []
      · rw [hends] at hj
        cases hj
      · exact .inr hends
    · intro _ hends
      rw [hends] at hj
      cases hj
    · intro hp
      left
      simpa [ServerSession.post] using hp
  | reuse thread handler =>
    refine ⟨?_, ?_, ?_, ?_, ?_, ?_⟩
    · intro resp storage hmem
      obtain ⟨before, hbefore, hfrom⟩ := write_reuse hmem
      obtain ⟨m, hm, hreply, hlends⟩ := ht.writes resp before hbefore
      exact ⟨m, by simpa [ranOf] using hm, hreply, fun hne => hlends (hfrom hne)⟩
    · intro resp hmem
      have hthis : touchings c [.reused] = 1 := by
        simp [touchings, ranOf, ServerSessionEvent.isReused]
      rw [touchings_append]
      rcases ht.freed_reuse hmem with htwo | ⟨hone, -⟩ <;> omega
    · intro r hmem
      simpa [ranOf] using ht.requests r (request_reuse hmem)
    · simpa [ranOf, ServerSession.reuse] using ht.ending
    · intro hmem
      exact List.mem_append_left _ (ht.shutdown (shutdown_reuse hmem))
    · intro failure hsome
      cases halive.2.symm.trans hsome
  | closeSessions =>
    unfold ServerSession.closeSessions
    split_ifs <;> exact hsame rfl rfl rfl
  | closeTaken hclosing =>
    have htaken : Traced c h { s with closing := false } :=
      ⟨ht.writes, ht.freed, ht.requests, ht.ending, ht.shutdown, ht.failure⟩
    exact htaken.close halive.2
  | strand hstrand hright => exact ht.runPosted halive hstrand
  | io => exact hsame rfl rfl rfl

theorem of_run (hrun : Run (ServerSession.step c) anyAction {} h s) : Traced c h s := by
  induction hrun with
  | refl => exact .init
  | tail hfront _ hstep ih => exact ih.step (.of_run hfront) hstep

end Traced

/-- The doings of the server itself, as against those of the socket, of the client and of other
sessions. -/
def ServerSessionAction.isOwn : ServerSessionAction → Bool
  | .next | .run _ _ | .post _ | .closeTaken | .strand | .transfer _ | .written => true
  | .receive _ | .refused | .disconnect | .readError | .reuse _ _ | .closeSessions | .overflow
  | .closeFails | .failed => false

/-- The server has nothing left to do for this session. -/
def ServerSession.Resting (c : Config) (s : ServerSession) : Prop :=
  ∀ a, a.isOwn = true → s.step c a = none

theorem Serves.settled {c : Config} {h : List ServerSessionEvent} {s : ServerSession}
    (hs : Serves c h s) (halive : s.Alive) (hopen : s.socketOpen = true)
    (hnext : s.step c .next = none) (hrun : s.step c (.run 0 0) = none)
    (hpost : s.step c .strand = none) (htransfer : s.step c (.transfer 1) = none)
    (hwritten : s.step c .written = none) :
    s.phase ≠ .parsing ∧ s.tasks = [] ∧ s.strand = [] ∧ s.writer.writing = none := by
  rw [ServerSession.step, if_pos halive] at hnext hrun hpost htransfer hwritten
  refine ⟨?_, ?_, ?_, ?_⟩
  · intro hparsing
    rw [ServerSession.act, if_pos hparsing] at hnext
    cases hnext
  · cases htasks : s.tasks with
    | nil => rfl
    | cons msg rest =>
      rw [ServerSession.act, htasks] at hrun
      cases hrun
  · rw [ServerSession.act] at hpost
    split at hpost
    · assumption
    · split at hpost <;> cases hpost
  · rw [ServerSession.act, if_pos hopen, ServerSession.io, Option.map_eq_none_iff] at htransfer
    rw [ServerSession.act, ServerSession.io, Option.map_eq_none_iff] at hwritten
    exact hs.queue.idle htransfer hwritten

/-! ## What a client of the session sees -/

/-- A server that knows one function. -/
def pingConfig : Config :=
  ⟨fun _ => 0, [([0x66], fun _ => { result := .ok (.boolean true) })], false⟩

/-- It is called once, and replies. -/
def servedRun : List ServerSessionAction :=
  [.receive [148, 0, 1, 161, 102, 144], .next, .run 0 0, .strand, .next, .transfer 5, .written]

abbrev served : ServerSession × List ServerSessionEvent :=
  afterAll (ServerSession.step pingConfig) anyAction {} servedRun

theorem served_run : Run (ServerSession.step pingConfig) anyAction {} served.2 served.1 :=
  .of_actions _ _ _ servedRun (by decide +kernel)

/-- However the stream is cut and whichever order the workers end in, the messages served are a
front of those that the stream carries, each is served once, and what is sent is a front of the
replies to the messages served, in the order in which their tasks have ended. -/
theorem session_serves {c : Config} {h : List ServerSessionEvent} {s : ServerSession}
    (hrun : Run (ServerSession.step c) anyAction {} h s) :
    postedOf h <+: (Unpacker.readChunks (receivedChunks h)).1 ∧
      (∃ pending, (ranOf h ++ pending).Perm (postedOf h)) ∧
      sentOfWriter (writerOf h) <+: packedStream ((c.replies (ranOf h)).map Response.toObject) := by
  have hs := Serves.of_run hrun
  refine ⟨hs.intake.front, ⟨s.tasks, hs.tasks⟩, ?_⟩
  rw [← hs.packed]
  exact hs.queue.sent_prefix.trans (List.prefix_append _ _)

theorem session_serves_ping :
    sentOfWriter (writerOf served.2) = [148, 1, 1, 192, 195] ∧
      postedOf served.2 <+: (Unpacker.readChunks (receivedChunks served.2)).1 ∧
      (∃ pending, (ranOf served.2 ++ pending).Perm (postedOf served.2)) ∧
      sentOfWriter (writerOf served.2) <+:
        packedStream ((pingConfig.replies (ranOf served.2)).map Response.toObject) :=
  ⟨by with_unfolding_all rfl, session_serves served_run⟩

/-- A session that reads, has not been closed and has nothing left to do has served every message
of the stream and sent every reply whole. -/
theorem session_serves_all {c : Config} {h : List ServerSessionEvent} {s : ServerSession}
    (hrun : Run (ServerSession.step c) anyAction {} h s) (hrest : s.Resting c)
    (halive : s.Alive) (hphase : s.phase ≠ .ended) (hopen : s.socketOpen = true)
    (hexit : s.writer.exit = false) (hok : .writeFailed ∉ writerOf h) :
    (ranOf h).Perm (Unpacker.readChunks (receivedChunks h)).1 ∧
      sentOfWriter (writerOf h) = packedStream ((c.replies (ranOf h)).map Response.toObject) := by
  have hs := Serves.of_run hrun
  obtain ⟨hparsed, htasks, hstrand, hwriting⟩ := hs.settled halive hopen (hrest .next rfl)
    (hrest (.run 0 0) rfl) (hrest .strand rfl) (hrest (.transfer 1) rfl) (hrest .written rfl)
  have hreading : s.phase = .reading := by
    cases h : s.phase with
    | reading => rfl
    | parsing => exact absurd h hparsed
    | ended => exact absurd h hphase
  have hintake := hs.intake
  rw [hreading] at hintake
  constructor
  · have hperm := hs.tasks
    rw [htasks, List.append_nil] at hperm
    rw [hintake.all]
    exact hperm
  · have hpacked := hs.packed
    rw [hstrand] at hpacked
    rw [hs.queue.sent_all hwriting hexit hok, ← hpacked]
    exact (List.append_nil _).symm

theorem served_rests : served.1.Resting pingConfig := by
  intro a ha
  cases a with
  | next | run | post | closeTaken | strand | transfer | written => with_unfolding_all rfl
  | receive | refused | disconnect | readError | reuse | closeSessions | overflow | closeFails
  | failed => cases ha

theorem session_serves_all_ping :
    sentOfWriter (writerOf served.2) = [148, 1, 1, 192, 195] ∧
      (ranOf served.2).Perm (Unpacker.readChunks (receivedChunks served.2)).1 ∧
      sentOfWriter (writerOf served.2) =
        packedStream ((pingConfig.replies (ranOf served.2)).map Response.toObject) :=
  ⟨by with_unfolding_all rfl, session_serves_all served_run served_rests (by decide +kernel)
    (by decide +kernel) (by decide +kernel) (by decide +kernel) (by decide +kernel)⟩

/-- A session ends the process only by a malformed stream or by a message whose task ends it, and
fails only for a cause. -/
theorem session_ends {c : Config} {h : List ServerSessionEvent} {s : ServerSession}
    (hrun : Run (ServerSession.step c) anyAction {} h s) :
    (s.terminated = true → (Unpacker.readChunks (receivedChunks h)).2 = none ∨
      ∃ msg ∈ (Unpacker.readChunks (receivedChunks h)).1, c.serve msg = .terminated) ∧
      ∀ failure, s.failure = some failure → Causes c h failure := by
  have hs := Serves.of_run hrun
  refine ⟨?_, (Traced.of_run hrun).failure⟩
  intro hterminated
  rcases hs.terminated hterminated with hfail | ⟨msg, hmsg, hserve⟩
  · exact .inl hfail
  · exact .inr ⟨msg, hs.intake.front.subset (hs.mem_posted.mpr (.inr hmsg)), hserve⟩

end PromiseDemo.Rpc
