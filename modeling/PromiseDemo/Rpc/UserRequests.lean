import PromiseDemo.Rpc.UserThread

/-!
# What a thread asks for

A program that makes few calls, none of them too large, stays within what the numbers and the
format can carry, whatever the results that it gets.
-/

namespace PromiseDemo.Rpc

open Transition MsgPack Duplex FutureProgram

def UserThread.Asks {ω : Type} (permitted : UserCall → Prop) (cost : UserCall → ℕ) (n : ℕ) :
    UserThread ω → Prop
  | .running t => t.Asks permitted cost n
  | .posting c rest => permitted c ∧ ∀ p, (rest p).Asks permitted cost n
  | .polling _ _ rest => ∀ i, (rest i).Asks permitted cost n
  | .refused => True

/-- The calls that have been posted. -/
def callsOf (h : List ClientEvent) : List UserCall :=
  h.filterMap fun e => match e with
    | .issued _ _ funcName args => some (funcName, args)
    | _ => none

@[simp] theorem callsOf_append (h k : List ClientEvent) :
    callsOf (h ++ k) = callsOf h ++ callsOf k := List.filterMap_append

theorem callsOf_length (h : List ClientEvent) : (callsOf h).length = (issuedOf h).length := by
  induction h with
  | nil => rfl
  | cons e h ih =>
    cases e with
    | issued p idx funcName args => exact congrArg Nat.succ ih
    | _ => exact ih

/-- All calls so far are permitted, and with those to come they cost at most `n`. -/
structure Asking {ω : Type} (permitted : UserCall → Prop) (cost : UserCall → ℕ) (n : ℕ)
    (h : List ConversationEvent) (s : UserSystem ω) : Prop where
  asks : ∃ m, ((callsOf (lefts h) ++ s.thread.pending).map cost).sum + m ≤ n ∧
    s.thread.Asks permitted cost m
  issued : ∀ p idx funcName args, .issued p idx funcName args ∈ lefts h → permitted (funcName, args)
  notified : ∀ funcName args, .notified funcName args ∉ lefts h
  numbered : s.conversation.left.numbered.map (fun n => (n.funcName, n.args)) = s.thread.pending

namespace Asking

variable {ω : Type} {permitted : UserCall → Prop} {cost : UserCall → ℕ} {n : ℕ}
  {h es : List ConversationEvent} {s s' : UserSystem ω}

theorem quiet (ha : Asking permitted cost n h s) (hes : ∀ e ∈ lefts es, e.byUser = false)
    (hasks : ∀ m, s.thread.Asks permitted cost m → s'.thread.Asks permitted cost m)
    (hnumbered : s'.conversation.left.numbered = s.conversation.left.numbered)
    (hpending : s'.thread.pending = s.thread.pending) : Asking permitted cost n (h ++ es) s' := by
  have hcalls : callsOf (lefts es) = [] := by
    rw [callsOf, List.filterMap_eq_nil_iff]
    intro e he
    cases e with
    | issued p idx funcName args => cases hes _ he
    | _ => rfl
  refine ⟨?_, ?_, ?_, ?_⟩
  · obtain ⟨m, hle, hm⟩ := ha.asks
    rw [lefts_append, callsOf_append, hcalls, List.append_nil, hpending]
    exact ⟨m, hle, hasks m hm⟩
  · intro p idx funcName args hmem
    rw [lefts_append] at hmem
    rcases List.mem_append.mp hmem with hold | hnew
    · exact ha.issued p idx funcName args hold
    · cases hes _ hnew
  · intro funcName args hmem
    rw [lefts_append] at hmem
    rcases List.mem_append.mp hmem with hold | hnew
    · exact ha.notified funcName args hold
    · cases hes _ hnew
  · rw [hnumbered, hpending]
    exact ha.numbered

theorem call (ha : Asking permitted cost n h s) {cfg : Config} {c : UserCall}
    {rest : ℕ → UserProgram ω} (hthread : s.thread = .running (.call c rest)) {q : Conversation}
    (hstep : Conversation.step cfg s.conversation (.inl (.call c.1 c.2)) = some (q, es)) :
    Asking permitted cost n (h ++ es) { s with conversation := q, thread := .posting c rest } := by
  obtain ⟨m, hle, hasks⟩ := ha.asks
  rw [hthread] at hle hasks
  obtain ⟨hpermitted, hcost, hrest⟩ := hasks
  have hnil := List.map_eq_nil_iff.mp (hthread ▸ ha.numbered)
  obtain ⟨-, idx, hnumbered, rfl⟩ := call_step hstep
  have hcalls : callsOf (lefts (h ++ [.inl (.numbered idx)])) = callsOf (lefts h) := by
    simp [lefts, callsOf]
  refine ⟨⟨m - cost c, ?_, hpermitted, hrest⟩, ?_, ?_, ?_⟩
  · rw [hcalls]
    simp only [UserThread.pending, List.map_append, List.sum_append, List.map_cons, List.map_nil,
      List.sum_cons, List.sum_nil] at hle ⊢
    omega
  · intro p i funcName args hmem
    exact ha.issued p i funcName args (by simpa [lefts] using hmem)
  · intro funcName args hmem
    exact ha.notified funcName args (by simpa [lefts] using hmem)
  · rw [hnumbered, hnil]
    rfl

theorem post (ha : Asking permitted cost n h s) {cfg : Config} {c : UserCall}
    {rest : ℕ → UserProgram ω} (hthread : s.thread = .posting c rest) {q : Conversation}
    (hstep : Conversation.step cfg s.conversation (.inl (.post 0)) = some (q, es)) (p : ℕ) :
    Asking permitted cost n (h ++ es)
      { s with conversation := q, thread := .running (rest p) } := by
  obtain ⟨m, hle, hasks⟩ := ha.asks
  rw [hthread] at hle hasks
  obtain ⟨hpermitted, hrest⟩ := hasks
  obtain ⟨x, hx, rfl⟩ := List.map_eq_singleton_iff.mp (hthread ▸ ha.numbered)
  obtain ⟨-, hnil, rfl⟩ := post_step hx hstep
  refine ⟨⟨m, ?_, hrest p⟩, ?_, ?_, by rw [hnil]; rfl⟩
  · simpa [lefts, callsOf, UserThread.pending] using hle
  · intro q idx funcName args hmem
    rw [lefts_append] at hmem
    rcases List.mem_append.mp hmem with hold | hnew
    · exact ha.issued q idx funcName args hold
    · cases List.mem_singleton.mp hnew
      exact hpermitted
  · intro funcName args hmem
    exact ha.notified funcName args (by simpa [lefts] using hmem)

theorem user (ha : Asking permitted cost n h s) {cfg : Config}
    (hstep : s.user cfg = some (s', es)) : Asking permitted cost n (h ++ es) s' := by
  cases userStep_of_user hstep with
  | print hthread | wait hthread | poll j hthread =>
    exact ha.quiet (List.forall_mem_nil _) (fun m hm => by rwa [hthread] at hm) rfl
      (by rw [hthread]; rfl)
  | refused hthread =>
    exact ha.quiet (List.forall_mem_nil _) (fun m hm => trivial) rfl (by rw [hthread]; rfl)
  | call hthread hq => exact ha.call hthread hq
  | post hthread hq => exact ha.post hthread hq _
  | get hthread | found hthread =>
    refine ha.quiet (List.forall_mem_nil _) (fun m hm => ?_) rfl (by rw [hthread]; rfl)
    rw [hthread] at hm
    exact hm _

theorem other (ha : Asking permitted cost n h s) {cfg : Config} {a : ConversationAction}
    (hstep : s.step cfg (.other a) = some (s', es)) : Asking permitted cost n (h ++ es) s' := by
  rw [UserSystem.step, Option.ite_none_right_eq_some, Option.map_eq_some_iff] at hstep
  obtain ⟨hown, q, hq, heq⟩ := hstep
  cases heq
  obtain ⟨⟨hnumbered, -⟩, hes⟩ := other_step hown hq
  exact ha.quiet hes (fun m hm => hm) hnumbered rfl

theorem of_run {cfg : Config} {t : UserProgram ω} {forthCap backCap : Option ℕ}
    (ht : t.Asks permitted cost n)
    (hrun : Run (UserSystem.step cfg) anyAction (.start forthCap backCap t) h s) :
    Asking permitted cost n h s := by
  induction hrun with
  | refl => exact ⟨⟨n, Nat.le_of_eq (Nat.zero_add n), ht⟩, nofun, nofun, rfl⟩
  | @tail h s s' a es _ _ hstep ih =>
    cases a with
    | other a => exact ih.other hstep
    | user => exact ih.user hstep

end Asking

theorem ofInt_wellFormed {d : ℤ} (hlow : -2 ^ 63 ≤ d) (hhigh : d < 2 ^ 64) :
    (Object.ofInt d).WellFormed := by
  unfold Object.ofInt
  split_ifs with hneg
  · exact .negativeInteger hlow hneg
  · exact .positiveInteger (by omega)

theorem castUnsigned_small {idx : ℤ} (hpos : 0 ≤ idx) (hlt : idx < 2 ^ 31) :
    castUnsigned 4 idx < 2 ^ 64 := by
  have hmod : idx % 256 ^ 4 = idx := Int.emod_eq_of_lt hpos (by omega)
  rw [castUnsigned, hmod]
  omega

theorem reply_wellFormed {id : ℕ} {error result : Object} (hid : id < 2 ^ 64)
    (herror : error.WellFormed) (hresult : result.WellFormed) :
    (Object.array [.positiveInteger 1, .positiveInteger id, error, result]).WellFormed := by
  refine .array (show 4 < 2 ^ 32 by decide) ?_
  simp only [List.forall_mem_cons]
  exact ⟨.positiveInteger (by decide), .positiveInteger hid, herror, hresult,
    List.forall_mem_nil _⟩

/-- The format can carry the call, and the reply to it as well. -/
structure Fits (cfg : Config) (c : UserCall) : Prop where
  name : c.1.length < 2 ^ 32
  count : c.2.length < 2 ^ 32
  args : ∀ o ∈ c.2, o.WellFormed
  reply : ∀ idx r, 0 ≤ idx → idx < 2 ^ 31 → cfg.replyTo (callObject idx c.1 c.2) = some r →
    r.toObject.WellFormed

theorem Fits.request {cfg : Config} {c : UserCall} (hc : Fits cfg c) {idx : ℤ}
    (hlow : -2 ^ 31 ≤ idx) (hhigh : idx < 2 ^ 31) : (callObject idx c.1 c.2).WellFormed := by
  refine .array (show 4 < 2 ^ 32 by decide) ?_
  simp only [List.forall_mem_cons]
  exact ⟨.positiveInteger (by decide), ofInt_wellFormed (by omega) (by omega), .str hc.name,
    .array hc.count hc.args, List.forall_mem_nil _⟩

theorem requestObjects_cases {h : List ClientEvent} {o : Object} (ho : o ∈ requestObjects h) :
    (∃ q idx funcName args, .issued q idx funcName args ∈ h ∧ o = callObject idx funcName args) ∨
      ∃ funcName args, .notified funcName args ∈ h ∧ o = notificationObject funcName args := by
  obtain ⟨e, he, heq⟩ := List.mem_filterMap.mp ho
  cases e with
  | issued q idx funcName args =>
    cases heq
    exact .inl ⟨q, idx, funcName, args, he, rfl⟩
  | notified funcName args =>
    cases heq
    exact .inr ⟨funcName, args, he, rfl⟩
  | _ => cases heq

/-- A program that makes few calls, all of which fit, is moderate in every run. -/
theorem Asking.moderate {ω : Type} {cfg : Config} {permitted : UserCall → Prop} {n : ℕ}
    {h : List ConversationEvent} {s : UserSystem ω} (ha : Asking permitted (fun _ => 1) n h s)
    (hfits : ∀ c, permitted c → Fits cfg c) (hn : n < 2 ^ 31)
    (hc : Conversing cfg h s.conversation) : Moderate cfg (lefts h) := by
  have hfew : (numbersOf (lefts h)).length < 2 ^ 31 := by
    obtain ⟨m, hle, -⟩ := ha.asks
    have hnumbers := hc.numbering.posted.length_eq
    have hpending := congrArg List.length ha.numbered
    rw [List.length_append, List.length_map] at hnumbers
    rw [List.length_map] at hpending
    rw [List.map_const', List.sum_replicate_nat, Nat.mul_one, List.length_append,
      callsOf_length] at hle
    omega
  have hcall : ∀ o ∈ requestObjects (lefts h), ∃ idx c, 0 ≤ idx ∧ idx < 2 ^ 31 ∧ Fits cfg c ∧
      o = callObject idx c.1 c.2 := by
    intro o ho
    rcases requestObjects_cases ho with ⟨i, idx, funcName, args, hmem, rfl⟩ |
      ⟨funcName, args, hmem, rfl⟩
    · have hidx := (issued_mem hmem).1
      exact ⟨idx, (funcName, args), hc.numbering.issued_pos hfew hidx,
        (hc.numbering.issued_range hidx).2, hfits _ (ha.issued i idx funcName args hmem), rfl⟩
    · exact absurd hmem (ha.notified funcName args)
  refine ⟨hfew, ?_, ?_⟩
  · intro o ho
    obtain ⟨idx, c, hpos, hlt, hfits, rfl⟩ := hcall o ho
    exact hfits.request (by omega) hlt
  · intro o ho r hr
    obtain ⟨idx, c, hpos, hlt, hfits, rfl⟩ := hcall o ho
    exact hfits.reply idx r hpos hlt hr

end PromiseDemo.Rpc
