import BhtBhte.Network.HtlcRuns
import Mathlib.Algebra.Order.BigOperators.Group.List

/-!
# What the queries of the contracts answer

The map of hash locks has one slot for each lock, so of two contracts with one lock the older is not
found while both are active, and the sum of the locked amounts wraps.  Every other operation keeps
the answers right.  `answersRight_run_iff`: a run answers right throughout exactly when its
creations keep it so.
-/
namespace BhtBhte.Htlc

open BhtBhte.Lib
open BhtBhte.Channel (Hash Address ByteArrayOf)

variable {sha256 : Hash → Hash} {w : World} {m : HTLCManager} {k : ℕ} {h h' : HTLC} {op : Op}

/-! ## What the answers should be -/

/-- Not settled, expired or refunded yet. -/
def HTLC.Active (h : HTLC) : Prop := h.state = .statePending ∨ h.state = .stateOpen

instance (h : HTLC) : Decidable h.Active := inferInstanceAs (Decidable (_ ∨ _))

/-- What a contract locks of a participant's side of a channel. -/
def HTLC.locked (channelID : Hash) (participant : Address) (h : HTLC) : ℕ :=
  if h.Active ∧ h.channelID = channelID ∧ h.sender = participant then h.amount.toNat else 0

/-- The exact sum of what the participant has locked. -/
def HTLCManager.locked (m : HTLCManager) (channelID : Hash) (participant : Address) : ℕ :=
  (m.heap.map (HTLC.locked channelID participant)).sum

/-- The capacity is the exact sum, and every active contract is found by its lock. -/
structure HTLCManager.AnswersRight (m : HTLCManager) : Prop where
  capacity : ∀ channelID participant,
    (getChannelCapacity channelID participant m).toNat = m.locked channelID participant
  found : ∀ (k : ℕ) h, m.heap[k]? = some h → h.Active →
    getHTLCByHashLock h.hashLock m = .ok (some k)

/-! ## The maps -/

/-- The maps lead to all contracts there are: by identifier, and by channel in the order in which
they were made. -/
structure HTLCManager.Indexed (m : HTLCManager) : Prop where
  linked : ∀ (k : ℕ) h, m.heap[k]? = some h → m.htlcs.get? h.htlcID = some k
  byChannel : ∀ channelID,
    m.byChannel channelID = (m.heap.filter (·.channelID = channelID)).map HTLC.htlcID

/-- The terms that the maps are about. -/
structure HTLC.SameTerms (h h' : HTLC) : Prop where
  htlcID : h'.htlcID = h.htlcID
  channelID : h'.channelID = h.channelID
  sender : h'.sender = h.sender
  amount : h'.amount = h.amount
  hashLock : h'.hashLock = h.hashLock
  active : h'.Active → h.Active

theorem HtlcStep.sameTerms {es : List Event} (hstep : HtlcStep sha256 k h es h') :
    h.SameTerms h' := by
  cases hstep with
  | same => exact ⟨rfl, rfl, rfl, rfl, rfl, id⟩
  | opened hstate => exact ⟨rfl, rfl, rfl, rfl, rfl, fun _ => .inl hstate⟩
  | expired hstate => exact ⟨rfl, rfl, rfl, rfl, rfl, fun _ => .inl hstate⟩
  | settled hstate => exact ⟨rfl, rfl, rfl, rfl, rfl, fun _ => .inr hstate⟩
  | refunded hstate => exact ⟨rfl, rfl, rfl, rfl, rfl, fun _ => .inl hstate⟩

theorem HTLC.SameTerms.locked_le (hsame : h.SameTerms h') (channelID : Hash)
    (participant : Address) : h'.locked channelID participant ≤ h.locked channelID participant := by
  unfold HTLC.locked
  rw [hsame.channelID, hsame.sender, hsame.amount]
  by_cases hnow : h'.Active ∧ h.channelID = channelID ∧ h.sender = participant
  · rw [if_pos hnow, if_pos ⟨hsame.active hnow.1, hnow.2⟩]
  · rw [if_neg hnow]
    exact Nat.zero_le _

/-! ## The capacity -/

/-- One round adds what the contract locks, and wraps. -/
theorem toNat_addLocked {channelID : Hash} (hlook : m.lookup h.htlcID = some (k, h))
    (hchannel : h.channelID = channelID) (participant : Address) (acc : UInt64) :
    (m.addLocked participant acc h.htlcID).toNat =
      (acc.toNat + h.locked channelID participant) % 2 ^ 64 := by
  have hlt := acc.toNat_lt
  rw [HTLCManager.addLocked, hlook, HTLC.locked]
  by_cases hboth : h.Active ∧ h.sender = participant
  · have hstate : h.state = .statePending ∨ h.state = .stateOpen := hboth.1
    rw [if_pos ⟨hboth.1, hchannel, hboth.2⟩]
    dsimp only
    rw [if_pos hstate, if_pos hboth.2, UInt64.toNat_add]
  · rw [if_neg fun hall => hboth ⟨hall.1, hall.2.2⟩, Nat.add_zero, Nat.mod_eq_of_lt hlt]
    dsimp only
    split_ifs with hactive hsender
    · exact absurd ⟨hactive, hsender⟩ hboth
    · rfl
    · rfl

/-- The loop over the contracts of the channel adds up what they lock, and wraps. -/
theorem toNat_foldl_addLocked (hm : m.Indexed) (channelID : Hash) (participant : Address) :
    ∀ (l : List HTLC), (∀ h ∈ l, ∃ k : ℕ, m.heap[k]? = some h) → ∀ acc : UInt64,
      (((l.filter (·.channelID = channelID)).map HTLC.htlcID).foldl (m.addLocked participant)
          acc).toNat =
        (acc.toNat + (l.map (HTLC.locked channelID participant)).sum) % 2 ^ 64 := by
  intro l
  induction l with
  | nil =>
      intro _ acc
      have hlt := acc.toNat_lt
      simp only [List.filter_nil, List.map_nil, List.foldl_nil, List.sum_nil]
      omega
  | cons h l ih =>
      intro hall acc
      obtain ⟨k, hk⟩ := hall h List.mem_cons_self
      have hrest := ih fun h' hmem => hall h' (List.mem_cons_of_mem _ hmem)
      have hlook : m.lookup h.htlcID = some (k, h) := lookup_eq_some.mpr ⟨hm.linked k h hk, hk⟩
      rw [List.map_cons, List.sum_cons, List.filter_cons]
      by_cases hchannel : h.channelID = channelID
      · rw [if_pos (decide_eq_true hchannel), List.map_cons, List.foldl_cons, hrest,
          toNat_addLocked hlook hchannel, ← Nat.add_assoc, Nat.mod_add_mod]
      · have hnone : h.locked channelID participant = 0 := if_neg fun hboth => hchannel hboth.2.1
        rw [if_neg (by simpa using hchannel), hrest, hnone, Nat.zero_add]

theorem toNat_getChannelCapacity (hm : m.Indexed) (channelID : Hash) (participant : Address) :
    (getChannelCapacity channelID participant m).toNat =
      m.locked channelID participant % 2 ^ 64 := by
  have hfold := toNat_foldl_addLocked hm channelID participant m.heap
    (fun h hmem => List.mem_iff_getElem?.mp hmem) 0
  rw [getChannelCapacity, hm.byChannel, hfold, HTLCManager.locked]
  exact congrArg (· % 2 ^ 64) (Nat.zero_add _)

theorem capacity_iff (hm : m.Indexed) (channelID : Hash) (participant : Address) :
    (getChannelCapacity channelID participant m).toNat = m.locked channelID participant ↔
      m.locked channelID participant < 2 ^ 64 := by
  rw [toNat_getChannelCapacity hm]
  omega

/-! ## A new contract -/

/-- The contract that a creation makes, unless it is refused. -/
def Op.created : Op → Option HTLC
  | .createHTLC channelID sender receiver amount timeout hashLock fee random clock =>
    if timeout < htlcTimeoutMin ∨ timeout > htlcTimeoutMax then none
    else some
      { htlcID := generateHTLCID random (clock 0), channelID, sender, receiver, amount, hashLock
        fee, timeout := clock 1 + timeout.toNat, createdAt := clock 2 }
  | _ => none

/-- A creation draws an identifier that is not in use. -/
def Op.fresh (m : HTLCManager) (op : Op) : Prop :=
  ∀ h ∈ op.created, m.htlcs.get? h.htlcID = none

/-- No active contract has the lock of a new one, and its amount and what its sender has locked
on the channel fit into 64 bits. -/
def Op.keepsAnswers (m : HTLCManager) (op : Op) : Prop :=
  ∀ h ∈ op.created, (∀ h' ∈ m.heap, h'.Active → h'.hashLock ≠ h.hashLock) ∧
    m.locked h.channelID h.sender + h.amount.toNat < 2 ^ 64

/-- Write a new contract into the maps. -/
def HTLCManager.push (m : HTLCManager) (h : HTLC) : HTLCManager where
  heap := m.heap ++ [h]
  htlcs := m.htlcs.insert h.htlcID m.heap.length
  byChannel := Function.update m.byChannel h.channelID (m.byChannel h.channelID ++ [h.htlcID])
  byHashLock := Function.update m.byHashLock h.hashLock (some h.htlcID)

theorem exec_created (hcreated : op.created = some h) :
    (exec sha256 op w).manager = w.manager.push h ∧ h.Active := by
  cases op with
  | createHTLC channelID sender receiver amount timeout hashLock fee random clock =>
      simp only [Op.created] at hcreated
      split_ifs at hcreated with hrefused
      obtain ⟨hmin, hmax⟩ := not_or.mp hrefused
      cases hcreated
      simp only [exec, Op.apply, createHTLC, if_neg hmin, if_neg hmax]
      exact ⟨rfl, .inl rfl⟩
  | openHTLC => cases hcreated
  | settleHTLC => cases hcreated
  | refundHTLC => cases hcreated
  | expireHTLCs => cases hcreated

theorem HTLCManager.Indexed.push (hm : m.Indexed) (hfresh : m.htlcs.get? h.htlcID = none) :
    (m.push h).Indexed where
  linked := by
    intro k h₁ hk
    rw [HTLCManager.push] at hk ⊢
    by_cases hlt : k < m.heap.length
    · rw [List.getElem?_append_left hlt] at hk
      have hlinked := hm.linked k h₁ hk
      have hne : h₁.htlcID ≠ h.htlcID := by
        intro heq
        rw [heq, hfresh] at hlinked
        cases hlinked
      rw [FinMap.get?_insert_of_ne _ _ hne, hlinked]
    · have hlength := (List.getElem?_eq_some_iff.mp hk).1
      rw [List.length_append, List.length_singleton] at hlength
      obtain rfl : k = m.heap.length := by omega
      rw [List.getElem?_concat_length, Option.some.injEq] at hk
      rw [← hk]
      exact FinMap.get?_insert_self ..
  byChannel := by
    intro channelID
    simp only [HTLCManager.push, List.filter_append, List.map_append]
    by_cases hchannel : h.channelID = channelID
    · subst hchannel
      rw [Function.update_self, hm.byChannel, List.filter_singleton, decide_eq_true rfl]
      rfl
    · rw [Function.update_of_ne (Ne.symm hchannel), hm.byChannel, List.filter_singleton,
        decide_eq_false hchannel]
      exact (List.append_nil _).symm

theorem locked_push (m : HTLCManager) (h : HTLC) (channelID : Hash) (participant : Address) :
    (m.push h).locked channelID participant =
      m.locked channelID participant + h.locked channelID participant := by
  simp [HTLCManager.locked, HTLCManager.push]

/-- The new contract is the one that its lock leads to, and other locks lead where they did. -/
theorem getHTLCByHashLock_push (m : HTLCManager) (h : HTLC) (hashLock : Hash) :
    getHTLCByHashLock hashLock (m.push h) =
      if hashLock = h.hashLock then .ok (some m.heap.length)
      else if m.byHashLock hashLock = some h.htlcID then .ok (some m.heap.length)
      else getHTLCByHashLock hashLock m := by
  unfold getHTLCByHashLock HTLCManager.push
  by_cases hlock : hashLock = h.hashLock
  · simp [hlock]
  · simp only [Function.update_of_ne hlock, if_neg hlock]
    cases hid : m.byHashLock hashLock with
    | none => simp
    | some id =>
        by_cases heq : id = h.htlcID
        · simp [heq]
        · simp [heq, FinMap.get?_insert_of_ne]

/-- **A new contract keeps the answers right** exactly when its lock is free and its amount
fits. -/
theorem answersRight_push_iff (hm : m.Indexed) (hright : m.AnswersRight)
    (hfresh : m.htlcs.get? h.htlcID = none) (hactive : h.Active) :
    (m.push h).AnswersRight ↔ (∀ h' ∈ m.heap, h'.Active → h'.hashLock ≠ h.hashLock) ∧
      m.locked h.channelID h.sender + h.amount.toNat < 2 ^ 64 := by
  have hpushed := hm.push hfresh
  have hown : h.locked h.channelID h.sender = h.amount.toNat := if_pos ⟨hactive, rfl, rfl⟩
  constructor
  · intro hanswers
    refine ⟨?_, ?_⟩
    · intro h' hmem hactive' hlock
      obtain ⟨k, hk⟩ := List.mem_iff_getElem?.mp hmem
      have hlt := (List.getElem?_eq_some_iff.mp hk).1
      have hfound := hanswers.found k h'
        ((List.getElem?_append_left hlt).trans hk) hactive'
      rw [getHTLCByHashLock_push, if_pos hlock] at hfound
      cases hfound
      exact Nat.lt_irrefl _ hlt
    · have hsum := (capacity_iff hpushed _ _).mp (hanswers.capacity h.channelID h.sender)
      rwa [locked_push, hown] at hsum
  · rintro ⟨hfree, hfits⟩
    refine ⟨?_, ?_⟩
    · intro channelID participant
      rw [capacity_iff hpushed, locked_push]
      have hold := (capacity_iff hm channelID participant).mp (hright.capacity _ _)
      by_cases hboth : h.channelID = channelID ∧ h.sender = participant
      · obtain ⟨rfl, rfl⟩ := hboth
        rwa [hown]
      · rw [HTLC.locked, if_neg fun hall => hboth hall.2]
        exact hold
    · intro k h₁ hk hactive₁
      rw [getHTLCByHashLock_push]
      by_cases hlt : k < m.heap.length
      · have hk' : m.heap[k]? = some h₁ := (List.getElem?_append_left hlt).symm.trans hk
        have hfound := hright.found k h₁ hk' hactive₁
        rw [if_neg (hfree h₁ (List.mem_of_getElem? hk') hactive₁), if_neg, hfound]
        -- the slot leads to a contract that is there, so not to the new identifier
        intro hslot
        rw [getHTLCByHashLock, hslot] at hfound
        simp only [hfresh] at hfound
        cases hfound
      · have hlength := (List.getElem?_eq_some_iff.mp hk).1
        rw [HTLCManager.push, List.length_append, List.length_singleton] at hlength
        obtain rfl : k = m.heap.length := by omega
        rw [HTLCManager.push, List.getElem?_concat_length, Option.some.injEq] at hk
        rw [hk, if_pos rfl]

/-! ## The other operations -/

/-- The maps stay, and so do the terms of every contract. -/
structure Quiet (m m' : HTLCManager) : Prop where
  htlcs : m'.htlcs = m.htlcs
  byChannel : m'.byChannel = m.byChannel
  byHashLock : m'.byHashLock = m.byHashLock
  heap : List.Forall₂ HTLC.SameTerms m.heap m'.heap

theorem forall₂_sameTerms (hlength : (exec sha256 op w).manager.heap.length =
    w.manager.heap.length) :
    List.Forall₂ HTLC.SameTerms w.manager.heap (exec sha256 op w).manager.heap := by
  rw [List.forall₂_iff_get]
  refine ⟨hlength.symm, fun k hk hk' => ?_⟩
  obtain ⟨es, h', hget, -, hstep⟩ := @htlcStep_exec sha256 w op k _ (List.getElem?_eq_getElem hk)
  rw [List.getElem?_eq_getElem hk', Option.some.injEq] at hget
  simp only [List.get_eq_getElem, hget]
  exact hstep.sameTerms

/-- An operation that makes no contract is quiet. -/
theorem exec_quiet (hnone : op.created = none) : Quiet w.manager (exec sha256 op w).manager := by
  have houtcome := outcome_exec sha256 op w
  have hsame := @forall₂_sameTerms sha256 w op
  cases op with
  | createHTLC channelID sender receiver amount timeout hashLock fee random clock =>
      simp only [Op.created] at hnone
      split_ifs at hnone with hrefused
      have hw : exec sha256 (.createHTLC channelID sender receiver amount timeout hashLock fee
          random clock) w = w := by
        simp only [exec, Op.apply, createHTLC]
        by_cases hmin : timeout < htlcTimeoutMin
        · rw [if_pos hmin]
        · rw [if_neg hmin, if_pos (hrefused.resolve_left hmin)]
      rw [hw] at hsame ⊢
      exact ⟨rfl, rfl, rfl, hsame rfl⟩
  | openHTLC htlcID preimage clock =>
      generalize exec sha256 (.openHTLC htlcID preimage clock) w = w' at houtcome hsame
      cases houtcome with
      | same => exact ⟨rfl, rfl, rfl, hsame rfl⟩
      | opened => exact ⟨rfl, rfl, rfl, hsame List.length_set⟩
      | lateOpen => exact ⟨rfl, rfl, rfl, hsame List.length_set⟩
  | settleHTLC htlcID =>
      generalize exec sha256 (.settleHTLC htlcID) w = w' at houtcome hsame
      cases houtcome with
      | same => exact ⟨rfl, rfl, rfl, hsame rfl⟩
      | settled => exact ⟨rfl, rfl, rfl, hsame List.length_set⟩
  | refundHTLC htlcID clock =>
      generalize exec sha256 (.refundHTLC htlcID clock) w = w' at houtcome hsame
      cases houtcome with
      | same => exact ⟨rfl, rfl, rfl, hsame rfl⟩
      | refunded => exact ⟨rfl, rfl, rfl, hsame List.length_set⟩
  | expireHTLCs clock =>
      generalize exec sha256 (.expireHTLCs clock) w = w' at houtcome hsame
      cases houtcome with
      | same => exact ⟨rfl, rfl, rfl, hsame rfl⟩
      | expired => exact ⟨rfl, rfl, rfl, hsame (length_expireHTLCs ..)⟩

theorem Quiet.getHTLCByHashLock {m' : HTLCManager} (hquiet : Quiet m m') (hashLock : Hash) :
    getHTLCByHashLock hashLock m' = getHTLCByHashLock hashLock m := by
  rw [Htlc.getHTLCByHashLock, Htlc.getHTLCByHashLock, hquiet.byHashLock, hquiet.htlcs]

/-- What stands on the new heap stood on the old one. -/
theorem Quiet.getElem? {m' : HTLCManager} (hquiet : Quiet m m') (hk : m'.heap[k]? = some h') :
    ∃ h, m.heap[k]? = some h ∧ h.SameTerms h' := by
  obtain ⟨hlength, hget⟩ := List.forall₂_iff_get.mp hquiet.heap
  obtain ⟨hlt', hk'⟩ := List.getElem?_eq_some_iff.mp hk
  have hlt : k < m.heap.length := by omega
  refine ⟨m.heap[k], List.getElem?_eq_getElem hlt, ?_⟩
  rw [← hk']
  exact hget k hlt hlt'

theorem map_htlcID_eq {l l' : List HTLC} (hsame : List.Forall₂ HTLC.SameTerms l l')
    (channelID : Hash) : (l'.filter (·.channelID = channelID)).map HTLC.htlcID =
      (l.filter (·.channelID = channelID)).map HTLC.htlcID := by
  induction hsame with
  | nil => rfl
  | cons hterms _ ih =>
      rw [List.filter_cons, List.filter_cons, hterms.channelID]
      split_ifs
      · rw [List.map_cons, List.map_cons, ih, hterms.htlcID]
      · exact ih

theorem Quiet.indexed {m' : HTLCManager} (hquiet : Quiet m m') (hm : m.Indexed) : m'.Indexed where
  linked := by
    intro k h' hk
    obtain ⟨h, hget, hterms⟩ := hquiet.getElem? hk
    rw [hquiet.htlcs, hterms.htlcID]
    exact hm.linked k h hget
  byChannel := by
    intro channelID
    rw [hquiet.byChannel, hm.byChannel, map_htlcID_eq hquiet.heap]

theorem Quiet.locked_le {m' : HTLCManager} (hquiet : Quiet m m') (channelID : Hash)
    (participant : Address) : m'.locked channelID participant ≤ m.locked channelID participant := by
  refine List.Forall₂.sum_le_sum ?_
  rw [List.forall₂_map_left_iff, List.forall₂_map_right_iff]
  exact hquiet.heap.flip.imp fun _ _ hterms => hterms.locked_le channelID participant

theorem Quiet.answersRight {m' : HTLCManager} (hquiet : Quiet m m') (hm : m.Indexed)
    (hright : m.AnswersRight) : m'.AnswersRight where
  capacity := by
    intro channelID participant
    rw [capacity_iff (hquiet.indexed hm)]
    have hold := (capacity_iff hm channelID participant).mp (hright.capacity _ _)
    exact (hquiet.locked_le channelID participant).trans_lt hold
  found := by
    intro k h' hk hactive
    obtain ⟨h, hget, hterms⟩ := hquiet.getElem? hk
    rw [hquiet.getHTLCByHashLock, hterms.hashLock]
    exact hright.found k h hget (hterms.active hactive)

/-! ## Runs -/

theorem indexed_new : newHTLCManager.Indexed where
  linked := by
    intro k h hk
    cases hk
  byChannel _ := rfl

theorem answersRight_new : newHTLCManager.AnswersRight where
  capacity _ _ := rfl
  found := by
    intro k h hk
    cases hk

theorem indexed_exec (hm : w.manager.Indexed) (hfresh : op.fresh w.manager) :
    (exec sha256 op w).manager.Indexed := by
  cases hcreated : op.created with
  | none => exact (exec_quiet hcreated).indexed hm
  | some h =>
      rw [(exec_created hcreated).1]
      exact hm.push (hfresh h hcreated)

theorem answersRight_exec_iff (hm : w.manager.Indexed) (hfresh : op.fresh w.manager)
    (hright : w.manager.AnswersRight) :
    (exec sha256 op w).manager.AnswersRight ↔ op.keepsAnswers w.manager := by
  unfold Op.keepsAnswers
  cases hcreated : op.created with
  | none =>
      refine iff_of_true ((exec_quiet hcreated).answersRight hm hright) ?_
      intro h hmem
      cases hmem
  | some h =>
      obtain ⟨hpush, hactive⟩ := @exec_created sha256 w h op hcreated
      rw [hpush, answersRight_push_iff hm hright (hfresh h hcreated) hactive]
      simp only [Option.mem_some_iff, forall_eq']

/-- **In every run whose creations draw fresh identifiers, use a free lock and lock no more than
fits, both queries answer right in every state; and where the identifiers are fresh, no other run
has right answers throughout.** -/
theorem answersRight_run_iff (sha256 : Hash → Hash) (ops : List Op) :
    (Allowed (exec sha256) (fun w op => op.fresh w.manager ∧ op.keepsAnswers w.manager) ops
        newWorld → ∀ n, (run sha256 (ops.take n) newWorld).manager.AnswersRight) ∧
    (Allowed (exec sha256) (fun w op => op.fresh w.manager) ops newWorld →
      ((∀ n, (run sha256 (ops.take n) newWorld).manager.AnswersRight) ↔
        Allowed (exec sha256) (fun w op => op.keepsAnswers w.manager) ops newWorld)) := by
  have hiff : Allowed (exec sha256) (fun w op => op.fresh w.manager) ops newWorld →
      ((∀ n, (run sha256 (ops.take n) newWorld).manager.AnswersRight) ↔
        Allowed (exec sha256) (fun w op => op.keepsAnswers w.manager) ops newWorld) :=
    forall_take_iff_of (I := fun w : World => w.manager.Indexed)
      (P := fun w : World => w.manager.AnswersRight)
      (fun _ _ hm hfresh => indexed_exec hm hfresh)
      (fun _ _ hm hfresh hright => answersRight_exec_iff hm hfresh hright)
      indexed_new answersRight_new
  refine ⟨fun h => ?_, hiff⟩
  obtain ⟨hfresh, hkeeps⟩ := allowed_and.mp h
  exact (hiff hfresh).mpr hkeeps

/-! ## Two hops of one payment -/

def secondRandom : ByteArrayOf 24 := ⟨List.replicate 24 10, by simp⟩

/-- A second contract on the channel of `lock`. -/
def secondHop (hashLock : Hash) : Op :=
  .createHTLC zeroPreimage someParty someParty 5 htlcTimeoutMin hashLock 0 secondRandom fun _ => 0

def secondHtlc (hashLock : Hash) : HTLC :=
  { lockedHtlc with htlcID := generateHTLCID secondRandom 0, hashLock }

theorem created_lock : lock.created = some lockedHtlc := rfl

theorem created_secondHop (hashLock : Hash) :
    (secondHop hashLock).created = some (secondHtlc hashLock) := rfl

/-- With one lock for both, which are pending, the first is not found by it. -/
theorem not_answersRight_sharedLock :
    ¬ (run id [lock, secondHop zeroPreimage] newWorld).manager.AnswersRight := by
  have hfirst := (@exec_created id newWorld _ _ created_lock).1
  have hsecond := (@exec_created id (exec id lock newWorld) _ _ (created_secondHop zeroPreimage)).1
  rw [hfirst] at hsecond
  intro hright
  rw [run, List.foldl_cons, List.foldl_cons, List.foldl_nil, hsecond] at hright
  have hsame : lockedHtlc.hashLock = (secondHtlc zeroPreimage).hashLock := rfl
  have hfound := hright.found 0 lockedHtlc rfl (.inl rfl)
  rw [getHTLCByHashLock_push, if_pos hsame] at hfound
  cases hfound

/-- A lock of its own. -/
def otherLock : Hash := ⟨List.replicate 32 7, by simp⟩

/-- With a lock for each of them both are found. -/
theorem answersRight_ownLocks :
    (run id [lock, secondHop otherLock] newWorld).manager.AnswersRight := by
  have hfirst := (@exec_created id newWorld _ _ created_lock).1
  have hnew : lock.fresh newWorld.manager ∧ lock.keepsAnswers newWorld.manager := by
    refine ⟨fun h _ => rfl, fun h hh => ?_⟩
    rw [created_lock] at hh
    cases hh
    refine ⟨fun h' hmem => ?_, by decide⟩
    cases hmem
  have hsecond : (secondHop otherLock).fresh (exec id lock newWorld).manager ∧
      (secondHop otherLock).keepsAnswers (exec id lock newWorld).manager := by
    rw [hfirst]
    constructor
    · intro h hh
      rw [created_secondHop] at hh
      cases hh
      rfl
    · intro h hh
      rw [created_secondHop] at hh
      cases hh
      refine ⟨fun h' hmem _ => ?_, by decide⟩
      obtain rfl := List.mem_singleton.mp hmem
      decide
  exact (answersRight_run_iff id [lock, secondHop otherLock]).1 ⟨hnew, hsecond, trivial⟩ 2

end BhtBhte.Htlc
