import BhtBhte.Lib.Counting
import BhtBhte.Settlement.Withdrawals

/-!
# The withdrawal counters

`pendingWithdrawals` and `totalWithdrawals` are kept by three entry points, one of
which hands control out after it has counted down.  `CountersInv` says what they
count; it holds wherever somebody outside the contract has control, so the checked
subtraction of a payout or a challenge never fails.
-/
namespace BhtBhte.Settlement

open BhtBhte.Lib

/-- A recipient has been written. -/
def WithdrawalRequest.Recorded (r : WithdrawalRequest) : Prop := r.recipient ≠ 0

/-- Recorded, and neither paid nor challenged. -/
def WithdrawalRequest.Pending (r : WithdrawalRequest) : Prop :=
  r.recipient ≠ 0 ∧ r.processed = false ∧ r.challenged = false

/-- The counters count the mapping. -/
structure CountersInv (c : State) : Prop where
  pending : CountIs WithdrawalRequest.Pending c.withdrawals c.pendingWithdrawals
  total : CountIs WithdrawalRequest.Recorded c.withdrawals c.totalWithdrawals
  bounded : c.pendingWithdrawals ≤ maxPendingWithdrawals

/-- A pending hash leaves pending with its recipient kept: one down, the total as it
was. -/
theorem CountersInv.settle {c c' : State} {l : Bytes32} {r : WithdrawalRequest}
    (hc : CountersInv c) (hl : (c.withdrawals l).Pending)
    (hupd : c'.withdrawals = Function.update c.withdrawals l r)
    (hr : r.recipient = (c.withdrawals l).recipient) (hdone : ¬ r.Pending)
    (hpend : c'.pendingWithdrawals = c.pendingWithdrawals - 1)
    (htotal : c'.totalWithdrawals = c.totalWithdrawals) : CountersInv c' where
  pending := by
    rw [hupd, hpend]
    exact hc.pending.update_sub hl hdone
  total := by
    rw [hupd, htotal]
    refine hc.total.update_same ?_
    rw [WithdrawalRequest.Recorded, WithdrawalRequest.Recorded, hr]
  bounded := by
    rw [hpend]
    exact (Nat.sub_le _ _).trans hc.bounded

/-- A call that hands no control out keeps the counters right. -/
theorem CountersInv.body {P : Primitives} {msg : Msg} {call : Call} {c c' : State}
    {events : List Event} (hc : CountersInv c) (h : call.body P msg c = .ok (c', events)) :
    CountersInv c' := by
  rcases body_withdrawals h with ⟨hsame, hcount, -⟩ | ⟨l, r, a, ah, hr, habs, -, hupd, hcount, -⟩ |
    ⟨l, reason, hr, hp, hch, hupd, hcount, -⟩
  · constructor
    · rw [hsame, hcount.1]
      exact hc.pending
    · rw [hsame, hcount.2]
      exact hc.total
    · rw [hcount.1]
      exact hc.bounded
  · obtain ⟨hroom, hpend, htotal⟩ := hcount
    constructor
    · rw [hupd, hpend]
      exact hc.pending.update_add (fun hold => hold.1 habs) ⟨hr, rfl, rfl⟩
    · rw [hupd, htotal]
      exact hc.total.update_add (fun hold => hold habs) hr
    · rw [hpend]
      exact hroom
  · exact hc.settle ⟨hr, hp, hch⟩ hupd rfl (fun hold => absurd hold.2.2 (by simp)) hcount.1
      hcount.2

/-- When the recipient gets control, its hash has been counted off. -/
theorem CountersInv.payout {msg : Msg} {l : Bytes32} {c c' : State} (hc : CountersInv c)
    (h : processWithdrawalEnter msg l c = .ok c') : CountersInv c' := by
  obtain ⟨hr, hp, hch, -, hupd, hpend, htotal⟩ := processWithdrawalEnter_eq_ok h
  exact hc.settle ⟨hr, hp, hch⟩ hupd rfl (fun hold => absurd hold.2.1 (by simp)) hpend htotal

theorem countersInv_preserved (P : Primitives) (time : ℕ) :
    Preserved (enter P time) fun w => CountersInv w.contract :=
  Preserved.of_calls (fun hw h => hw.body h) (fun hw h => hw.payout h)
    fun hw => ⟨hw.pending, hw.total, hw.bounded⟩

theorem CountersInv.of_visible {P : Primitives} {w : World} (hw : Visible P w) :
    CountersInv w.contract := by
  refine Visible.induction ?_ (countersInv_preserved P) hw
  intro msg bridge sequencer verifier c hc
  simp only [constructor, require_bind_eq_ok, pure_eq_ok] at hc
  obtain ⟨-, -, -, rfl⟩ := hc
  exact ⟨.zero fun l hl => hl.1 rfl, .zero fun l hl => hl rfl, Nat.zero_le _⟩

/-! ## The checked subtractions -/

/-- A payout that passes its checks finds the counter above zero. -/
theorem CountersInv.processWithdrawalEnter_ne_panic {c : State} (hc : CountersInv c) (msg : Msg)
    (l : Bytes32) : processWithdrawalEnter msg l c ≠ .error "Panic(0x11)" := by
  intro h
  simp only [processWithdrawalEnter, require_bind_eq_error, checkedSub_bind_eq_error,
    pure_ne_error, Bool.not_eq_true', and_false, or_false, String.reduceEq, false_or,
    and_true] at h
  obtain ⟨-, -, hr, hp, hch, -, hzero⟩ := h
  have hpos := hc.pending.pos ⟨hr, hp, hch⟩
  omega

/-- So does a challenge. -/
theorem CountersInv.challengeWithdrawal_ne_panic {c : State} (hc : CountersInv c) (msg : Msg)
    (l : Bytes32) (reason : String) (evidence : List UInt8) :
    challengeWithdrawal msg l reason evidence c ≠ .error "Panic(0x11)" := by
  intro h
  simp only [challengeWithdrawal, require_bind_eq_error, checkedSub_bind_eq_error,
    pure_ne_error, Bool.not_eq_true', and_false, or_false, String.reduceEq, false_or,
    and_true] at h
  obtain ⟨-, hr, hp, hch, -, -, hzero⟩ := h
  have hpos := hc.pending.pos ⟨hr, hp, hch⟩
  omega

/-- **The counters are right wherever somebody outside has control**, in the middle of
a payout included: `pendingWithdrawals` is the number of pending hashes and within its
bound, `totalWithdrawals` is the number of recorded ones, and no decrement
underflows. -/
theorem counters_of_visible {P : Primitives} {w : World} (hw : Visible P w) :
    CountIs WithdrawalRequest.Pending w.contract.withdrawals w.contract.pendingWithdrawals ∧
      w.contract.pendingWithdrawals ≤ maxPendingWithdrawals ∧
      CountIs WithdrawalRequest.Recorded w.contract.withdrawals w.contract.totalWithdrawals ∧
      (∀ msg l, processWithdrawalEnter msg l w.contract ≠ .error "Panic(0x11)") ∧
      ∀ msg l reason evidence,
        challengeWithdrawal msg l reason evidence w.contract ≠ .error "Panic(0x11)" := by
  have hc := CountersInv.of_visible hw
  exact ⟨hc.pending, hc.bounded, hc.total, hc.processWithdrawalEnter_ne_panic,
    hc.challengeWithdrawal_ne_panic⟩

/-- Before the payout of `reentrantRun` one hash is pending, after it none; one is
recorded. -/
theorem counters_reentrantRun :
    CountIs WithdrawalRequest.Pending
        (run fixedPrimitives (reentrantRun.take 4) ⟨deployed, []⟩).contract.withdrawals 1 ∧
      CountIs WithdrawalRequest.Pending
        (run fixedPrimitives reentrantRun ⟨deployed, []⟩).contract.withdrawals 0 ∧
      CountIs WithdrawalRequest.Recorded
        (run fixedPrimitives reentrantRun ⟨deployed, []⟩).contract.withdrawals 1 := by
  have hbefore : (run fixedPrimitives (reentrantRun.take 4)
      ⟨deployed, []⟩).contract.pendingWithdrawals = 1 := by decide +kernel
  have hafter : (run fixedPrimitives reentrantRun ⟨deployed, []⟩).contract.pendingWithdrawals = 0 ∧
      (run fixedPrimitives reentrantRun ⟨deployed, []⟩).contract.totalWithdrawals = 1 := by
    decide +kernel
  have hfour := counters_of_visible
    (reachable_run_deployed fixedPrimitives (reentrantRun.take 4)).visible
  have hall := counters_of_visible (reachable_run_deployed fixedPrimitives reentrantRun).visible
  rw [hbefore] at hfour
  rw [hafter.1, hafter.2] at hall
  exact ⟨hfour.1, hall.1, hall.2.2.1⟩

end BhtBhte.Settlement
