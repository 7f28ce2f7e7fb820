import BhtBhte.Lib.Ghost
import BhtBhte.Settlement.Withdrawals
import Mathlib.Algebra.BigOperators.Group.List.Basic

/-!
# The ether of the contract

What the contract received is what it has and what it paid, also where a recipient calls back while
it is paid and where calls are undone.  The ether that came in is no part of the storage: it is a
ghost beside the run.
-/
namespace BhtBhte.Settlement

open BhtBhte.Lib

/-- The ether that a trace entry pays. -/
def Entry.paid (e : Entry) : ℕ :=
  match e.item with
  | .payout _ _ amount => amount
  | .event _ => 0

def paidOut (trace : List Entry) : ℕ := (trace.map Entry.paid).sum

/-- The ether that a call brings in. -/
def Call.value : Call → ℕ
  | .receive value => value
  | _ => 0

/-- A call adds the ether that came with it. -/
def noteReceived (msg : Address × Call) (_ : World) (received : ℕ) : ℕ := received + msg.2.value

/-- A run beside the sum of what was received. -/
def runFunded (P : Primitives) : List Transaction → World × ℕ → World × ℕ
  | [], p => p
  | t :: ts, p => runFunded P ts (t.action.exec (ghosted (enter P t.time) noteReceived) p)

variable {P : Primitives} {msg : Msg} {call : Call} {c c' : State} {events : List Event} {w : World}

/-- The sum does not touch the run. -/
theorem runFunded_fst (P : Primitives) (ts : List Transaction) (p : World × ℕ) :
    (runFunded P ts p).1 = run P ts p.1 := by
  induction ts generalizing p with
  | nil => rfl
  | cons t ts ih => rw [runFunded, ih, exec_ghosted, run]

@[simp] theorem paidOut_append (s t : List Entry) : paidOut (s ++ t) = paidOut s + paidOut t := by
  simp [paidOut]

@[simp] theorem paidOut_emit (w : World) (time : ℕ) (events : List Event) :
    paidOut (w.emit time events).trace = paidOut w.trace := by
  have hnone : paidOut (events.map fun e => ⟨time, .event e⟩) = 0 := by
    induction events with
    | nil => rfl
    | cons e es ih => simpa [paidOut, Entry.paid] using ih
  rw [World.emit, paidOut_append, hnone, Nat.add_zero]

/-- A call that hands no control out leaves the guard alone and keeps the ether it brings. -/
theorem body_entered_balance (h : call.body P msg c = .ok (c', events)) :
    c'.entered = c.entered ∧ c'.balance = c.balance + call.value := by
  cases call with
  | receive value =>
      cases h
      exact ⟨rfl, rfl⟩
  | processWithdrawal l => simp [Call.body] at h
  | initiateWithdrawal l r a ah proof i =>
      obtain ⟨-, hres⟩ := initiateWithdrawal_eq_ok.mp h
      cases hres
      exact ⟨rfl, rfl⟩
  | setAnchorValidator v e =>
      obtain ⟨-, ⟨-, -, rfl⟩ | ⟨-, -, -, rfl⟩ | rfl⟩ := setAnchorValidator_of_ok h
      all_goals exact ⟨rfl, rfl⟩
  | batchAddVerifiedMLDSACommitments ms ss ks =>
      obtain ⟨commitments, rfl, -⟩ := batchAddVerifiedMLDSACommitments_of_ok h
      exact ⟨rfl, rfl⟩
  | resolveFraudProof bh f =>
      simp only [Call.body, resolveFraudProof, onlyOwner, require_bind_eq_ok, pure_eq_ok,
        Prod.mk.injEq] at h
      obtain ⟨-, -, -, rfl, -⟩ := h
      cases f <;> exact ⟨rfl, rfl⟩
  | challengeWithdrawal l reason evidence =>
      simp only [Call.body, challengeWithdrawal, require_bind_eq_ok, checkedSub_bind_eq_ok,
        pure_eq_ok, Prod.mk.injEq] at h
      obtain ⟨-, -, -, -, -, -, -, rfl, -⟩ := h
      exact ⟨rfl, rfl⟩
  | _ =>
      -- the other entry points write neither
      simp only [Call.body, approveAnchor, submitAnchor, submitFraudProof, updateBridge,
        updateSequencer, setAnchorThreshold, pause, unpause, transferOwnership, renounceOwnership,
        addVerifiedMLDSACommitment, onlyOwner, require_bind_eq_ok, checkedAdd_bind_eq_ok,
        pure_eq_ok, Prod.mk.injEq] at h
      first
        | obtain ⟨-, rfl, -⟩ := h; exact ⟨rfl, rfl⟩
        | obtain ⟨-, -, rfl, -⟩ := h; exact ⟨rfl, rfl⟩
        | obtain ⟨-, -, -, rfl, -⟩ := h; exact ⟨rfl, rfl⟩
        | obtain ⟨-, -, -, -, -, -, rfl, -⟩ := h; exact ⟨rfl, rfl⟩
        | obtain ⟨-, -, -, -, -, -, -, rfl, -⟩ := h; exact ⟨rfl, rfl⟩

/-! ## Runs -/

/-- The balance and the payouts make up what was received. -/
def Funded (p : World × ℕ) : Prop := p.1.contract.balance + paidOut p.1.trace = p.2

/-- The amount leaves the balance with the payout. -/
theorem processWithdrawalEnter_balance {l : Bytes32}
    (h : processWithdrawalEnter msg l c = .ok c') :
    (c.withdrawals l).amount ≤ c.balance ∧
      c'.balance = c.balance - (c.withdrawals l).amount := by
  simp only [processWithdrawalEnter, require_bind_eq_ok, checkedSub_bind_eq_ok, pure_eq_ok] at h
  obtain ⟨-, -, -, -, -, -, -, hfunds, rfl⟩ := h
  exact ⟨hfunds, rfl⟩

theorem funded_preserved (P : Primitives) (time : ℕ) :
    Preserved (ghosted (enter P time) noteReceived) Funded := by
  refine Preserved.of_ghosted ?_ ?_ ?_
  · intro msg w received w' hw h
    obtain ⟨c, events, hbody, rfl⟩ := enter_eq_done h
    have hbalance := (body_entered_balance hbody).2
    have hsum : w.contract.balance + paidOut w.trace = received := hw
    rw [Funded, paidOut_emit]
    simp only [World.emit, hbalance, noteReceived]
    omega
  · intro msg w received w' resume hw h
    obtain ⟨l, c, hcall, hpay, rfl, -⟩ := enter_eq_callOut h
    obtain ⟨hfunds, hbalance⟩ := processWithdrawalEnter_balance hpay
    have hpaid : paidOut [⟨time, .payout l (w.contract.withdrawals l).recipient
        (w.contract.withdrawals l).amount⟩] = (w.contract.withdrawals l).amount := rfl
    have hsum : w.contract.balance + paidOut w.trace = received := hw
    rw [Funded, paidOut_append, hpaid]
    simp only [hbalance, noteReceived, hcall, Call.value]
    omega
  · intro msg w w' resume v received v' h hv hr
    obtain ⟨l, c, -, -, -, rfl⟩ := enter_eq_callOut h
    cases hr
    rw [Funded, paidOut_emit]
    exact hv

theorem Funded.runFunded (ts : List Transaction) {p : World × ℕ} (hp : Funded p) :
    Funded (runFunded P ts p) := by
  induction ts generalizing p with
  | nil => exact hp
  | cons t ts ih => exact ih ((funded_preserved P t.time).exec t.action p hp)

/-- **No ether is made or lost.**  After every run from a deployment the balance and the payouts
make up what was received. -/
theorem balance_run {bridge sequencer verifier : Address}
    (hc : constructor msg bridge sequencer verifier = .ok c) (ts : List Transaction) :
    (run P ts ⟨c, []⟩).contract.balance + paidOut (run P ts ⟨c, []⟩).trace =
      (runFunded P ts (⟨c, []⟩, 0)).2 := by
  have hstart : Funded (⟨c, []⟩, 0) := by
    simp only [constructor, require_bind_eq_ok, pure_eq_ok] at hc
    obtain ⟨-, -, -, rfl⟩ := hc
    rfl
  have hrun := hstart.runFunded (P := P) ts
  rw [Funded, runFunded_fst] at hrun
  exact hrun

/-- In `reentrantRun` fifty came in and twenty were paid once. -/
theorem balance_run_reentrantRun :
    (run fixedPrimitives reentrantRun ⟨deployed, []⟩).contract.balance +
        paidOut (run fixedPrimitives reentrantRun ⟨deployed, []⟩).trace = 50 := by
  have hreceived : (runFunded fixedPrimitives reentrantRun (⟨deployed, []⟩, 0)).2 = 50 := by
    decide +kernel
  have hdeployed : constructor ⟨0xad, 0⟩ 0xb0 0x5e 0xfe = .ok deployed := rfl
  exact (balance_run hdeployed reentrantRun).trans hreceived

end BhtBhte.Settlement
