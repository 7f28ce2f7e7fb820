import BhtBhte.Settlement.Pending

/-!
# Recipients who refuse

A payout whose recipient does not take the ether reverts as a whole, so the withdrawal stays
pending; after its deadline nobody can challenge it, and nothing else takes it off the counter.
At `maxPendingWithdrawals` the contract takes no further withdrawal, so a thousand such
withdrawals close it for good.
-/
namespace BhtBhte.Settlement
open BhtBhte.Lib

/-- The recipients of these withdrawals refuse their ether. -/
def Refused (hashes : Finset Bytes32) (call : Address × Call) (accepts : Bool) : Prop :=
  ∀ l ∈ hashes, call.2 = .processWithdrawal l → accepts = false

/-- The withdrawals are pending and their periods are over by `time`. -/
structure Overdue (hashes : Finset Bytes32) (time : ℕ) (c : State) : Prop where
  pending : ∀ l ∈ hashes, (c.withdrawals l).Pending
  deadline : ∀ l ∈ hashes, (c.withdrawals l).challengeDeadline ≤ time

theorem Overdue.congr {hashes : Finset Bytes32} {time : ℕ} {c c' : State}
    (h : Overdue hashes time c) (hsame : ∀ l ∈ hashes, c'.withdrawals l = c.withdrawals l) :
    Overdue hashes time c' where
  pending l hl := by rw [hsame l hl]; exact h.pending l hl
  deadline l hl := by rw [hsame l hl]; exact h.deadline l hl

/-- A call that hands no control out leaves a recorded withdrawal alone once its period is
over. -/
theorem body_withdrawals_kept {P : Primitives} {msg : Msg} {call : Call} {c c' : State}
    {events : List Event} (h : call.body P msg c = .ok (c', events)) {l : Bytes32}
    (hl : (c.withdrawals l).recipient ≠ 0)
    (htime : (c.withdrawals l).challengeDeadline ≤ msg.timestamp) :
    c'.withdrawals l = c.withdrawals l := by
  cases call with
  | initiateWithdrawal l' r a ah proof i =>
      obtain ⟨⟨-, -, -, -, -, habs, -⟩, hres⟩ := initiateWithdrawal_eq_ok.mp h
      cases hres
      have hne : l ≠ l' := by
        rintro rfl
        exact hl habs
      exact Function.update_of_ne hne _ _
  | challengeWithdrawal l' reason evidence =>
      simp only [Call.body, challengeWithdrawal, require_bind_eq_ok, checkedSub_bind_eq_ok,
        pure_eq_ok, Prod.mk.injEq] at h
      obtain ⟨-, -, -, -, hbefore, -, -, rfl, -⟩ := h
      have hne : l ≠ l' := by
        rintro rfl
        exact absurd hbefore (not_lt.mpr htime)
      exact Function.update_of_ne hne _ _
  | processWithdrawal l' => simp [Call.body] at h
  | batchAddVerifiedMLDSACommitments ms ss ks =>
      obtain ⟨commitments, rfl, -⟩ := batchAddVerifiedMLDSACommitments_of_ok h
      rfl
  | setAnchorValidator v e =>
      obtain ⟨-, ⟨-, -, rfl⟩ | ⟨-, -, -, rfl⟩ | rfl⟩ := setAnchorValidator_of_ok h
      all_goals rfl
  | resolveFraudProof bh f =>
      simp only [Call.body, resolveFraudProof, onlyOwner, require_bind_eq_ok, pure_eq_ok,
        Prod.mk.injEq] at h
      obtain ⟨-, -, -, rfl, -⟩ := h
      cases f <;> rfl
  | _ =>
      -- the remaining entry points write no withdrawal
      simp only [Call.body, approveAnchor, submitAnchor, submitFraudProof, updateBridge,
        updateSequencer, setAnchorThreshold, pause, unpause, transferOwnership,
        renounceOwnership, addVerifiedMLDSACommitment, receive, onlyOwner, require_bind_eq_ok,
        checkedAdd_bind_eq_ok, pure_eq_ok, Prod.mk.injEq] at h
      first
        | obtain ⟨rfl, -⟩ := h; rfl
        | obtain ⟨-, rfl, -⟩ := h; rfl
        | obtain ⟨-, -, rfl, -⟩ := h; rfl
        | obtain ⟨-, -, -, rfl, -⟩ := h; rfl
        | obtain ⟨-, -, -, -, -, -, rfl, -⟩ := h; rfl
        | obtain ⟨-, -, -, -, -, -, -, rfl, -⟩ := h; rfl

section Runs
variable {P : Primitives} {hashes : Finset Bytes32} {start : ℕ}

/-- After the deadlines a transaction in which the recipients refuse keeps them overdue. -/
theorem overdue_preserved {time : ℕ} (htime : start ≤ time) :
    PreservedBy (enter P time) (Refused hashes) fun w => Overdue hashes start w.contract where
  done := by
    intro msg accepts w w' _ hw h
    obtain ⟨c, events, hbody, rfl⟩ := enter_eq_done h
    exact hw.congr fun l hl => body_withdrawals_kept hbody (hw.pending l hl).1
      ((hw.deadline l hl).trans htime)
  callOut := by
    intro msg w w' resume hok hw h
    obtain ⟨l', c, hcall, hpay, rfl, -⟩ := enter_eq_callOut h
    obtain ⟨-, -, -, -, hupd, -⟩ := processWithdrawalEnter_eq_ok hpay
    -- whoever takes the ether is not one of them
    have hout : l' ∉ hashes := fun hmem => absurd (hok l' hmem hcall) (by simp)
    refine hw.congr fun l hl => ?_
    have hne : l ≠ l' := by
      rintro rfl
      exact hout hl
    rw [hupd, Function.update_of_ne hne]
  resume := by
    intro msg w w' resume v v' _ h hv hr
    obtain ⟨l', c, -, -, -, rfl⟩ := enter_eq_callOut h
    cases hr
    exact hv.congr fun _ _ => rfl

/-- **Refused withdrawals stay pending** along every run after their deadlines, whatever else
anybody does in it. -/
theorem refused_run {w : World} (hw : Overdue hashes start w.contract) (ts : List Transaction)
    (hts : ∀ t ∈ ts, start ≤ t.time ∧ t.action.All (Refused hashes)) :
    Overdue hashes start (run P ts w).contract := by
  induction ts generalizing w with
  | nil => exact hw
  | cons t ts ih =>
      obtain ⟨htime, hall⟩ := hts t List.mem_cons_self
      exact ih ((overdue_preserved htime).exec t.action w hall hw)
        fun t' ht' => hts t' (List.mem_cons_of_mem t ht')

/-- A run leads from a visible world to a visible world. -/
theorem Visible.run {w : World} (hw : Visible P w) (ts : List Transaction) :
    Visible P (run P ts w) := by
  have hstep : ∀ time, Preserved (enter P time) (Visible P) := fun time =>
    ⟨fun hw h => .done hw h, fun hw h => .callOut hw h, fun h hv hr => .resume h hv hr⟩
  induction ts generalizing w with
  | nil => exact hw
  | cons t ts ih => exact ih ((hstep t.time).exec t.action w hw)

theorem run_append (P : Primitives) (ts ts' : List Transaction) (w : World) :
    run P (ts ++ ts') w = run P ts' (run P ts w) := by
  induction ts generalizing w with
  | nil => rfl
  | cons t ts ih => exact ih _

/-- **A thousand overdue withdrawals whose recipients refuse close the contract**: along every
run after their deadlines they all stay pending, and no withdrawal is initiated any more. -/
theorem initiateWithdrawal_blocked {w : World} (hw : Visible P w)
    (hover : Overdue hashes start w.contract) (hmany : maxPendingWithdrawals ≤ hashes.card)
    (ts : List Transaction)
    (hts : ∀ t ∈ ts, start ≤ t.time ∧ t.action.All (Refused hashes)) :
    (∀ l ∈ hashes, ((run P ts w).contract.withdrawals l).Pending) ∧
      ∀ time sender l recipient amount anchorHeight merkleProof leafIndex,
        enter P time (sender, .initiateWithdrawal l recipient amount anchorHeight merkleProof
          leafIndex) (run P ts w) = .revert := by
  have hlast := refused_run (P := P) hover ts hts
  have hcounters := CountersInv.of_visible (hw.run ts)
  have hfull : maxPendingWithdrawals ≤ (run P ts w).contract.pendingWithdrawals :=
    hmany.trans (hcounters.pending.card_le hlast.pending)
  refine ⟨hlast.pending, ?_⟩
  intro time sender l recipient amount anchorHeight merkleProof leafIndex
  cases houtcome : enter P time (sender, .initiateWithdrawal l recipient amount anchorHeight
      merkleProof leafIndex) (run P ts w) with
  | revert => rfl
  | done w' =>
      obtain ⟨c, events, hbody, -⟩ := enter_eq_done houtcome
      obtain ⟨⟨-, -, hroom, -⟩, -⟩ := initiateWithdrawal_eq_ok.mp hbody
      exact absurd hroom (not_lt.mpr hfull)
  | callOut w' resume =>
      obtain ⟨l', c, hcall, -⟩ := enter_eq_callOut houtcome
      cases hcall

end Runs

/-! ## A thousand withdrawals by one account -/

section Example

/-- Every pair hashes to the anchored root. -/
def rootPrimitives : Primitives where
  keccak256 _ := 7
  ecrecover _ _ _ _ := 0

def request (l : Bytes32) : WithdrawalRequest :=
  { recipient := 0xaa, amount := 1, l2TxHash := l, anchorHeight := 1
    challengeDeadline := 10 + challengePeriod }

/-- `anchored` with withdrawals of the first `n` hashes. -/
def filled (n : ℕ) : State :=
  { anchored rootPrimitives with
    withdrawals := fun l => if l.toNat < n then request l else {}
    pendingWithdrawals := n
    totalWithdrawals := n }

theorem filled_withdrawals (n : ℕ) (l : Bytes32) :
    (filled n).withdrawals l = if l.toNat < n then request l else {} := rfl

def initiationOf (i : ℕ) : Transaction :=
  ⟨10, .call (0xcc, .initiateWithdrawal (BitVec.ofNat 256 i) 0xaa 1 1 [0] 0) [] true⟩

theorem initiateWithdrawal_filled {n : ℕ} (hn : n < maxPendingWithdrawals) :
    initiateWithdrawal rootPrimitives ⟨0xcc, 10⟩ (BitVec.ofNat 256 n) 0xaa 1 1 [0] 0 (filled n) =
      .ok (filled (n + 1),
        [.withdrawalInitiated (BitVec.ofNat 256 n) 0xaa 1 1 (10 + challengePeriod)]) := by
  have hsmall : n < 2 ^ 256 := hn.trans (by decide)
  have hnat : (BitVec.ofNat 256 n).toNat = n := Nat.mod_eq_of_lt hsmall
  rw [initiateWithdrawal_eq_ok]
  refine ⟨⟨rfl, rfl, hn, by decide, by decide, ?_, rfl, rfl, by decide, ?_, ?_⟩, ?_⟩
  · simp [filled_withdrawals, hnat]
  · exact (Nat.succ_le_of_lt hn).trans_lt (by decide)
  · exact (Nat.succ_le_of_lt hn).trans_lt (by decide)
  · have hwithdrawals : Function.update (filled n).withdrawals (BitVec.ofNat 256 n)
        (request (BitVec.ofNat 256 n)) = (filled (n + 1)).withdrawals := by
      funext l
      by_cases hl : l = BitVec.ofNat 256 n
      · subst hl
        rw [Function.update_self, filled_withdrawals, if_pos (by omega)]
      · have hne : l.toNat ≠ n := fun heq => hl (BitVec.eq_of_toNat_eq (heq.trans hnat.symm))
        rw [Function.update_of_ne hl, filled_withdrawals, filled_withdrawals]
        by_cases hlt : l.toNat < n
        · rw [if_pos hlt, if_pos (by omega)]
        · rw [if_neg hlt, if_neg (by omega)]
    exact congrArg (fun f => ({ filled (n + 1) with withdrawals := f }, _)) hwithdrawals

theorem contract_run_initiations {n : ℕ} (hn : n ≤ maxPendingWithdrawals) {w : World}
    (hw : w.contract = filled 0) :
    (run rootPrimitives ((List.range n).map initiationOf) w).contract = filled n := by
  induction n with
  | zero => exact hw
  | succ n ih =>
      rw [List.range_succ, List.map_append, run_append]
      have hok := initiateWithdrawal_filled (Nat.lt_of_succ_le hn)
      rw [← ih (Nat.le_of_succ_le hn)] at hok
      simp only [List.map_cons, List.map_nil, run, initiationOf, Action.exec, enter, Call.body, hok,
        World.emit]

/-- The hashes of `filled`. -/
def filledHashes : Finset Bytes32 := (Finset.range maxPendingWithdrawals).image (BitVec.ofNat 256)

theorem card_filledHashes : filledHashes.card = maxPendingWithdrawals := by
  rw [filledHashes, Finset.card_image_of_injOn, Finset.card_range]
  intro i hi j hj hij
  simp only [Finset.coe_range, Set.mem_Iio, maxPendingWithdrawals] at hi hj
  have hnat := congrArg BitVec.toNat hij
  rw [BitVec.toNat_ofNat, BitVec.toNat_ofNat, Nat.mod_eq_of_lt (hi.trans (by decide)),
    Nat.mod_eq_of_lt (hj.trans (by decide))] at hnat
  exact hnat

theorem overdue_filled :
    Overdue filledHashes (10 + challengePeriod) (filled maxPendingWithdrawals) := by
  have hrequest : ∀ l ∈ filledHashes, (filled maxPendingWithdrawals).withdrawals l = request l := by
    intro l hl
    obtain ⟨i, hi, rfl⟩ := Finset.mem_image.mp hl
    rw [Finset.mem_range] at hi
    have hnat : (BitVec.ofNat 256 i).toNat = i :=
      Nat.mod_eq_of_lt (hi.trans (by decide : maxPendingWithdrawals < 2 ^ 256))
    rw [filled_withdrawals, hnat, if_pos hi]
  constructor
  · intro l hl
    rw [hrequest l hl]
    exact ⟨(by decide : (0xaa : Address) ≠ 0), rfl, rfl⟩
  · intro l hl
    rw [hrequest l hl]
    exact le_rfl

/-- A payout that its recipient refuses. -/
def refusedRun : List Transaction :=
  [⟨10 + challengePeriod, .call (0xcc, .processWithdrawal 5) [] false⟩]

/-- One account without any rights fills the contract; a week later it is closed for good. -/
theorem initiateWithdrawal_blocked_filled :
    ∃ w, Reachable rootPrimitives w ∧
      ∀ time sender l recipient amount anchorHeight merkleProof leafIndex,
        enter rootPrimitives time (sender, .initiateWithdrawal l recipient amount anchorHeight
          merkleProof leafIndex) (run rootPrimitives refusedRun w) = .revert := by
  have hstart : (run rootPrimitives (reentrantRun.take 2) ⟨deployed, []⟩).contract = filled 0 :=
    contract_run_anchor rootPrimitives
  have hfilled := contract_run_initiations le_rfl hstart
  have hreach := reachable_run_deployed rootPrimitives (reentrantRun.take 2 ++
    (List.range maxPendingWithdrawals).map initiationOf)
  rw [run_append] at hreach
  have hrefused : ∀ t ∈ refusedRun, 10 + challengePeriod ≤ t.time ∧
      t.action.All (Refused filledHashes) := by
    simp [refusedRun, Action.All, Action.AllIn, Refused]
  exact ⟨_, hreach, (initiateWithdrawal_blocked hreach.visible (hfilled ▸ overdue_filled)
    card_filledHashes.ge refusedRun hrefused).2⟩

end Example

end BhtBhte.Settlement
