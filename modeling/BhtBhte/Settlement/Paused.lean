import BhtBhte.Settlement.Balance
import BhtBhte.Settlement.Fraud
import BhtBhte.Settlement.Refusals

/-!
# A paused contract

While the contract is paused nothing is anchored, initiated, challenged or paid, and the periods of
the pending withdrawals go on.  A pause that lasts until a deadline takes the challenge away, and
the withdrawal is paid as soon as the owner lifts the pause.
-/
namespace BhtBhte.Settlement

open BhtBhte.Lib

/-- The pause is lifted. -/
def Entry.Unpauses (e : Entry) : Prop := ∃ owner, e.item = .event (.contractUnpaused owner)

/-- What a pause keeps; ether may come in. -/
structure Frozen (c c' : State) : Prop where
  paused : c'.paused = true
  idle : c'.entered = false
  withdrawals : c'.withdrawals = c.withdrawals
  pendingWithdrawals : c'.pendingWithdrawals = c.pendingWithdrawals
  totalWithdrawals : c'.totalWithdrawals = c.totalWithdrawals
  latestAnchorHeight : c'.latestAnchorHeight = c.latestAnchorHeight
  anchorApprovals : c'.anchorApprovals = c.anchorApprovals
  balance : c.balance ≤ c'.balance

variable {P : Primitives} {w v : World} {msg : Msg} {call : Call} {c c' c₀ : State}
  {events : List Event} {l : Bytes32}

theorem Frozen.refl (hpaused : c.paused = true) (hidle : c.entered = false) : Frozen c c :=
  ⟨hpaused, hidle, rfl, rfl, rfl, rfl, rfl, le_rfl⟩

/-- A change of what a pause does not keep. -/
theorem Frozen.congr (h : Frozen c₀ c) (hpaused : c'.paused = c.paused)
    (hidle : c'.entered = c.entered) (hwithdrawals : c'.withdrawals = c.withdrawals)
    (hpending : c'.pendingWithdrawals = c.pendingWithdrawals)
    (htotal : c'.totalWithdrawals = c.totalWithdrawals)
    (hlatest : c'.latestAnchorHeight = c.latestAnchorHeight)
    (happrovals : c'.anchorApprovals = c.anchorApprovals) (hbalance : c.balance ≤ c'.balance) :
    Frozen c₀ c' where
  paused := hpaused.trans h.paused
  idle := hidle.trans h.idle
  withdrawals := hwithdrawals.trans h.withdrawals
  pendingWithdrawals := hpending.trans h.pendingWithdrawals
  totalWithdrawals := htotal.trans h.totalWithdrawals
  latestAnchorHeight := hlatest.trans h.latestAnchorHeight
  anchorApprovals := happrovals.trans h.anchorApprovals
  balance := h.balance.trans hbalance

/-! ## One call -/

/-- **A call to a paused contract lifts the pause or leaves it frozen.** -/
theorem Frozen.body (h : Frozen c₀ c) (hbody : call.body P msg c = .ok (c', events)) :
    (∃ owner, .contractUnpaused owner ∈ events) ∨ Frozen c₀ c' := by
  have hpaused : ¬ (!c.paused) = true := by simp [h.paused]
  cases call with
  | unpause =>
      simp only [Call.body, Settlement.unpause, onlyOwner, require_bind_eq_ok, pure_eq_ok,
        Prod.mk.injEq] at hbody
      exact .inl ⟨msg.sender, hbody.2.2 ▸ List.mem_singleton.mpr rfl⟩
  | processWithdrawal l => simp [Call.body] at hbody
  | setAnchorValidator v e =>
      obtain ⟨-, ⟨-, -, rfl⟩ | ⟨-, -, -, rfl⟩ | rfl⟩ := setAnchorValidator_of_ok hbody
      all_goals exact .inr (h.congr rfl rfl rfl rfl rfl rfl rfl le_rfl)
  | batchAddVerifiedMLDSACommitments ms ss ks =>
      obtain ⟨commitments, rfl, -⟩ := batchAddVerifiedMLDSACommitments_of_ok hbody
      exact .inr (h.congr rfl rfl rfl rfl rfl rfl rfl le_rfl)
  | resolveFraudProof bh f =>
      simp only [Call.body, resolveFraudProof, onlyOwner, require_bind_eq_ok, pure_eq_ok,
        Prod.mk.injEq] at hbody
      obtain ⟨-, -, -, rfl, -⟩ := hbody
      cases f
      all_goals exact .inr (h.congr rfl rfl rfl rfl rfl rfl rfl le_rfl)
  | receive value =>
      cases hbody
      exact .inr (h.congr rfl rfl rfl rfl rfl rfl rfl (Nat.le_add_right _ _))
  | pause =>
      simp only [Call.body, Settlement.pause, onlyOwner, require_bind_eq_ok, pure_eq_ok,
        Prod.mk.injEq] at hbody
      obtain ⟨-, rfl, -⟩ := hbody
      exact .inr (h.congr h.paused.symm rfl rfl rfl rfl rfl rfl le_rfl)
  | _ =>
      -- the other entry points want the contract not to be paused, or write what is not kept
      simp only [Call.body, approveAnchor, submitAnchor, initiateWithdrawal, challengeWithdrawal,
        submitFraudProof, updateBridge, updateSequencer, setAnchorThreshold, transferOwnership,
        renounceOwnership, addVerifiedMLDSACommitment, onlyOwner, require_bind_eq_ok, pure_eq_ok,
        Prod.mk.injEq] at hbody
      first
        | exact absurd hbody.1 hpaused
        | exact absurd hbody.2.1 hpaused
        | obtain ⟨-, rfl, -⟩ := hbody
          exact .inr (h.congr rfl rfl rfl rfl rfl rfl rfl le_rfl)
        | obtain ⟨-, -, rfl, -⟩ := hbody
          exact .inr (h.congr rfl rfl rfl rfl rfl rfl rfl le_rfl)
        | obtain ⟨-, -, -, rfl, -⟩ := hbody
          exact .inr (h.congr rfl rfl rfl rfl rfl rfl rfl le_rfl)

/-! ## Every run -/

/-- The trace goes on, and the contract is frozen until the pause is lifted. -/
def Pausing (w v : World) : Prop :=
  ∃ more, v.trace = w.trace ++ more ∧ ((∃ e ∈ more, e.Unpauses) ∨ Frozen w.contract v.contract)

theorem Pausing.emit {c : State} (h : Pausing w v) (time : ℕ) (events : List Event)
    (hstep : Frozen w.contract v.contract →
      (∃ owner, .contractUnpaused owner ∈ events) ∨ Frozen w.contract c) :
    Pausing w (World.emit { v with contract := c } time events) := by
  obtain ⟨more, htrace, hmore⟩ := h
  refine ⟨more ++ events.map fun e => ⟨time, .event e⟩, ?_, ?_⟩
  · rw [World.emit, htrace, List.append_assoc]
  · rcases hmore with ⟨e, hmem, hunpauses⟩ | hfrozen
    · exact .inl ⟨e, List.mem_append_left _ hmem, hunpauses⟩
    · rcases hstep hfrozen with ⟨owner, hmem⟩ | hfrozen'
      · exact .inl ⟨⟨time, .event (.contractUnpaused owner)⟩,
          List.mem_append_right _ (List.mem_map_of_mem hmem), owner, rfl⟩
      · exact .inr hfrozen'

theorem pausing_preserved (P : Primitives) (w : World) (time : ℕ) :
    Preserved (enter P time) (Pausing w) := by
  refine Preserved.of_calls (fun hv hbody => hv.emit _ _ fun hfrozen => hfrozen.body hbody) ?_ ?_
  · intro msg l v c hv henter
    obtain ⟨more, htrace, hmore⟩ := hv
    rcases hmore with ⟨e, hmem, hunpauses⟩ | hfrozen
    · exact ⟨more ++ [_], by rw [htrace, List.append_assoc],
        .inl ⟨e, List.mem_append_left _ hmem, hunpauses⟩⟩
    · -- a paused contract pays nothing
      simp only [processWithdrawalEnter, require_bind_eq_ok, hfrozen.paused] at henter
      exact absurd henter.1 (by simp)
  · intro l v hv
    refine hv.emit _ _ fun hfrozen => .inr ?_
    exact hfrozen.congr rfl hfrozen.idle.symm rfl rfl rfl rfl rfl le_rfl

/-- **A paused contract is frozen until the pause is lifted**, whatever transactions there are. -/
theorem frozen_run (hpaused : w.contract.paused = true) (hidle : w.contract.entered = false)
    (ts : List Transaction) : Pausing w (run P ts w) := by
  have hstart : Pausing w w := ⟨[], (List.append_nil _).symm, .inr (.refl hpaused hidle)⟩
  have hrun : ∀ v, Pausing w v → Pausing w (run P ts v) := by
    induction ts with
    | nil => exact fun v hv => hv
    | cons t ts ih => exact fun v hv => ih _ ((pausing_preserved P w t.time).exec t.action v hv)
  exact hrun w hstart

/-! ## Between transactions -/

mutual
/-- A tree of calls gives the guard back. -/
theorem entered_exec (time : ℕ) : ∀ (a : Action (Address × Call)) (w : World),
    (Action.exec (enter P time) a w).contract.entered = w.contract.entered
  | .call msg during accepts, w => by
    rw [Action.exec]
    cases houtcome : enter P time msg w with
    | revert => rfl
    | done w' =>
        obtain ⟨c, events, hbody, rfl⟩ := enter_eq_done houtcome
        exact (body_entered_balance hbody).1
    | callOut w' resume =>
        obtain ⟨l, c, -, henter, -, rfl⟩ := enter_eq_callOut houtcome
        simp only [processWithdrawalEnter, require_bind_eq_ok, Bool.not_eq_true'] at henter
        dsimp only
        split
        · exact henter.2.1.symm
        · rfl
  | .frame acts reverts, w => by
    rw [Action.exec]
    split
    · rfl
    · exact entered_execAll time acts w

theorem entered_execAll (time : ℕ) : ∀ (as : List (Action (Address × Call))) (w : World),
    (Action.execAll (enter P time) as w).contract.entered = w.contract.entered
  | [], _ => rfl
  | a :: as, w => by rw [Action.execAll, entered_execAll time as, entered_exec time a]
end

theorem entered_run (ts : List Transaction) (w : World) :
    (run P ts w).contract.entered = w.contract.entered := by
  induction ts generalizing w with
  | nil => rfl
  | cons t ts ih => rw [run, ih, entered_exec]

/-- Between transactions nobody is in the contract. -/
theorem Reachable.idle (hw : Reachable P w) : w.contract.entered = false := by
  obtain ⟨msg, bridge, sequencer, verifier, c, ts, hc, rfl⟩ := hw
  rw [entered_run]
  simp only [Settlement.constructor, require_bind_eq_ok, pure_eq_ok] at hc
  obtain ⟨-, -, -, rfl⟩ := hc
  rfl

/-! ## After the pause -/

/-- The owner lifts the pause, and somebody asks for the payout. -/
def liftAndPay (owner sender : Address) (lifted time : ℕ) (l : Bytes32) : List Transaction :=
  [⟨lifted, .call (owner, .unpause) [] true⟩, ⟨time, .call (sender, .processWithdrawal l) [] true⟩]

/-- The contract without its pause. -/
def State.lifted (c : State) : State := { c with paused := false }

theorem exec_unpause (time : ℕ) (w : World) :
    Action.exec (enter P time) (.call (w.contract.owner, .unpause) [] true) w =
      World.emit { w with contract := w.contract.lifted } time
        [.contractUnpaused w.contract.owner] := by
  simp [Action.exec, enter, Call.body, Settlement.unpause, State.lifted, onlyOwner, require, bind,
    Except.bind, pure, Except.pure]

/-- A payout to a recipient who takes it. -/
theorem exec_processWithdrawal (sender : Address) {time : ℕ} (hpaused : v.contract.paused = false)
    (hidle : v.contract.entered = false) (hl : (v.contract.withdrawals l).Pending)
    (hcount : 0 < v.contract.pendingWithdrawals)
    (hfunds : (v.contract.withdrawals l).amount ≤ v.contract.balance)
    (htime : (v.contract.withdrawals l).challengeDeadline ≤ time) :
    (⟨time, .payout l (v.contract.withdrawals l).recipient (v.contract.withdrawals l).amount⟩ :
        Entry) ∈ (Action.exec (enter P time) (.call (sender, .processWithdrawal l) [] true) v).trace ∧
      ((Action.exec (enter P time) (.call (sender, .processWithdrawal l) [] true)
        v).contract.withdrawals l).processed = true := by
  have hpay : ∃ c, processWithdrawalEnter ⟨sender, time⟩ l v.contract = .ok c := by
    simp only [processWithdrawalEnter, require_bind_eq_ok, checkedSub_bind_eq_ok, pure_eq_ok,
      Bool.not_eq_true']
    exact ⟨_, hpaused, hidle, hl.1, hl.2.1, hl.2.2, htime, hcount, hfunds, rfl⟩
  obtain ⟨c, hc⟩ := hpay
  obtain ⟨-, -, -, -, hwithdrawals, -⟩ := processWithdrawalEnter_eq_ok hc
  have hprocessed : (c.withdrawals l).processed = true := by
    rw [hwithdrawals, Function.update_self]
  simp only [Action.exec, enter, hc, if_true, Action.execAll, Option.getD_some, World.emit,
    processWithdrawalExit]
  exact ⟨by simp, hprocessed⟩

/-- The second transaction pays. -/
theorem payout_liftAndPay (sender : Address) (lifted : ℕ) {time : ℕ}
    (hidle : w.contract.entered = false) (hl : (w.contract.withdrawals l).Pending)
    (hcount : 0 < w.contract.pendingWithdrawals)
    (hfunds : (w.contract.withdrawals l).amount ≤ w.contract.balance)
    (htime : (w.contract.withdrawals l).challengeDeadline ≤ time) :
    (⟨time, .payout l (w.contract.withdrawals l).recipient (w.contract.withdrawals l).amount⟩ :
        Entry) ∈ (run P (liftAndPay w.contract.owner sender lifted time l) w).trace ∧
      ((run P (liftAndPay w.contract.owner sender lifted time l) w).contract.withdrawals
        l).processed = true := by
  rw [liftAndPay, run, run, run, exec_unpause]
  exact exec_processWithdrawal sender rfl hidle hl hcount hfunds htime

/-- **A pause takes the challenge away and not the payout.**  While a contract stays paused a pending
withdrawal cannot be challenged, and when the owner lifts the pause after its deadline, whoever asks
gets it paid. -/
theorem paid_after_pause (hw : Reachable P w) (hpaused : w.contract.paused = true)
    (hl : (w.contract.withdrawals l).Pending)
    (hfunds : (w.contract.withdrawals l).amount ≤ w.contract.balance) (ts : List Transaction)
    (hquiet : ∀ e ∈ (run P ts w).trace.drop w.trace.length, ¬ e.Unpauses) :
    (∀ time sender reason evidence, enter P time (sender, .challengeWithdrawal l reason evidence)
        (run P ts w) = .revert) ∧
      ∀ lifted time sender, (w.contract.withdrawals l).challengeDeadline ≤ time →
        (⟨time, .payout l (w.contract.withdrawals l).recipient (w.contract.withdrawals l).amount⟩ :
            Entry) ∈ (run P (ts ++ liftAndPay (run P ts w).contract.owner sender lifted time l)
              w).trace ∧
          ((run P (ts ++ liftAndPay (run P ts w).contract.owner sender lifted time l)
            w).contract.withdrawals l).processed = true := by
  obtain ⟨more, htrace, hmore⟩ := frozen_run (P := P) hpaused hw.idle ts
  rw [htrace, List.drop_left] at hquiet
  have hfrozen := hmore.resolve_left fun ⟨e, hmem, he⟩ => hquiet e hmem he
  have hsame : (run P ts w).contract.withdrawals l = w.contract.withdrawals l := by
    rw [hfrozen.withdrawals]
  have hcount : 0 < (run P ts w).contract.pendingWithdrawals := by
    rw [hfrozen.pendingWithdrawals]
    exact (CountersInv.of_visible hw.visible).pending.pos hl
  constructor
  · intro time sender reason evidence
    have hrevert : ∀ res, challengeWithdrawal ⟨sender, time⟩ l reason evidence
        (run P ts w).contract ≠ .ok res := by
      intro res hok
      simp only [challengeWithdrawal, require_bind_eq_ok, hfrozen.paused] at hok
      exact absurd hok.1 (by simp)
    cases henter : enter P time (sender, .challengeWithdrawal l reason evidence) (run P ts w) with
    | revert => rfl
    | done w' =>
        obtain ⟨c, events, hbody, -⟩ := enter_eq_done henter
        exact absurd hbody (hrevert _)
    | callOut w' resume =>
        obtain ⟨l', c, hcall, -⟩ := enter_eq_callOut henter
        cases hcall
  · intro lifted time sender htime
    rw [run_append, ← hsame]
    exact payout_liftAndPay sender lifted hfrozen.idle (hsame ▸ hl) hcount
      ((hsame ▸ hfunds).trans hfrozen.balance) (hsame ▸ htime)

/-- The withdrawal of `reentrantRun` is pending, and then the owner pauses the contract. -/
def pausedRun : List Transaction :=
  reentrantRun.take 4 ++ [⟨12, .call (0xad, .pause) [] true⟩]

/-- A challenge during the pause, with evidence. -/
def challengeDuringPause : List Transaction :=
  [⟨20, .call (0xcc, .challengeWithdrawal 7 "fraud" [1]) [] true⟩]

/-- The challenge fails, and a week later the withdrawal is paid. -/
theorem paid_after_pause_pausedRun :
    (⟨10 + challengePeriod, .payout 7 0xaa 20⟩ : Entry) ∈ (run fixedPrimitives
      (challengeDuringPause ++ liftAndPay 0xad 0xaa (10 + challengePeriod) (10 + challengePeriod) 7)
      (run fixedPrimitives pausedRun ⟨deployed, []⟩)).trace := by
  have hfacts : (run fixedPrimitives pausedRun ⟨deployed, []⟩).contract.paused = true ∧
      (run fixedPrimitives pausedRun ⟨deployed, []⟩).contract.withdrawals 7 =
        { recipient := 0xaa, amount := 20, l2TxHash := 7, anchorHeight := 1
          challengeDeadline := 10 + challengePeriod } ∧
      (run fixedPrimitives pausedRun ⟨deployed, []⟩).contract.balance = 50 ∧
      (run fixedPrimitives challengeDuringPause
        (run fixedPrimitives pausedRun ⟨deployed, []⟩)).trace.drop
          (run fixedPrimitives pausedRun ⟨deployed, []⟩).trace.length = [] ∧
      (run fixedPrimitives challengeDuringPause
        (run fixedPrimitives pausedRun ⟨deployed, []⟩)).contract.owner = 0xad := by
    decide +kernel
  obtain ⟨hpaused, hrecord, hfunds, hquiet, howner⟩ := hfacts
  have hpaid := (paid_after_pause (reachable_run_deployed fixedPrimitives pausedRun) hpaused
    (l := 7) (by rw [hrecord]; exact ⟨by decide, rfl, rfl⟩) (by rw [hrecord, hfunds]; decide)
    challengeDuringPause (by rw [hquiet]; exact fun e he => absurd he List.not_mem_nil)).2
    (10 + challengePeriod) (10 + challengePeriod) 0xaa (by rw [hrecord])
  rw [hrecord, howner] at hpaid
  exact hpaid.1

end BhtBhte.Settlement
