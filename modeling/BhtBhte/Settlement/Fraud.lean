import BhtBhte.Settlement.Anchors
import BhtBhte.Settlement.Pending

/-!
# Fraud proofs

A verdict of fraud takes the anchor out of use for new withdrawals, and what was
initiated against it before is paid all the same: `processWithdrawal` does not look at
the anchor again.  A height holds one fraud proof, and `submitFraudProof` writes it
without looking at what is there, so any later submission against a verified anchor
replaces a proof that waits for its verdict, or a verdict of no fraud.

Both are statements about what comes after a call.  `After` is the order of worlds along
a run, at any depth of nested calls.
-/
namespace BhtBhte.Settlement

open BhtBhte.Lib

/-! ## What comes after -/

/-- The worlds that follow `w₀` by calls that each meet `C` where they are made.  Frames
opened before `w₀` may be resumed. -/
inductive After (P : Primitives) (C : Address × Call → World → Prop) (w₀ : World) : World → Prop
  | refl : After P C w₀ w₀
  | done {time call w w'} (hw : After P C w₀ w) (hc : C call w)
      (h : enter P time call w = .done w') : After P C w₀ w'
  | callOut {time call w w' resume} (hw : After P C w₀ w) (hc : C call w)
      (h : enter P time call w = .callOut w' resume) : After P C w₀ w'
  | resume {time call w w' resume v v'} (h : enter P time call w = .callOut w' resume)
      (hv : After P C w₀ v) (hr : resume v = some v') : After P C w₀ v'

/-- Every call is allowed. -/
def anyCall : Address × Call → World → Prop := fun _ _ => True

/-- A run leads to a world that comes after its first. -/
theorem after_run (P : Primitives) (ts : List Transaction) (w : World) :
    After P anyCall w (run P ts w) := by
  have hstep : ∀ time, Preserved (enter P time) (After P anyCall w) := fun time =>
    ⟨fun hw h => .done hw trivial h, fun hw h => .callOut hw trivial h,
      fun h hv hr => .resume h hv hr⟩
  have hrun : ∀ (ts : List Transaction) (v : World), After P anyCall w v →
      After P anyCall w (run P ts v) := by
    intro ts
    induction ts with
    | nil => intro v hv; exact hv
    | cons t ts ih => intro v hv; exact ih _ ((hstep t.time).exec t.action v hv)
  exact hrun ts w .refl

/-! ## Withdrawals against a fraudulent anchor -/

/-- The anchor of a height is out of use for good and nothing is pending against it. -/
structure Retired (h : ℕ) (c : State) : Prop where
  unverified : (c.anchors h).verified = false
  passed : h ≤ c.latestAnchorHeight
  clear : ∀ l, (c.withdrawals l).Pending → (c.withdrawals l).anchorHeight ≠ h

namespace Retired
variable {P : Primitives} {h : ℕ} {c c' : State}

/-- No call brings an old anchor back. -/
theorem anchor_step {msg : Msg} {call : Call} {events : List Event} (hc : Retired h c)
    (hstep : AnchorStep P msg call c c' events) :
    (c'.anchors h).verified = false ∧ h ≤ c'.latestAnchorHeight := by
  cases hstep with
  | other hsame _ =>
      rw [hsame.anchors, hsame.latest]
      exact ⟨hc.unverified, hc.passed⟩
  | submit hlt _ =>
      refine ⟨?_, hc.passed.trans hlt.le⟩
      simp only [Function.update_of_ne (hc.passed.trans_lt hlt).ne]
      exact hc.unverified
  | @resolve h' isFraud _ _ =>
      refine ⟨?_, hc.passed⟩
      cases isFraud with
      | false => exact hc.unverified
      | true =>
          by_cases hh : h = h'
          · subst hh
            simp [resolvedState]
          · simpa [resolvedState, hh] using hc.unverified
  | approve _ _ => exact ⟨hc.unverified, hc.passed⟩
  | submitFraud _ _ => exact ⟨hc.unverified, hc.passed⟩
  | addValidator _ => exact ⟨hc.unverified, hc.passed⟩
  | removeValidator _ _ => exact ⟨hc.unverified, hc.passed⟩
  | setThreshold _ _ => exact ⟨hc.unverified, hc.passed⟩

/-- A write that leaves nothing new pending. -/
theorem clear_update (hc : Retired h c) {l : Bytes32} {r : WithdrawalRequest}
    (hupd : c'.withdrawals = Function.update c.withdrawals l r)
    (hr : r.Pending → r.anchorHeight ≠ h) :
    ∀ l', (c'.withdrawals l').Pending → (c'.withdrawals l').anchorHeight ≠ h := by
  intro l'
  rw [hupd]
  by_cases hl : l' = l
  · subst hl
    rw [Function.update_self]
    exact hr
  · rw [Function.update_of_ne hl]
    exact hc.clear l'

theorem body {msg : Msg} {call : Call} {events : List Event} (hc : Retired h c)
    (hbody : call.body P msg c = .ok (c', events)) : Retired h c' := by
  obtain ⟨hunverified, hpassed⟩ := hc.anchor_step (anchorStep_of_body hbody)
  refine ⟨hunverified, hpassed, ?_⟩
  rcases body_withdrawals hbody with ⟨hsame, -, -⟩ | ⟨l, r, a, ah, -, -, hver, hupd, -, -⟩ |
    ⟨l, reason, -, -, -, hupd, -, -⟩
  · rw [hsame]
    exact hc.clear
  · refine hc.clear_update hupd ?_
    -- a new withdrawal stands on a verified anchor
    rintro - rfl
    rw [hc.unverified] at hver
    cases hver
  · exact hc.clear_update hupd fun hpend => absurd hpend.2.2 (by simp)

theorem payout {msg : Msg} {l : Bytes32} (hc : Retired h c)
    (henter : processWithdrawalEnter msg l c = .ok c') : Retired h c' := by
  have hsame := sameAnchoring_processWithdrawalEnter henter
  obtain ⟨-, -, -, -, hupd, -⟩ := processWithdrawalEnter_eq_ok henter
  refine ⟨?_, ?_, hc.clear_update hupd fun hpend => absurd hpend.2.1 (by simp)⟩
  · rw [hsame.anchors]
    exact hc.unverified
  · rw [hsame.latest]
    exact hc.passed

/-- It lasts. -/
theorem after {C : Address × Call → World → Prop} {w₀ w : World} (hw₀ : Retired h w₀.contract)
    (hafter : After P C w₀ w) : Retired h w.contract := by
  induction hafter with
  | refl => exact hw₀
  | done _ _ henter ih =>
      obtain ⟨c, events, hbody, rfl⟩ := enter_eq_done henter
      exact ih.body hbody
  | callOut _ _ henter ih =>
      obtain ⟨l, c, -, hpay, rfl, -⟩ := enter_eq_callOut henter
      exact ih.payout hpay
  | resume henter _ hr ih =>
      obtain ⟨l, c, -, -, -, rfl⟩ := enter_eq_callOut henter
      cases hr
      exact ⟨ih.unverified, ih.passed, ih.clear⟩

end Retired

/-- A fraud proof stands at a height that has been anchored. -/
theorem fraudProof_passed {P : Primitives} {w : World} (hw : Visible P w) :
    ∀ h, (w.contract.fraudProofs h).challenger ≠ 0 → h ≤ w.contract.latestAnchorHeight := by
  have hverified : ∀ {w : World}, SubmissionsInv w → ∀ h, (w.contract.anchors h).verified = true →
      h ≤ w.contract.latestAnchorHeight := by
    intro w hs h hver
    by_cases hmem : h ∈ (acceptedAnchors w.trace).map AnchorRecord.blockHeight
    · obtain ⟨a, ha, rfl⟩ := List.mem_map.mp hmem
      exact hs.below_latest a ha
    · rw [hs.unwritten h hmem] at hver
      cases hver
  have hstep : ∀ time, Preserved (enter P time) fun w => SubmissionsInv w ∧
      ∀ h, (w.contract.fraudProofs h).challenger ≠ 0 → h ≤ w.contract.latestAnchorHeight := by
    refine Preserved.of_anchorStep ?_ ?_
    · rintro msg call w c events ⟨hs, hf⟩ hstep
      refine ⟨hs.step hstep, ?_⟩
      cases hstep with
      | other hsame _ =>
          simp only [World.emit, hsame.fraudProofs, hsame.latest]
          exact hf
      | submit hlt _ => exact fun h hh => (hf h hh).trans hlt.le
      | @submitFraud h' i v proof _ hver =>
          intro h hh
          by_cases heq : h = h'
          · subst heq
            exact hverified hs h hver
          · simp only [World.emit, Function.update_of_ne heq] at hh
            exact hf h hh
      | @resolve h' isFraud hfound _ =>
          intro h hh
          by_cases heq : h = h'
          · subst heq
            exact hf h hfound
          · simp only [World.emit, resolvedState, Function.update_of_ne heq] at hh
            exact hf h hh
      | approve _ _ => exact hf
      | addValidator _ => exact hf
      | removeValidator _ _ => exact hf
      | setThreshold _ _ => exact hf
    · rintro w c time l r a ⟨hs, hf⟩ hsame
      refine ⟨hs.congr hsame.anchors hsame.latest hsame.total (by simp [acceptedAnchors]), ?_⟩
      simp only [hsame.fraudProofs, hsame.latest]
      exact hf
  refine (Visible.induction ?_ hstep hw).2
  intro msg bridge sequencer verifier c hc
  refine ⟨SubmissionsInv.of_visible (.deployed (P := P) hc), ?_⟩
  simp only [constructor, require_bind_eq_ok, pure_eq_ok] at hc
  obtain ⟨-, -, -, rfl⟩ := hc
  intro h hh
  exact absurd rfl hh

/-- A successful verdict is the owner's, on an open proof. -/
theorem enter_resolveFraudProof {P : Primitives} {time h : ℕ} {sender : Address} {isFraud : Bool}
    {w w₀ : World} (hres : enter P time (sender, .resolveFraudProof h isFraud) w = .done w₀) :
    sender = w.contract.owner ∧ (w.contract.fraudProofs h).challenger ≠ 0 ∧
      w₀.contract = resolvedState w.contract h isFraud := by
  obtain ⟨c, events, hbody, rfl⟩ := enter_eq_done hres
  simp only [Call.body, resolveFraudProof, onlyOwner, require_bind_eq_ok, pure_eq_ok,
    Prod.mk.injEq] at hbody
  obtain ⟨howner, hfound, -, rfl, -⟩ := hbody
  refine ⟨howner, hfound, ?_⟩
  cases isFraud <;> rfl

/-- The owner's verdict on an open proof succeeds. -/
theorem enter_resolveFraudProof_done (P : Primitives) (time : ℕ) {h : ℕ} {sender : Address}
    (isFraud : Bool) {w : World} (howner : sender = w.contract.owner)
    (hfound : (w.contract.fraudProofs h).challenger ≠ 0)
    (hopen : (w.contract.fraudProofs h).resolved = false) :
    ∃ w₀, enter P time (sender, .resolveFraudProof h isFraud) w = .done w₀ ∧
      w₀.contract = resolvedState w.contract h isFraud := by
  have hok : ∃ res, resolveFraudProof ⟨sender, time⟩ h isFraud w.contract = .ok res := by
    simp only [resolveFraudProof, onlyOwner, require_bind_eq_ok, pure_eq_ok, Bool.not_eq_true']
    exact ⟨_, howner, hfound, hopen, rfl⟩
  obtain ⟨res, hres⟩ := hok
  have henter : enter P time (sender, .resolveFraudProof h isFraud) w =
      .done (World.emit { w with contract := res.1 } time res.2) := by
    simp only [enter, Call.body, hres]
  exact ⟨_, henter, (enter_resolveFraudProof henter).2.2⟩

/-- Nothing else stops the payout of a pending withdrawal. -/
theorem enter_processWithdrawal_ne_revert {P : Primitives} {w : World} {l : Bytes32} {time : ℕ}
    {sender : Address} (hp : (w.contract.withdrawals l).Pending)
    (hpaused : w.contract.paused = false) (hidle : w.contract.entered = false)
    (htime : (w.contract.withdrawals l).challengeDeadline ≤ time)
    (hcount : 0 < w.contract.pendingWithdrawals)
    (hfunds : (w.contract.withdrawals l).amount ≤ w.contract.balance) :
    enter P time (sender, .processWithdrawal l) w ≠ .revert := by
  have hok : ∃ c, processWithdrawalEnter ⟨sender, time⟩ l w.contract = .ok c := by
    simp only [processWithdrawalEnter, require_bind_eq_ok, checkedSub_bind_eq_ok, pure_eq_ok,
      Bool.not_eq_true']
    exact ⟨_, hpaused, hidle, hp.1, hp.2.1, hp.2.2, htime, hcount, hfunds, rfl⟩
  obtain ⟨c, hc⟩ := hok
  simp [enter, hc]

/-- A pending withdrawal is paid as soon as its period is over, the owner lifts a pause
and the contract has the money. -/
theorem payable_of_pending (P : Primitives) (time : ℕ) {w : World} {l : Bytes32}
    (hp : (w.contract.withdrawals l).Pending) (hcount : 0 < w.contract.pendingWithdrawals)
    (hidle : w.contract.entered = false) :
    ∃ w₁, After P anyCall w w₁ ∧ w₁.contract.withdrawals = w.contract.withdrawals ∧
      ∃ time' sender', enter P time' (sender', .processWithdrawal l) w₁ ≠ .revert := by
  have hunpause : enter P time (w.contract.owner, .unpause) w =
      .done (World.emit { w with contract := { w.contract with paused := false } } time
        [.contractUnpaused w.contract.owner]) := by
    simp [enter, Call.body, unpause, onlyOwner, require, bind, Except.bind, pure, Except.pure]
  have hfund : ∀ v : World, enter P time (w.contract.owner, .receive
      (w.contract.withdrawals l).amount) v =
        .done (World.emit { v with contract := { v.contract with
          balance := v.contract.balance + (w.contract.withdrawals l).amount } } time []) := by
    intro v
    simp [enter, Call.body, receive, pure, Except.pure]
  refine ⟨_, .done (.done .refl trivial hunpause) trivial (hfund _), rfl,
    (w.contract.withdrawals l).challengeDeadline, w.contract.owner, ?_⟩
  exact enter_processWithdrawal_ne_revert hp rfl hidle (le_refl _) hcount (Nat.le_add_left _ _)

/-- **After a verdict of fraud no withdrawal against that anchor is paid**, whatever
follows, if none was pending when the verdict came.  If one was, then some continuation
pays it. -/
theorem processWithdrawal_after_fraud {P : Primitives} {w w₀ : World} {time h : ℕ}
    {sender : Address} (hw : Visible P w)
    (hres : enter P time (sender, .resolveFraudProof h true) w = .done w₀) :
    ((∀ l, (w.contract.withdrawals l).Pending → (w.contract.withdrawals l).anchorHeight ≠ h) →
      ∀ w₁, After P anyCall w₀ w₁ → ∀ l, (w₁.contract.withdrawals l).anchorHeight = h →
        ∀ time' sender', enter P time' (sender', .processWithdrawal l) w₁ = .revert) ∧
    (w.contract.entered = false →
      (∀ w₁, After P anyCall w₀ w₁ → ∀ l, (w₁.contract.withdrawals l).anchorHeight = h →
        ∀ time' sender', enter P time' (sender', .processWithdrawal l) w₁ = .revert) →
      ∀ l, (w.contract.withdrawals l).Pending → (w.contract.withdrawals l).anchorHeight ≠ h) := by
  obtain ⟨-, hfound, hstate⟩ := enter_resolveFraudProof hres
  have hsame : w₀.contract.withdrawals = w.contract.withdrawals := by rw [hstate]; rfl
  constructor
  · intro hclear w₁ hafter l hl time' sender'
    have hretired : Retired h w₀.contract := by
      refine ⟨?_, ?_, ?_⟩
      · rw [hstate]
        simp [resolvedState]
      · rw [hstate]
        exact fraudProof_passed hw h hfound
      · rw [hsame]
        exact hclear
    have hlast := hretired.after hafter
    cases houtcome : enter P time' (sender', .processWithdrawal l) w₁ with
    | revert => rfl
    | done w₂ =>
        obtain ⟨c, events, hbody, -⟩ := enter_eq_done houtcome
        cases hbody
    | callOut w₂ resume =>
        obtain ⟨l', c, hcall, henter, -, -⟩ := enter_eq_callOut houtcome
        cases hcall
        obtain ⟨hr, hp, hc, -⟩ := processWithdrawalEnter_eq_ok henter
        exact absurd hl (hlast.clear l ⟨hr, hp, hc⟩)
  · intro hidle hnone l hl hheight
    have hcount : 0 < w₀.contract.pendingWithdrawals := by
      rw [hstate]
      exact (CountersInv.of_visible hw).pending.pos hl
    have hidle₀ : w₀.contract.entered = false := by rw [hstate]; exact hidle
    have hl₀ : (w₀.contract.withdrawals l).Pending := by rw [hsame]; exact hl
    obtain ⟨w₁, hafter, hwith, time', sender', hpaid⟩ :=
      payable_of_pending P time hl₀ hcount hidle₀
    exact hpaid (hnone w₁ hafter l (by rw [hwith, hsame]; exact hheight) time' sender')

/-- The withdrawal of `reentrantRun` is pending when its anchor is disputed. -/
def disputedRun : List Transaction :=
  reentrantRun.take 4 ++ [⟨20, .call (0xcc, .submitFraudProof 1 7 8 [1]) [] true⟩]

/-- It has been challenged by then. -/
def challengedRun : List Transaction :=
  reentrantRun.take 4 ++
    [ ⟨15, .call (0xcc, .challengeWithdrawal 7 "fraud" [1]) [] true⟩,
      ⟨20, .call (0xcc, .submitFraudProof 1 7 8 [1]) [] true⟩ ]

/-- In `challengedRun` nothing is pending, so the verdict ends the matter. -/
theorem processWithdrawal_after_challengedRun :
    ∃ w₀, enter fixedPrimitives 30 (0xad, .resolveFraudProof 1 true)
        (run fixedPrimitives challengedRun ⟨deployed, []⟩) = .done w₀ ∧
      (w₀.contract.withdrawals 7).anchorHeight = 1 ∧
      ∀ time sender, enter fixedPrimitives time (sender, .processWithdrawal 7) w₀ = .revert := by
  have hw := (reachable_run_deployed fixedPrimitives challengedRun).visible
  have hfacts : 0xad = (run fixedPrimitives challengedRun ⟨deployed, []⟩).contract.owner ∧
      ((run fixedPrimitives challengedRun ⟨deployed, []⟩).contract.fraudProofs 1).challenger ≠ 0 ∧
      ((run fixedPrimitives challengedRun ⟨deployed, []⟩).contract.fraudProofs 1).resolved = false ∧
      (run fixedPrimitives challengedRun ⟨deployed, []⟩).contract.pendingWithdrawals = 0 ∧
      ((run fixedPrimitives challengedRun ⟨deployed, []⟩).contract.withdrawals 7).anchorHeight = 1 := by
    decide +kernel
  obtain ⟨howner, hfound, hopen, hzero, hheight⟩ := hfacts
  obtain ⟨w₀, hres, hstate⟩ := enter_resolveFraudProof_done fixedPrimitives 30 true howner hfound
    hopen
  have hheight₀ : (w₀.contract.withdrawals 7).anchorHeight = 1 := by rw [hstate]; exact hheight
  refine ⟨w₀, hres, hheight₀, ?_⟩
  refine (processWithdrawal_after_fraud hw hres).1 ?_ w₀ .refl 7 hheight₀
  intro l hl
  have hpos := (CountersInv.of_visible hw).pending.pos hl
  omega

/-- In `disputedRun` the verdict comes first and the payout succeeds. -/
theorem processWithdrawal_despite_fraud :
    ∃ w w₀, Reachable fixedPrimitives w ∧
      enter fixedPrimitives 30 (0xad, .resolveFraudProof 1 true) w = .done w₀ ∧
      (w₀.contract.withdrawals 7).anchorHeight = 1 ∧
      enter fixedPrimitives (10 + challengePeriod) (0xaa, .processWithdrawal 7) w₀ ≠ .revert := by
  have hfacts : 0xad = (run fixedPrimitives disputedRun ⟨deployed, []⟩).contract.owner ∧
      ((run fixedPrimitives disputedRun ⟨deployed, []⟩).contract.fraudProofs 1).challenger ≠ 0 ∧
      ((run fixedPrimitives disputedRun ⟨deployed, []⟩).contract.fraudProofs 1).resolved = false ∧
      (run fixedPrimitives disputedRun ⟨deployed, []⟩).contract.withdrawals 7 =
        { recipient := 0xaa, amount := 20, l2TxHash := 7, anchorHeight := 1
          challengeDeadline := 10 + challengePeriod } ∧
      (run fixedPrimitives disputedRun ⟨deployed, []⟩).contract.paused = false ∧
      (run fixedPrimitives disputedRun ⟨deployed, []⟩).contract.entered = false ∧
      (run fixedPrimitives disputedRun ⟨deployed, []⟩).contract.pendingWithdrawals = 1 ∧
      (run fixedPrimitives disputedRun ⟨deployed, []⟩).contract.balance = 50 := by
    decide +kernel
  obtain ⟨howner, hfound, hopen, hrecord, hpaused, hidle, hcount, hfunds⟩ := hfacts
  obtain ⟨w₀, hres, hstate⟩ := enter_resolveFraudProof_done fixedPrimitives 30 true howner hfound
    hopen
  have hrecord₀ : w₀.contract.withdrawals 7 =
      { recipient := 0xaa, amount := 20, l2TxHash := 7, anchorHeight := 1
        challengeDeadline := 10 + challengePeriod } := by
    rw [hstate]
    exact hrecord
  refine ⟨_, w₀, reachable_run_deployed fixedPrimitives disputedRun, hres, by rw [hrecord₀], ?_⟩
  refine enter_processWithdrawal_ne_revert ?_ ?_ ?_ ?_ ?_ ?_
  · rw [hrecord₀]
    exact ⟨by decide, rfl, rfl⟩
  · rw [hstate]
    exact hpaused
  · rw [hstate]
    exact hidle
  · rw [hrecord₀]
  · rw [hstate]
    exact hcount.symm ▸ Nat.one_pos
  · rw [hrecord₀, hstate]
    exact hfunds.symm ▸ (by decide : 20 ≤ 50)

/-! ## The record of a fraud proof -/

/-- A submission finds no fraud proof at its height. -/
def slotFree (call : Address × Call) (w : World) : Prop :=
  ∀ h invalidStateRoot validStateRoot proof,
    call.2 = .submitFraudProof h invalidStateRoot validStateRoot proof →
      w.contract.fraudProofs h = {}

/-- What has become of the fraud proof of a height since `w₀`: it is as it was, or it was
open and has got its verdict. -/
def ProofKept (w₀ : World) (h : ℕ) (w : World) : Prop :=
  ∃ more, w.trace = w₀.trace ++ more ∧
    (w.contract.fraudProofs h = w₀.contract.fraudProofs h ∨
      (w₀.contract.fraudProofs h).resolved = false ∧
        ∃ isFraud, w.contract.fraudProofs h =
            { w₀.contract.fraudProofs h with resolved := true, isFraud := isFraud } ∧
          ∃ time, ⟨time, .event (.fraudProofResolved h isFraud
            (w₀.contract.fraudProofs h).challenger)⟩ ∈ more)

namespace ProofKept
variable {P : Primitives} {w₀ w : World} {h : ℕ}

/-- The record does not change and the trace grows. -/
theorem congr (hw : ProofKept w₀ h w) {c : State} {more : List Entry}
    (hsame : c.fraudProofs h = w.contract.fraudProofs h) :
    ProofKept w₀ h { contract := c, trace := w.trace ++ more } := by
  obtain ⟨old, htrace, hcase⟩ := hw
  refine ⟨old ++ more, by rw [htrace, List.append_assoc], ?_⟩
  rw [hsame]
  rcases hcase with heq | ⟨hopen, isFraud, heq, time, hmem⟩
  · exact .inl heq
  · exact .inr ⟨hopen, isFraud, heq, time, List.mem_append_left more hmem⟩

/-- A kept record is not empty. -/
theorem ne_empty (hw : ProofKept w₀ h w) (hrec : w₀.contract.fraudProofs h ≠ {}) :
    w.contract.fraudProofs h ≠ {} := by
  obtain ⟨-, -, heq | ⟨-, isFraud, heq, -⟩⟩ := hw
  · rw [heq]
    exact hrec
  · rw [heq]
    intro hempty
    have hresolved := congrArg FraudProof.resolved hempty
    cases hresolved

/-- An open record that gets its verdict. -/
theorem resolve (hw : ProofKept w₀ h w) {time : ℕ} {isFraud : Bool}
    (hopen : (w.contract.fraudProofs h).resolved = false) :
    ProofKept w₀ h (World.emit { w with contract := resolvedState w.contract h isFraud } time
      [.fraudProofResolved h isFraud (w.contract.fraudProofs h).challenger]) := by
  obtain ⟨old, htrace, heq | ⟨-, isFraud', heq, -⟩⟩ := hw
  · refine ⟨old ++ [⟨time, .event (.fraudProofResolved h isFraud
      (w.contract.fraudProofs h).challenger)⟩], by simp [World.emit, htrace], .inr ⟨?_, isFraud, ?_,
        time, ?_⟩⟩
    · rw [← heq]
      exact hopen
    · simp [World.emit, resolvedState, heq]
    · simp [heq]
  · rw [heq] at hopen
    cases hopen

/-- A call keeps it, unless it submits another proof for the height. -/
theorem step {msg : Msg} {call : Call} {c : State} {events : List Event} (hw : ProofKept w₀ h w)
    (hrec : w₀.contract.fraudProofs h ≠ {}) (hfree : slotFree (msg.sender, call) w)
    (hstep : AnchorStep P msg call w.contract c events) :
    ProofKept w₀ h (World.emit { w with contract := c } msg.timestamp events) := by
  cases hstep with
  | other hsame _ => exact hw.congr (congrFun hsame.fraudProofs h)
  | @submitFraud h' i v proof hcall _ =>
      have hne : h ≠ h' := by
        rintro rfl
        exact hw.ne_empty hrec (hfree h i v proof hcall)
      exact hw.congr (Function.update_of_ne hne _ _)
  | @resolve h' isFraud _ hopen =>
      by_cases hh : h = h'
      · subst hh
        exact hw.resolve hopen
      · exact hw.congr (Function.update_of_ne hh _ _)
  | approve _ _ => exact hw.congr rfl
  | submit _ _ => exact hw.congr rfl
  | addValidator _ => exact hw.congr rfl
  | removeValidator _ _ => exact hw.congr rfl
  | setThreshold _ _ => exact hw.congr rfl

end ProofKept

/-- **A fraud proof stays as it was submitted until its verdict, and the verdict stays**,
along every run in which no submission finds a proof at its height. -/
theorem fraudProof_kept {P : Primitives} {w₀ w : World} {h : ℕ}
    (hafter : After P slotFree w₀ w) (hrec : w₀.contract.fraudProofs h ≠ {}) :
    ProofKept w₀ h w := by
  induction hafter with
  | refl => exact ⟨[], by simp, .inl rfl⟩
  | done _ hfree henter ih =>
      obtain ⟨c, events, hbody, rfl⟩ := enter_eq_done henter
      exact ih.step hrec hfree (anchorStep_of_body hbody)
  | callOut _ _ henter ih =>
      obtain ⟨l, c, -, hpay, rfl, -⟩ := enter_eq_callOut henter
      exact ih.congr (congrFun (sameAnchoring_processWithdrawalEnter hpay).fraudProofs h)
  | resume henter _ hr ih =>
      obtain ⟨l, c, -, -, -, rfl⟩ := enter_eq_callOut henter
      cases hr
      exact ih.congr rfl

/-- The proof of `disputedRun` after its verdict. -/
theorem fraudProof_kept_disputedRun :
    ∃ w, ProofKept (run fixedPrimitives disputedRun ⟨deployed, []⟩) 1 w ∧
      (w.contract.fraudProofs 1).challenger = 0xcc ∧ (w.contract.fraudProofs 1).isFraud = true := by
  have hfacts : 0xad = (run fixedPrimitives disputedRun ⟨deployed, []⟩).contract.owner ∧
      (run fixedPrimitives disputedRun ⟨deployed, []⟩).contract.fraudProofs 1 =
        { invalidStateRoot := 7, validStateRoot := 8, blockHeight := 1, challenger := 0xcc
          proof := [1] } := by decide +kernel
  obtain ⟨howner, hrecord⟩ := hfacts
  obtain ⟨w₀, hres, hstate⟩ := enter_resolveFraudProof_done fixedPrimitives 30 true howner
    (by rw [hrecord]; decide) (by rw [hrecord])
  have hafter : After fixedPrimitives slotFree (run fixedPrimitives disputedRun ⟨deployed, []⟩) w₀ := by
    refine .done .refl ?_ hres
    intro h i v proof hcall
    cases hcall
  refine ⟨w₀, fraudProof_kept hafter (by rw [hrecord]; decide), ?_, ?_⟩
  · rw [hstate]
    simp [resolvedState, hrecord]
  · rw [hstate]
    simp [resolvedState]

/-- A verdict on some fraud proof. -/
def Item.isVerdict : Item → Bool
  | .event (.fraudProofResolved ..) => true
  | _ => false

/-- A second submission replaces the proof of `disputedRun` before any verdict, and
another one erases a verdict of no fraud. -/
theorem fraudProof_overwritten :
    ∃ w₁ w₂ w₃ : World, Reachable fixedPrimitives w₁ ∧
      w₂ = run fixedPrimitives [⟨21, .call (0xbb, .submitFraudProof 1 7 9 []) [] true⟩] w₁ ∧
      w₃ = run fixedPrimitives [⟨30, .call (0xad, .resolveFraudProof 1 false) [] true⟩,
        ⟨31, .call (0xbb, .submitFraudProof 1 7 9 []) [] true⟩] w₁ ∧
      (w₁.contract.fraudProofs 1).challenger = 0xcc ∧
      (w₂.contract.fraudProofs 1).challenger = 0xbb ∧
      (∀ e ∈ w₂.trace, e.item.isVerdict = false) ∧
      ⟨30, .event (.fraudProofResolved 1 false 0xcc)⟩ ∈ w₃.trace ∧
      (w₃.contract.fraudProofs 1).resolved = false := by
  refine ⟨run fixedPrimitives disputedRun ⟨deployed, []⟩, _, _,
    reachable_run_deployed fixedPrimitives disputedRun, rfl, rfl, ?_, ?_, ?_, ?_, ?_⟩
  · decide +kernel
  · decide +kernel
  · decide +kernel
  · decide +kernel
  · decide +kernel

end BhtBhte.Settlement
