import BhtBhte.Lib.Counting
import BhtBhte.Settlement.Withdrawals

/-!
# Anchors and their validators

What every call does to the anchors, the validator set, the approvals and the fraud
proofs is said once, in `AnchorStep`; the invariants of this module and of the next two
are read off it.  `AnchorsInv` ties the counters and the anchor records to the
submissions in the trace.
-/
namespace BhtBhte.Settlement

open BhtBhte.Lib

/-! ## What one call does to the anchors -/

/-- Nothing the anchor entry points own has changed. -/
structure SameAnchoring (c c' : State) : Prop where
  anchors : c'.anchors = c.anchors
  latest : c'.latestAnchorHeight = c.latestAnchorHeight
  total : c'.totalAnchors = c.totalAnchors
  validators : c'.anchorValidators = c.anchorValidators
  count : c'.anchorValidatorCount = c.anchorValidatorCount
  threshold : c'.anchorThreshold = c.anchorThreshold
  approvals : c'.anchorApprovals = c.anchorApprovals
  approvalCount : c'.anchorApprovalCount = c.anchorApprovalCount
  fraudProofs : c'.fraudProofs = c.fraudProofs

/-- The events that report an anchor, an approval or a fraud proof. -/
def Event.concernsAnchor : Event → Bool
  | .anchorSubmitted .. => true
  | .anchorApproved .. => true
  | .fraudProofSubmitted .. => true
  | .fraudProofResolved .. => true
  | _ => false

/-- The record a submission writes. -/
def submittedRecord (blockHeight : ℕ) (stateRoot txHash : Bytes32) (timestamp : ℕ) :
    AnchorRecord :=
  { stateRoot := stateRoot, blockHeight := blockHeight, timestamp := timestamp, txHash := txHash
    verified := true }

/-- The storage after a verdict on the fraud proof of a height. -/
def resolvedState (c : State) (h : ℕ) (isFraud : Bool) : State :=
  { c with
    fraudProofs := Function.update c.fraudProofs h
      { c.fraudProofs h with resolved := true, isFraud := isFraud }
    anchors := if isFraud then
        Function.update c.anchors h { c.anchors h with verified := false }
      else c.anchors }

/-- Everything a call can do to what the anchor entry points own, with its guards. -/
inductive AnchorStep (P : Primitives) (msg : Msg) (call : Call) (c : State) :
    State → List Event → Prop
  | other {c' events} (hsame : SameAnchoring c c')
      (hquiet : ∀ e ∈ events, e.concernsAnchor = false) : AnchorStep P msg call c c' events
  | approve {h r t} (hval : c.anchorValidators msg.sender = true)
      (hfresh : c.anchorApprovals (anchorId P h r t) msg.sender = false) :
      AnchorStep P msg call c
        { c with
          anchorApprovals := Function.update c.anchorApprovals (anchorId P h r t)
            (Function.update (c.anchorApprovals (anchorId P h r t)) msg.sender true)
          anchorApprovalCount := Function.update c.anchorApprovalCount (anchorId P h r t)
            (c.anchorApprovalCount (anchorId P h r t) + 1) }
        [.anchorApproved h r t msg.sender (c.anchorApprovalCount (anchorId P h r t) + 1)]
  | submit {h r t proof} (hlt : c.latestAnchorHeight < h)
      (hproof : verifyAnchorProof P c h r t proof = true) :
      AnchorStep P msg call c
        { c with
          anchors := Function.update c.anchors h (submittedRecord h r t msg.timestamp)
          anchorProofHashes := Function.update c.anchorProofHashes h (P.keccak256 proof)
          latestAnchorHeight := h
          totalAnchors := c.totalAnchors + 1 }
        [.anchorSubmitted h r t (P.keccak256 proof) msg.timestamp]
  | submitFraud {h i v proof} (hcall : call = .submitFraudProof h i v proof)
      (hver : (c.anchors h).verified = true) :
      AnchorStep P msg call c
        { c with
          fraudProofs := Function.update c.fraudProofs h
            { invalidStateRoot := i, validStateRoot := v, blockHeight := h
              challenger := msg.sender, proof := proof } }
        [.fraudProofSubmitted h msg.sender i]
  | resolve {h isFraud} (hfound : (c.fraudProofs h).challenger ≠ 0)
      (hopen : (c.fraudProofs h).resolved = false) :
      AnchorStep P msg call c (resolvedState c h isFraud)
        [.fraudProofResolved h isFraud (c.fraudProofs h).challenger]
  | addValidator {v} (hnew : c.anchorValidators v = false) :
      AnchorStep P msg call c
        { c with
          anchorValidators := Function.update c.anchorValidators v true
          anchorValidatorCount := c.anchorValidatorCount + 1 }
        [.anchorValidatorUpdated v true]
  | removeValidator {v} (hold : c.anchorValidators v = true)
      (hthreshold : c.anchorThreshold ≤ c.anchorValidatorCount - 1) :
      AnchorStep P msg call c
        { c with
          anchorValidators := Function.update c.anchorValidators v false
          anchorValidatorCount := c.anchorValidatorCount - 1 }
        [.anchorValidatorUpdated v false]
  | setThreshold {n} (hpos : 0 < n) (hle : n ≤ c.anchorValidatorCount) :
      AnchorStep P msg call c { c with anchorThreshold := n }
        [.anchorThresholdUpdated c.anchorThreshold n]

theorem SameAnchoring.refl (c : State) : SameAnchoring c c :=
  ⟨rfl, rfl, rfl, rfl, rfl, rfl, rfl, rfl, rfl⟩

/-- A call that hands no control out takes one of these steps. -/
theorem anchorStep_of_body {P : Primitives} {msg : Msg} {call : Call} {c c' : State}
    {events : List Event} (h : call.body P msg c = .ok (c', events)) :
    AnchorStep P msg call c c' events := by
  cases call with
  | approveAnchor bh r t =>
      simp only [Call.body, approveAnchor, require_bind_eq_ok, checkedAdd_bind_eq_ok, pure_eq_ok,
        Prod.mk.injEq, Bool.not_eq_true'] at h
      obtain ⟨hval, -, -, -, hfresh, -, rfl, rfl⟩ := h
      exact .approve hval hfresh
  | submitAnchor bh r t proof =>
      simp only [Call.body, submitAnchor, require_bind_eq_ok, checkedAdd_bind_eq_ok, pure_eq_ok,
        Prod.mk.injEq] at h
      obtain ⟨-, -, -, hlt, -, hproof, -, rfl, rfl⟩ := h
      exact .submit hlt hproof
  | submitFraudProof bh i v proof =>
      simp only [Call.body, submitFraudProof, require_bind_eq_ok, pure_eq_ok,
        Prod.mk.injEq] at h
      obtain ⟨-, hver, -, rfl, rfl⟩ := h
      exact .submitFraud rfl hver
  | resolveFraudProof bh isFraud =>
      simp only [Call.body, resolveFraudProof, onlyOwner, require_bind_eq_ok, pure_eq_ok,
        Prod.mk.injEq, Bool.not_eq_true'] at h
      obtain ⟨-, hfound, hopen, rfl, rfl⟩ := h
      cases isFraud
      · exact @AnchorStep.resolve P msg _ c bh false hfound hopen
      · exact @AnchorStep.resolve P msg _ c bh true hfound hopen
  | setAnchorValidator v enabled =>
      obtain ⟨rfl, ⟨rfl, hnew, rfl⟩ | ⟨rfl, hold, hthreshold, rfl⟩ | rfl⟩ :=
        setAnchorValidator_of_ok h
      · exact .addValidator hnew
      · exact .removeValidator hold hthreshold
      · exact .other (.refl c') (by simp [Event.concernsAnchor])
  | setAnchorThreshold n =>
      simp only [Call.body, setAnchorThreshold, onlyOwner, require_bind_eq_ok, pure_eq_ok,
        Prod.mk.injEq] at h
      obtain ⟨-, hpos, hle, rfl, rfl⟩ := h
      exact .setThreshold hpos hle
  | processWithdrawal l => simp [Call.body] at h
  | batchAddVerifiedMLDSACommitments ms ss ks =>
      obtain ⟨commitments, rfl, rfl⟩ := batchAddVerifiedMLDSACommitments_of_ok h
      exact .other ⟨rfl, rfl, rfl, rfl, rfl, rfl, rfl, rfl, rfl⟩ (by simp)
  | initiateWithdrawal l r a ah proof i =>
      obtain ⟨-, hres⟩ := initiateWithdrawal_eq_ok.mp h
      cases hres
      exact .other ⟨rfl, rfl, rfl, rfl, rfl, rfl, rfl, rfl, rfl⟩ (by simp [Event.concernsAnchor])
  | _ =>
      -- the remaining entry points write none of these fields
      simp only [Call.body, challengeWithdrawal, updateBridge, updateSequencer, pause, unpause,
        transferOwnership, renounceOwnership, addVerifiedMLDSACommitment, receive, onlyOwner,
        require_bind_eq_ok, checkedSub_bind_eq_ok, pure_eq_ok, Prod.mk.injEq] at h
      first
        | obtain ⟨rfl, rfl⟩ := h
        | obtain ⟨-, rfl, rfl⟩ := h
        | obtain ⟨-, -, rfl, rfl⟩ := h
        | obtain ⟨-, -, -, rfl, rfl⟩ := h
        | obtain ⟨-, -, -, -, -, -, -, rfl, rfl⟩ := h
      exact .other ⟨rfl, rfl, rfl, rfl, rfl, rfl, rfl, rfl, rfl⟩ (by simp [Event.concernsAnchor])

/-- A payout touches none of it, before its external call and after. -/
theorem sameAnchoring_processWithdrawalEnter {msg : Msg} {l : Bytes32} {c c' : State}
    (h : processWithdrawalEnter msg l c = .ok c') : SameAnchoring c c' := by
  simp only [processWithdrawalEnter, require_bind_eq_ok, checkedSub_bind_eq_ok, pure_eq_ok] at h
  obtain ⟨-, -, -, -, -, -, -, -, rfl⟩ := h
  exact ⟨rfl, rfl, rfl, rfl, rfl, rfl, rfl, rfl, rfl⟩

theorem sameAnchoring_processWithdrawalExit (l : Bytes32) (c : State) :
    SameAnchoring c (processWithdrawalExit l c).1 :=
  ⟨rfl, rfl, rfl, rfl, rfl, rfl, rfl, rfl, rfl⟩

/-- An invariant that survives every `AnchorStep` and every payment survives every call. -/
theorem Preserved.of_anchorStep {P : Primitives} {Inv : World → Prop}
    (hstep : ∀ {msg call w c events}, Inv w → AnchorStep P msg call w.contract c events →
      Inv (World.emit { w with contract := c } msg.timestamp events))
    (hpay : ∀ {w c time l r a}, Inv w → SameAnchoring w.contract c →
      Inv { contract := c, trace := w.trace ++ [⟨time, .payout l r a⟩] }) (time : ℕ) :
    Preserved (enter P time) Inv := by
  refine Preserved.of_calls (fun hw hbody => hstep hw (anchorStep_of_body hbody))
    (fun hw henter => hpay hw (sameAnchoring_processWithdrawalEnter henter)) fun {l w} hw => ?_
  have hother : AnchorStep P ⟨0, time⟩ (.processWithdrawal l) w.contract
      (processWithdrawalExit l w.contract).1 (processWithdrawalExit l w.contract).2 :=
    .other (sameAnchoring_processWithdrawalExit l w.contract)
      (by simp [processWithdrawalExit, Event.concernsAnchor])
  exact hstep hw hother

/-! ## The accepted anchors -/

/-- The records of the successful submissions, in order. -/
def acceptedAnchors (trace : List Entry) : List AnchorRecord :=
  trace.filterMap fun e =>
    match e.item with
    | .event (.anchorSubmitted h r t _ timestamp) => some (submittedRecord h r t timestamp)
    | _ => none

@[simp] theorem acceptedAnchors_append (s t : List Entry) :
    acceptedAnchors (s ++ t) = acceptedAnchors s ++ acceptedAnchors t := by
  simp [acceptedAnchors]

/-- Events that accept no anchor leave the records alone. -/
theorem acceptedAnchors_emit {w : World} {time : ℕ} {events : List Event}
    (h : acceptedAnchors (events.map fun e => ⟨time, .event e⟩) = []) :
    acceptedAnchors (w.emit time events).trace = acceptedAnchors w.trace := by
  rw [World.emit, acceptedAnchors_append, h, List.append_nil]

/-- Events that concern no anchor accept none. -/
theorem acceptedAnchors_emit_of_quiet {w : World} {time : ℕ} {events : List Event}
    (h : ∀ e ∈ events, e.concernsAnchor = false) :
    acceptedAnchors (w.emit time events).trace = acceptedAnchors w.trace := by
  have hnone : acceptedAnchors (events.map fun e => ⟨time, .event e⟩) = [] := by
    induction events with
    | nil => rfl
    | cons e es ih =>
        have htail := ih fun e' he' => h e' (List.mem_cons_of_mem _ he')
        have hhead := h e List.mem_cons_self
        cases e with
        | anchorSubmitted => cases hhead
        | _ => exact htail
  exact acceptedAnchors_emit hnone

/-- The anchor storage is what the accepted submissions left, up to withdrawn
verdicts. -/
structure SubmissionsInv (w : World) : Prop where
  increasing : ((acceptedAnchors w.trace).map AnchorRecord.blockHeight).Pairwise (· < ·)
  total : w.contract.totalAnchors = (acceptedAnchors w.trace).length
  below_latest : ∀ a ∈ acceptedAnchors w.trace, a.blockHeight ≤ w.contract.latestAnchorHeight
  latest_mem : (w.contract.latestAnchorHeight = 0 ∧ acceptedAnchors w.trace = []) ∨
    w.contract.latestAnchorHeight ∈ (acceptedAnchors w.trace).map AnchorRecord.blockHeight
  written : ∀ a ∈ acceptedAnchors w.trace,
    { w.contract.anchors a.blockHeight with verified := true } = a
  unwritten : ∀ h ∉ (acceptedAnchors w.trace).map AnchorRecord.blockHeight,
    w.contract.anchors h = {}

namespace SubmissionsInv
variable {w : World}

/-- Nothing accepted and nothing written. -/
theorem congr {w' : World} (hw : SubmissionsInv w)
    (hanchors : w'.contract.anchors = w.contract.anchors)
    (hlatest : w'.contract.latestAnchorHeight = w.contract.latestAnchorHeight)
    (htotal : w'.contract.totalAnchors = w.contract.totalAnchors)
    (htrace : acceptedAnchors w'.trace = acceptedAnchors w.trace) : SubmissionsInv w' where
  increasing := by rw [htrace]; exact hw.increasing
  total := by rw [htrace, htotal]; exact hw.total
  below_latest := by rw [htrace, hlatest]; exact hw.below_latest
  latest_mem := by rw [htrace, hlatest]; exact hw.latest_mem
  written := by rw [htrace, hanchors]; exact hw.written
  unwritten := by rw [htrace, hanchors]; exact hw.unwritten

/-- A submission goes on top. -/
theorem submit (hw : SubmissionsInv w) {h time : ℕ} {r t hash : Bytes32} {c : State}
    (hlt : w.contract.latestAnchorHeight < h)
    (hanchors : c.anchors = Function.update w.contract.anchors h (submittedRecord h r t time))
    (hlatest : c.latestAnchorHeight = h) (htotal : c.totalAnchors = w.contract.totalAnchors + 1) :
    SubmissionsInv (World.emit { w with contract := c } time [.anchorSubmitted h r t hash time]) := by
  have hacc : acceptedAnchors (World.emit { w with contract := c } time
      [.anchorSubmitted h r t hash time]).trace =
        acceptedAnchors w.trace ++ [submittedRecord h r t time] := by
    simp [World.emit, acceptedAnchors]
  have hbelow : ∀ a ∈ acceptedAnchors w.trace, a.blockHeight < h := fun a ha =>
    (hw.below_latest a ha).trans_lt hlt
  constructor
  · rw [hacc, List.map_append, List.pairwise_append]
    refine ⟨hw.increasing, List.pairwise_singleton _ _, ?_⟩
    intro x hx y hy
    obtain ⟨a, ha, rfl⟩ := List.mem_map.mp hx
    rw [List.map_singleton, List.mem_singleton] at hy
    rw [hy]
    exact hbelow a ha
  · rw [hacc, List.length_append, List.length_singleton, ← hw.total]
    exact htotal
  · intro a ha
    rw [hacc, List.mem_append, List.mem_singleton] at ha
    have hle : a.blockHeight ≤ h := by
      rcases ha with ha | rfl
      · exact (hbelow a ha).le
      · exact le_refl h
    exact hle.trans_eq hlatest.symm
  · right
    rw [hacc, List.map_append, List.mem_append]
    exact .inr (List.mem_singleton.mpr hlatest)
  · intro a ha
    rw [hacc, List.mem_append, List.mem_singleton] at ha
    have hget : ∀ x, (World.emit { w with contract := c } time
        [.anchorSubmitted h r t hash time]).contract.anchors x =
          Function.update w.contract.anchors h (submittedRecord h r t time) x := fun x =>
      congrFun hanchors x
    rw [hget]
    rcases ha with ha | rfl
    · rw [Function.update_of_ne (hbelow a ha).ne]
      exact hw.written a ha
    · simp [submittedRecord]
  · intro x hx
    rw [hacc, List.map_append, List.mem_append, not_or] at hx
    have hne : x ≠ h := fun heq => hx.2 (List.mem_singleton.mpr heq)
    exact ((congrFun hanchors x).trans (Function.update_of_ne hne _ _)).trans
      (hw.unwritten x hx.1)

/-- A verdict changes the flag of one record and accepts nothing. -/
theorem resolve (hw : SubmissionsInv w) {h time : ℕ} {isFraud : Bool} {challenger : Address} :
    SubmissionsInv (World.emit { w with contract := resolvedState w.contract h isFraud } time
      [.fraudProofResolved h isFraud challenger]) := by
  have hacc : acceptedAnchors (World.emit { w with contract := resolvedState w.contract h isFraud }
      time [.fraudProofResolved h isFraud challenger]).trace = acceptedAnchors w.trace :=
    acceptedAnchors_emit rfl
  have hfields : ∀ x, { (resolvedState w.contract h isFraud).anchors x with verified := true } =
      { w.contract.anchors x with verified := true } := by
    intro x
    cases isFraud with
    | false => rfl
    | true =>
        by_cases hx : x = h
        · subst hx
          simp [resolvedState]
        · simp [resolvedState, hx]
  constructor
  · rw [hacc]; exact hw.increasing
  · rw [hacc]; exact hw.total
  · rw [hacc]; exact hw.below_latest
  · rw [hacc]; exact hw.latest_mem
  · intro a ha
    rw [hacc] at ha
    exact (hfields a.blockHeight).trans (hw.written a ha)
  · intro x hx
    rw [hacc] at hx
    have hempty := hw.unwritten x hx
    cases isFraud with
    | false => exact hempty
    | true =>
        by_cases hxh : x = h
        · subst hxh
          simp [World.emit, resolvedState, hempty]
        · simpa [World.emit, resolvedState, hxh] using hempty

/-- Every call keeps it. -/
theorem step {P : Primitives} {msg : Msg} {call : Call} {c : State} {events : List Event}
    (hw : SubmissionsInv w) (h : AnchorStep P msg call w.contract c events) :
    SubmissionsInv (World.emit { w with contract := c } msg.timestamp events) := by
  cases h with
  | other hsame hquiet =>
      exact hw.congr hsame.anchors hsame.latest hsame.total (acceptedAnchors_emit_of_quiet hquiet)
  | submit hlt _ => exact hw.submit hlt rfl rfl rfl
  | resolve _ _ => exact hw.resolve
  | approve _ _ => exact hw.congr rfl rfl rfl (acceptedAnchors_emit rfl)
  | submitFraud _ _ => exact hw.congr rfl rfl rfl (acceptedAnchors_emit rfl)
  | addValidator _ => exact hw.congr rfl rfl rfl (acceptedAnchors_emit rfl)
  | removeValidator _ _ => exact hw.congr rfl rfl rfl (acceptedAnchors_emit rfl)
  | setThreshold _ _ => exact hw.congr rfl rfl rfl (acceptedAnchors_emit rfl)

theorem of_visible {P : Primitives} (hw : Visible P w) : SubmissionsInv w := by
  refine Visible.induction ?_ (Preserved.of_anchorStep step ?_) hw
  · intro msg bridge sequencer verifier c hc
    simp only [constructor, require_bind_eq_ok, pure_eq_ok] at hc
    obtain ⟨-, -, -, rfl⟩ := hc
    exact ⟨.nil, rfl, by simp [acceptedAnchors], .inl ⟨rfl, rfl⟩, by simp [acceptedAnchors],
      fun _ _ => rfl⟩
  · intro w c time l r a hw hsame
    exact hw.congr hsame.anchors hsame.latest hsame.total (by simp [acceptedAnchors])

end SubmissionsInv

/-! ## The validator set -/

/-- The counter counts the validators and the threshold is within it. -/
structure ValidatorsInv (c : State) : Prop where
  count : CountIs (· = true) c.anchorValidators c.anchorValidatorCount
  threshold_pos : 1 ≤ c.anchorThreshold
  threshold_le : c.anchorThreshold ≤ c.anchorValidatorCount

namespace ValidatorsInv
variable {c c' : State}

theorem congr (hc : ValidatorsInv c) (hvalidators : c'.anchorValidators = c.anchorValidators)
    (hcount : c'.anchorValidatorCount = c.anchorValidatorCount)
    (hthreshold : c'.anchorThreshold = c.anchorThreshold) : ValidatorsInv c' where
  count := by rw [hvalidators, hcount]; exact hc.count
  threshold_pos := by rw [hthreshold]; exact hc.threshold_pos
  threshold_le := by rw [hthreshold, hcount]; exact hc.threshold_le

/-- Every call keeps it; a removal that would leave too few reverts. -/
theorem step {P : Primitives} {msg : Msg} {call : Call} {events : List Event}
    (hc : ValidatorsInv c)
    (h : AnchorStep P msg call c c' events) : ValidatorsInv c' := by
  cases h with
  | other hsame _ => exact hc.congr hsame.validators hsame.count hsame.threshold
  | addValidator hnew =>
      refine ⟨hc.count.update_add (by simp [hnew]) rfl, hc.threshold_pos, ?_⟩
      exact hc.threshold_le.trans (Nat.le_succ _)
  | removeValidator hold hthreshold =>
      exact ⟨hc.count.update_sub hold (by simp), hc.threshold_pos, hthreshold⟩
  | setThreshold hpos hle => exact ⟨hc.count, hpos, hle⟩
  | approve _ _ => exact hc.congr rfl rfl rfl
  | submit _ _ => exact hc.congr rfl rfl rfl
  | submitFraud _ _ => exact hc.congr rfl rfl rfl
  | resolve _ _ => exact hc.congr rfl rfl rfl

theorem of_visible {P : Primitives} {w : World} (hw : Visible P w) : ValidatorsInv w.contract := by
  have hstep : ∀ time, Preserved (enter P time) fun w => ValidatorsInv w.contract :=
    Preserved.of_anchorStep step fun hw hsame =>
      hw.congr hsame.validators hsame.count hsame.threshold
  refine Visible.induction ?_ hstep hw
  intro msg bridge sequencer verifier c hc
  simp only [constructor, require_bind_eq_ok, pure_eq_ok] at hc
  obtain ⟨-, -, -, rfl⟩ := hc
  have hnone : CountIs (· = true) (fun _ : Address => false) 0 := .zero (by simp)
  exact ⟨hnone.update_add (by simp) rfl, le_refl 1, le_refl 1⟩

end ValidatorsInv

/-- **The books of the anchors are right wherever somebody outside has control**: the
validator counter and the threshold, the order and number of the accepted anchors, one
submission at most for each height, the latest height, and records that still hold what
that submission wrote. -/
theorem anchors_of_visible {P : Primitives} {w : World} (hw : Visible P w) :
    CountIs (· = true) w.contract.anchorValidators w.contract.anchorValidatorCount ∧
      1 ≤ w.contract.anchorThreshold ∧
      w.contract.anchorThreshold ≤ w.contract.anchorValidatorCount ∧
      ((acceptedAnchors w.trace).map AnchorRecord.blockHeight).Pairwise (· < ·) ∧
      (∀ h, ((acceptedAnchors w.trace).map AnchorRecord.blockHeight).count h ≤ 1) ∧
      (∀ a ∈ acceptedAnchors w.trace,
        { w.contract.anchors a.blockHeight with verified := true } = a) ∧
      (∀ h ∉ (acceptedAnchors w.trace).map AnchorRecord.blockHeight,
        w.contract.anchors h = {}) ∧
      w.contract.totalAnchors = (acceptedAnchors w.trace).length ∧
      ((acceptedAnchors w.trace = [] ∧ w.contract.latestAnchorHeight = 0) ∨
        IsGreatest {h | h ∈ (acceptedAnchors w.trace).map AnchorRecord.blockHeight}
          w.contract.latestAnchorHeight) := by
  have hv := ValidatorsInv.of_visible hw
  have hs := SubmissionsInv.of_visible hw
  refine ⟨hv.count, hv.threshold_pos, hv.threshold_le, hs.increasing, ?_, hs.written, hs.unwritten,
    hs.total, ?_⟩
  · intro h
    exact List.nodup_iff_count_le_one.mp (hs.increasing.imp fun hlt => hlt.ne) h
  · rcases hs.latest_mem with ⟨hzero, hnone⟩ | hmem
    · exact .inl ⟨hnone, hzero⟩
    · refine .inr ⟨hmem, ?_⟩
      intro h hh
      obtain ⟨a, ha, rfl⟩ := List.mem_map.mp hh
      exact hs.below_latest a ha

/-- In `reentrantRun` one anchor is accepted, at height `1`. -/
theorem anchors_reentrantRun :
    (run fixedPrimitives reentrantRun ⟨deployed, []⟩).contract.totalAnchors = 1 ∧
      IsGreatest {h | h ∈ (acceptedAnchors (run fixedPrimitives reentrantRun
        ⟨deployed, []⟩).trace).map AnchorRecord.blockHeight} 1 := by
  have hlatest : (run fixedPrimitives reentrantRun ⟨deployed, []⟩).contract.totalAnchors = 1 ∧
      (run fixedPrimitives reentrantRun ⟨deployed, []⟩).contract.latestAnchorHeight = 1 := by
    decide +kernel
  have hall := anchors_of_visible (reachable_run_deployed fixedPrimitives reentrantRun).visible
  rw [hlatest.2] at hall
  refine ⟨hlatest.1, ?_⟩
  rcases hall.2.2.2.2.2.2.2.2 with ⟨-, hzero⟩ | hgreatest
  · exact absurd hzero (by decide)
  · exact hgreatest

end BhtBhte.Settlement
