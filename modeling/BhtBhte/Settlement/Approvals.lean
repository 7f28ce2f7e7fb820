import BhtBhte.Settlement.Anchors
import Mathlib.Data.Finset.Card

/-!
# Who approved an anchor

`submitAnchor` adds the stored counter of on-chain approvals to the fresh signatures of
its proof.  The counter is the number of recorded approvers and the signature loop counts
no signer twice and none that is recorded, so nobody is counted double.  The counter is
never taken down again, though: an approver who has been removed from the validators
still counts.
-/
namespace BhtBhte.Settlement

open BhtBhte.Lib

/-- Some `approveAnchor` of exactly this anchor by `a` succeeded. -/
def ApprovedOnChain (trace : List Entry) (blockHeight : ℕ) (stateRoot txHash : Bytes32)
    (a : Address) : Prop :=
  ∃ time approvals, ⟨time, .event (.anchorApproved blockHeight stateRoot txHash a approvals)⟩ ∈ trace

theorem ApprovedOnChain.mono {s t : List Entry} {h : ℕ} {r x : Bytes32} {a : Address}
    (happ : ApprovedOnChain s h r x a) : ApprovedOnChain (s ++ t) h r x a := by
  obtain ⟨time, n, hmem⟩ := happ
  exact ⟨time, n, List.mem_append_left t hmem⟩

/-- The digest the anchor validators sign. -/
def signedAnchor (P : Primitives) (blockHeight : ℕ) (stateRoot txHash : Bytes32) : Bytes32 :=
  P.keccak256 (literalBytes "\x19Ethereum Signed Message:\n32" ++
    wordBytes (anchorId P blockHeight stateRoot txHash))

/-- One of the packed signatures is by `a`, over exactly this anchor. -/
def SignedInProof (P : Primitives) (proof : List UInt8) (blockHeight : ℕ)
    (stateRoot txHash : Bytes32) (a : Address) : Prop :=
  a ≠ 0 ∧ ∃ i < proof.length / 65,
    recoverSigner P proof (i * 65) (signedAnchor P blockHeight stateRoot txHash) = a

/-! ## The stored approvals -/

/-- The counters count the recorded approvers, and each of them called `approveAnchor`. -/
structure ApprovalsInv (P : Primitives) (w : World) : Prop where
  counted : ∀ id, CountIs (· = true) (w.contract.anchorApprovals id)
    (w.contract.anchorApprovalCount id)
  recorded : ∀ id a, w.contract.anchorApprovals id a = true →
    ∃ h r t, anchorId P h r t = id ∧ ApprovedOnChain w.trace h r t a

namespace ApprovalsInv
variable {P : Primitives} {w : World}

/-- A longer trace over the same approvals. -/
theorem congr (hw : ApprovalsInv P w) {c : State} {more : List Entry}
    (happrovals : c.anchorApprovals = w.contract.anchorApprovals)
    (hcount : c.anchorApprovalCount = w.contract.anchorApprovalCount) :
    ApprovalsInv P { contract := c, trace := w.trace ++ more } where
  counted := by
    intro id
    simp only [happrovals, hcount]
    exact hw.counted id
  recorded := by
    intro id a ha
    simp only [happrovals] at ha
    obtain ⟨h, r, t, hid, happ⟩ := hw.recorded id a ha
    exact ⟨h, r, t, hid, .mono happ⟩

/-- An approval is recorded, counted and in the trace. -/
theorem approve (hw : ApprovalsInv P w) {msg : Msg} {h : ℕ} {r t : Bytes32} {c : State}
    (hfresh : w.contract.anchorApprovals (anchorId P h r t) msg.sender = false)
    (happrovals : c.anchorApprovals = Function.update w.contract.anchorApprovals (anchorId P h r t)
      (Function.update (w.contract.anchorApprovals (anchorId P h r t)) msg.sender true))
    (hcount : c.anchorApprovalCount = Function.update w.contract.anchorApprovalCount
      (anchorId P h r t) (w.contract.anchorApprovalCount (anchorId P h r t) + 1)) {n : ℕ} :
    ApprovalsInv P (World.emit { w with contract := c } msg.timestamp
      [.anchorApproved h r t msg.sender n]) := by
  have happ : ∀ id, c.anchorApprovals id = Function.update w.contract.anchorApprovals
      (anchorId P h r t) (Function.update (w.contract.anchorApprovals (anchorId P h r t))
        msg.sender true) id := fun id => congrFun happrovals id
  have hcnt : ∀ id, c.anchorApprovalCount id = Function.update w.contract.anchorApprovalCount
      (anchorId P h r t) (w.contract.anchorApprovalCount (anchorId P h r t) + 1) id := fun id =>
    congrFun hcount id
  constructor
  · intro id
    simp only [World.emit, happ, hcnt]
    by_cases hid : id = anchorId P h r t
    · subst hid
      simp only [Function.update_self]
      exact (hw.counted _).update_add (by simp [hfresh]) rfl
    · simp only [Function.update_of_ne hid]
      exact hw.counted id
  · intro id a ha
    simp only [World.emit, happ] at ha
    have hold : w.contract.anchorApprovals id a = true →
        ∃ h' r' t', anchorId P h' r' t' = id ∧
          ApprovedOnChain (World.emit { w with contract := c } msg.timestamp
            [.anchorApproved h r t msg.sender n]).trace h' r' t' a := by
      intro ha'
      obtain ⟨h', r', t', hid, hch⟩ := hw.recorded id a ha'
      exact ⟨h', r', t', hid, .mono hch⟩
    by_cases hid : id = anchorId P h r t
    · subst hid
      by_cases hsender : a = msg.sender
      · subst hsender
        exact ⟨h, r, t, rfl, msg.timestamp, n, by simp [World.emit]⟩
      · rw [Function.update_self, Function.update_of_ne hsender] at ha
        exact hold ha
    · rw [Function.update_of_ne hid] at ha
      exact hold ha

theorem step {msg : Msg} {call : Call} {c : State} {events : List Event} (hw : ApprovalsInv P w)
    (h : AnchorStep P msg call w.contract c events) :
    ApprovalsInv P (World.emit { w with contract := c } msg.timestamp events) := by
  cases h with
  | other hsame _ => exact hw.congr hsame.approvals hsame.approvalCount
  | approve _ hfresh => exact hw.approve hfresh rfl rfl
  | submit _ _ => exact hw.congr rfl rfl
  | submitFraud _ _ => exact hw.congr rfl rfl
  | resolve _ _ => exact hw.congr rfl rfl
  | addValidator _ => exact hw.congr rfl rfl
  | removeValidator _ _ => exact hw.congr rfl rfl
  | setThreshold _ _ => exact hw.congr rfl rfl

theorem of_visible (hw : Visible P w) : ApprovalsInv P w := by
  refine Visible.induction ?_ (Preserved.of_anchorStep step ?_) hw
  · intro msg bridge sequencer verifier c hc
    simp only [constructor, require_bind_eq_ok, pure_eq_ok] at hc
    obtain ⟨-, -, -, rfl⟩ := hc
    refine ⟨fun id => .zero (by simp), ?_⟩
    intro id a ha
    cases ha
  · intro w c time l r a hw hsame
    exact hw.congr hsame.approvals hsame.approvalCount

end ApprovalsInv

/-! ## The signature loop -/

/-- A signer the loop counts. -/
def FreshSigner (P : Primitives) (c : State) (blockHeight : ℕ) (stateRoot txHash : Bytes32)
    (proof : List UInt8) (a : Address) : Prop :=
  c.anchorValidators a = true ∧
    c.anchorApprovals (anchorId P blockHeight stateRoot txHash) a = false ∧
    SignedInProof P proof blockHeight stateRoot txHash a

section
variable {P : Primitives} {c : State} {h : ℕ} {r t : Bytes32} {proof : List UInt8}

/-- The loop succeeds only after enough distinct fresh signers; `seen` holds them. -/
theorem countSignatures_eq_true {n i approvals : ℕ} {seen : List Address}
    (hin : i + n ≤ proof.length / 65) (hnodup : seen.Nodup)
    (hseen : ∀ a ∈ seen, FreshSigner P c h r t proof a)
    (hcount : countSignatures P c (anchorId P h r t) (signedAnchor P h r t) proof n i seen approvals
      = true) :
    ∃ signers : List Address, signers.Nodup ∧ (∀ a ∈ signers, FreshSigner P c h r t proof a) ∧
      c.anchorThreshold + seen.length ≤ approvals + signers.length := by
  induction n generalizing i seen approvals with
  | zero => cases hcount
  | succ n ih =>
      rw [countSignatures] at hcount
      split at hcount
      · next hfresh =>
        obtain ⟨hzero, hval, hnew, hunseen⟩ := hfresh
        have hsigner : FreshSigner P c h r t proof
            (recoverSigner P proof (i * 65) (signedAnchor P h r t)) :=
          ⟨hval, by simpa using hnew, hzero, i, by omega, rfl⟩
        have hall : ∀ a ∈ seen ++ [recoverSigner P proof (i * 65) (signedAnchor P h r t)],
            FreshSigner P c h r t proof a := by
          intro a ha
          rcases List.mem_append.mp ha with ha | ha
          · exact hseen a ha
          · rw [List.mem_singleton.mp ha]
            exact hsigner
        have hnodup' : (seen ++ [recoverSigner P proof (i * 65) (signedAnchor P h r t)]).Nodup := by
          refine List.nodup_append.mpr ⟨hnodup, List.nodup_singleton _, ?_⟩
          intro a ha b hb hab
          rw [hab, List.mem_singleton.mp hb] at ha
          exact hunseen ha
        split at hcount
        · next hreached =>
          refine ⟨_, hnodup', hall, ?_⟩
          rw [List.length_append, List.length_singleton]
          omega
        · obtain ⟨signers, h₁, h₂, h₃⟩ := ih (by omega) hnodup' hall hcount
          refine ⟨signers, h₁, h₂, ?_⟩
          rw [List.length_append, List.length_singleton] at h₃
          omega
      · exact ih (by omega) hnodup hseen hcount

/-- An accepted proof has enough recorded approvals and distinct fresh signers. -/
theorem verifyAnchorProof_eq_true (hproof : verifyAnchorProof P c h r t proof = true) :
    ∃ signers : List Address, signers.Nodup ∧ (∀ a ∈ signers, FreshSigner P c h r t proof a) ∧
      c.anchorThreshold ≤ c.anchorApprovalCount (anchorId P h r t) + signers.length := by
  rw [verifyAnchorProof] at hproof
  split at hproof
  · cases hproof
  · simp only at hproof
    split at hproof
    · next hreached => exact ⟨[], List.nodup_nil, by simp, by simpa using hreached⟩
    · split at hproof
      · cases hproof
      · have hnone : ∀ a ∈ ([] : List Address), FreshSigner P c h r t proof a := by simp
        obtain ⟨signers, h₁, h₂, h₃⟩ := countSignatures_eq_true (by omega) List.nodup_nil hnone
          hproof
        exact ⟨signers, h₁, h₂, by simpa using h₃⟩

end

/-- **Enough current validators endorsed an accepted anchor**, in every world of every
run, as long as no recorded approver of that anchor has left the validator set.  The
identifiers of the anchors approved so far do not collide. -/
theorem submitAnchor_endorsed {P : Primitives} {w : World} {msg : Msg} {blockHeight : ℕ}
    {stateRoot txHash : Bytes32} {proof : List UInt8} {res : State × List Event}
    (hw : Visible P w)
    (hfree : ∀ h r t a, ApprovedOnChain w.trace h r t a →
      anchorId P h r t = anchorId P blockHeight stateRoot txHash →
        h = blockHeight ∧ r = stateRoot ∧ t = txHash)
    (hcurrent : ∀ a, w.contract.anchorApprovals (anchorId P blockHeight stateRoot txHash) a = true →
      w.contract.anchorValidators a = true)
    (hok : submitAnchor P msg blockHeight stateRoot txHash proof w.contract = .ok res) :
    ∃ endorsers : Finset Address, w.contract.anchorThreshold ≤ endorsers.card ∧
      ∀ a ∈ endorsers, w.contract.anchorValidators a = true ∧
        (ApprovedOnChain w.trace blockHeight stateRoot txHash a ∨
          SignedInProof P proof blockHeight stateRoot txHash a) := by
  have hinv := ApprovalsInv.of_visible hw
  have hproof : verifyAnchorProof P w.contract blockHeight stateRoot txHash proof = true := by
    simp only [submitAnchor, require_bind_eq_ok, checkedAdd_bind_eq_ok] at hok
    exact hok.2.2.2.2.2.1
  obtain ⟨signers, hnodup, hfresh, hle⟩ := verifyAnchorProof_eq_true hproof
  obtain ⟨hfin, hcard⟩ := hinv.counted (anchorId P blockHeight stateRoot txHash)
  have happrover : ∀ a, a ∈ hfin.toFinset ↔
      w.contract.anchorApprovals (anchorId P blockHeight stateRoot txHash) a = true := by
    intro a
    simp
  have hdisj : Disjoint hfin.toFinset signers.toFinset := by
    rw [Finset.disjoint_left]
    intro a ha hs
    rw [happrover] at ha
    rw [(hfresh a (List.mem_toFinset.mp hs)).2.1] at ha
    cases ha
  refine ⟨hfin.toFinset ∪ signers.toFinset, ?_, ?_⟩
  · rw [Finset.card_union_of_disjoint hdisj, List.toFinset_card_of_nodup hnodup,
      ← Set.ncard_eq_toFinset_card _ hfin, hcard]
    exact hle
  · intro a ha
    rcases Finset.mem_union.mp ha with ha | ha
    · rw [happrover] at ha
      obtain ⟨h, r, t, hid, hon⟩ := hinv.recorded _ a ha
      obtain ⟨rfl, rfl, rfl⟩ := hfree h r t a hon hid
      exact ⟨hcurrent a ha, .inl hon⟩
    · have hs := hfresh a (List.mem_toFinset.mp ha)
      exact ⟨hs.1, .inr hs.2.2⟩

/-- The anchor of `reentrantRun` is accepted on the approval of its one validator. -/
theorem submitAnchor_endorsed_approved :
    ∃ endorsers : Finset Address, 1 ≤ endorsers.card ∧
      ∀ a ∈ endorsers, (approved fixedPrimitives).anchorValidators a = true := by
  have hrun : (run fixedPrimitives (reentrantRun.take 1) ⟨deployed, []⟩) =
      ⟨approved fixedPrimitives, [⟨0, .event (.anchorApproved 1 7 9 0xfe 1)⟩]⟩ := by
    simp only [run, reentrantRun, List.take_succ_cons, List.take_zero, Action.exec, enter,
      Call.body, approveAnchor_deployed, World.emit, List.map_cons, List.map_nil, List.nil_append]
  have hw := (reachable_run_deployed fixedPrimitives (reentrantRun.take 1)).visible
  rw [hrun] at hw
  have hend := submitAnchor_endorsed hw ?_ ?_ (submitAnchor_approved fixedPrimitives)
  · obtain ⟨endorsers, hcard, hall⟩ := hend
    exact ⟨endorsers, hcard, fun a ha => (hall a ha).1⟩
  · rintro h r t a ⟨time, n, hmem⟩ -
    simp only [List.mem_singleton, Entry.mk.injEq, Item.event.injEq,
      Event.anchorApproved.injEq] at hmem
    exact ⟨hmem.2.1, hmem.2.2.1, hmem.2.2.2.1⟩
  · intro a ha
    by_cases hfe : a = 0xfe
    · subst hfe
      rfl
    · simp only [approved, Function.update_self, Function.update_of_ne hfe] at ha
      cases ha

/-! ## An approver who has left -/

/-- A second validator joins, the first approves an anchor and is then removed. -/
def staleRun : List Transaction :=
  [ ⟨0, .call (0xad, .setAnchorValidator 0xf1 true) [] true⟩,
    ⟨0, .call (0xfe, .approveAnchor 1 7 9) [] true⟩,
    ⟨0, .call (0xad, .setAnchorValidator 0xfe false) [] true⟩ ]

/-- After `staleRun` the anchor is accepted with an empty proof, though its one approver
is no validator and the one validator never approved it. -/
theorem submitAnchor_stale_approval :
    ∃ w, Reachable fixedPrimitives w ∧
      (∃ res, submitAnchor fixedPrimitives ⟨0x5e, 0⟩ 1 7 9 [] w.contract = .ok res) ∧
      ¬ ∃ endorsers : Finset Address, w.contract.anchorThreshold ≤ endorsers.card ∧
        ∀ a ∈ endorsers, w.contract.anchorValidators a = true ∧
          (ApprovedOnChain w.trace 1 7 9 a ∨ SignedInProof fixedPrimitives [] 1 7 9 a) := by
  refine ⟨_, reachable_run_deployed fixedPrimitives staleRun, ?_, ?_⟩
  · have hok : (submitAnchor fixedPrimitives ⟨0x5e, 0⟩ 1 7 9 []
        (run fixedPrimitives staleRun ⟨deployed, []⟩).contract).isOk = true := by decide +kernel
    cases hres : submitAnchor fixedPrimitives ⟨0x5e, 0⟩ 1 7 9 []
        (run fixedPrimitives staleRun ⟨deployed, []⟩).contract with
    | error e => rw [hres] at hok; cases hok
    | ok res => exact ⟨res, rfl⟩
  · rintro ⟨endorsers, hcard, hall⟩
    have hthreshold : (run fixedPrimitives staleRun ⟨deployed, []⟩).contract.anchorThreshold = 1 := by
      decide +kernel
    have htrace : (run fixedPrimitives staleRun ⟨deployed, []⟩).trace =
        [⟨0, .event (.anchorValidatorUpdated 0xf1 true)⟩,
          ⟨0, .event (.anchorApproved 1 7 9 0xfe 1)⟩,
          ⟨0, .event (.anchorValidatorUpdated 0xfe false)⟩] := by decide +kernel
    have hremoved : (run fixedPrimitives staleRun ⟨deployed, []⟩).contract.anchorValidators 0xfe =
        false := by decide +kernel
    rw [hthreshold] at hcard
    obtain ⟨a, ha⟩ := Finset.card_pos.mp hcard
    obtain ⟨hval, ⟨time, n, hmem⟩ | ⟨-, i, hi, -⟩⟩ := hall a ha
    · rw [htrace] at hmem
      simp only [List.mem_cons, Entry.mk.injEq, Item.event.injEq, Event.anchorApproved.injEq,
        reduceCtorEq, and_false, false_or, List.not_mem_nil, or_false] at hmem
      rw [hmem.2.2.2.2.1, hremoved] at hval
      cases hval
    · exact absurd hi (by simp)

end BhtBhte.Settlement
