import BhtBhte.Withdrawal.Validator

/-!
# The escape hatch

In emergency mode a proof pays out when its first eight bytes are the number of a block that was
anchored.  The address and the amount are not read from it, and no payment is remembered.  So a
proof pays once only where it never pays (`paidOnce_iff_unanchored`).
-/
namespace BhtBhte.Withdrawal

def emergencyWindowSeconds : UInt64 := 24 * 60 * 60

/-- The verifier: the last anchors, and whether there is an emergency. -/
structure CEscapeHatchVerifier where
  mHistoricalRoots : List L2StateRoot := []
  mLastAnchorTime : UInt64 := 0
  mEmergencyMode : Bool := false

namespace CEscapeHatchVerifier

/-- Keep an anchor; above 10000 the oldest is dropped. -/
def recordAnchor (v : CEscapeHatchVerifier) (root : L2StateRoot) : CEscapeHatchVerifier :=
  let roots := v.mHistoricalRoots ++ [root]
  { v with mHistoricalRoots := if roots.length > 10000 then roots.tail else roots
           mLastAnchorTime := root.timestamp }

/-- The last anchor is not older than the window. -/
def checkLiveness (v : CEscapeHatchVerifier) (currentTime : UInt64) : Bool :=
  if currentTime - v.mLastAnchorTime > emergencyWindowSeconds then false else true

/-- The block number that a proof starts with. -/
def proofBlockNumber (l2Proof : Bytes) : UInt64 := readLE (l2Proof.take 8)

/-- A proof is checked by its length and the block that it names. -/
def verifyEscapeProof (v : CEscapeHatchVerifier) (l2Proof bhcAddress : Bytes) : Bool :=
  if l2Proof.length < 64 then false
  else if bhcAddress.length ≠ 25 then false
  else v.mHistoricalRoots.any fun root =>
    root.blockHeight == proofBlockNumber l2Proof && root.confirmed

/-- An emergency begins. -/
def triggerEmergencyMode (v : CEscapeHatchVerifier) : CEscapeHatchVerifier :=
  { v with mEmergencyMode := true }

/-- The payment, if there is one, and the verifier behind it. -/
def executeEmergencyWithdrawal (sha256 : Bytes → Bytes) (v : CEscapeHatchVerifier)
    (l2Proof bhcAddress : Bytes) (amount : UInt64) : Option Bytes × CEscapeHatchVerifier :=
  if !v.mEmergencyMode then (none, v)
  else if !v.verifyEscapeProof l2Proof bhcAddress then (none, v)
  else (some (sha256 (l2Proof ++ bhcAddress ++ amountBytes amount)), v)

end CEscapeHatchVerifier

open CEscapeHatchVerifier

/-- The verifier in emergency mode, after a list of anchors. -/
def inEmergency (anchors : List L2StateRoot) : CEscapeHatchVerifier :=
  (anchors.foldl recordAnchor {}).triggerEmergencyMode

/-- The proof pays out. -/
def Accepts (sha256 : Bytes → Bytes) (v : CEscapeHatchVerifier) (l2Proof bhcAddress : Bytes)
    (amount : UInt64) : Prop :=
  (executeEmergencyWithdrawal sha256 v l2Proof bhcAddress amount).1.isSome = true

/-- What pays an amount to an address pays nothing else afterwards, nor the same again. -/
def PaidOnce (sha256 : Bytes → Bytes) (v : CEscapeHatchVerifier) (l2Proof : Bytes) : Prop :=
  ∀ bhcAddress amount, Accepts sha256 v l2Proof bhcAddress amount →
    let v' := (executeEmergencyWithdrawal sha256 v l2Proof bhcAddress amount).2
    (∀ bhcAddress' amount', (bhcAddress', amount') ≠ (bhcAddress, amount) →
      ¬ Accepts sha256 v' l2Proof bhcAddress' amount') ∧
    ¬ Accepts sha256 v' l2Proof bhcAddress amount

section Escape
variable {sha256 : Bytes → Bytes} {v : CEscapeHatchVerifier} {l2Proof : Bytes}

/-- The last 10000 anchors are kept. -/
theorem historicalRoots_recordAnchors (anchors : List L2StateRoot) :
    (anchors.foldl recordAnchor {}).mHistoricalRoots = anchors.drop (anchors.length - 10000) := by
  induction anchors using List.reverseRecOn with
  | nil => rfl
  | append_singleton anchors root ih =>
      rw [List.foldl_append, List.foldl_cons, List.foldl_nil, recordAnchor]
      dsimp only
      rw [ih, List.length_append, List.length_drop, List.length_append, List.length_singleton]
      split_ifs with hfull
      · -- the oldest of the roots goes
        have hstep : anchors.length + 1 - 10000 = anchors.length - 10000 + 1 := by omega
        rw [List.tail_append_of_ne_nil, List.tail_drop, hstep,
          List.drop_append_of_le_length (by omega)]
        exact List.ne_nil_of_length_pos (by rw [List.length_drop]; omega)
      · rw [List.drop_append_of_le_length (by omega), show anchors.length + 1 - 10000 =
          anchors.length - 10000 by omega]

theorem accepts_escape_iff (hmode : v.mEmergencyMode = true) {bhcAddress : Bytes}
    {amount : UInt64} :
    Accepts sha256 v l2Proof bhcAddress amount ↔
      64 ≤ l2Proof.length ∧ bhcAddress.length = 25 ∧
        ∃ root ∈ v.mHistoricalRoots, root.confirmed = true ∧
          root.blockHeight = proofBlockNumber l2Proof := by
  rw [Accepts, executeEmergencyWithdrawal, verifyEscapeProof, hmode]
  split_ifs with h₁ h₂ h₃ <;> simp_all [and_comm]

/-- A proof that pays one address pays every address any amount. -/
theorem accepts_escape_any (hmode : v.mEmergencyMode = true) {bhcAddress bhcAddress' : Bytes}
    {amount : UInt64} (h : Accepts sha256 v l2Proof bhcAddress amount) (amount' : UInt64)
    (hlength : bhcAddress'.length = 25) : Accepts sha256 v l2Proof bhcAddress' amount' := by
  rw [accepts_escape_iff hmode] at h ⊢
  exact ⟨h.1, hlength, h.2.2⟩

theorem executeEmergencyWithdrawal_snd (bhcAddress : Bytes) (amount : UInt64) :
    (executeEmergencyWithdrawal sha256 v l2Proof bhcAddress amount).2 = v := by
  unfold executeEmergencyWithdrawal
  split_ifs <;> rfl

end Escape

/-- **A proof pays once only where it never pays.** -/
theorem paidOnce_iff_unanchored (sha256 : Bytes → Bytes) (anchors : List L2StateRoot)
    (l2Proof : Bytes) :
    PaidOnce sha256 (inEmergency anchors) l2Proof ↔
      l2Proof.length < 64 ∨ ∀ root ∈ anchors.drop (anchors.length - 10000),
        root.confirmed = true → root.blockHeight ≠ proofBlockNumber l2Proof := by
  have hmode : (inEmergency anchors).mEmergencyMode = true := rfl
  have hroots : (inEmergency anchors).mHistoricalRoots =
    anchors.drop (anchors.length - 10000) := historicalRoots_recordAnchors anchors
  simp only [PaidOnce, executeEmergencyWithdrawal_snd, accepts_escape_iff hmode, hroots]
  constructor
  · intro honce
    by_contra hcond
    simp only [not_or, not_lt, not_forall, not_not] at hcond
    obtain ⟨hlong, root, hmem, hconfirmed, hheight⟩ := hcond
    have hpays := (⟨hlong, List.length_replicate, root, hmem, hconfirmed, hheight⟩ :
      64 ≤ l2Proof.length ∧ (List.replicate 25 (0 : UInt8)).length = 25 ∧
        ∃ root ∈ anchors.drop (anchors.length - 10000), root.confirmed = true ∧
          root.blockHeight = proofBlockNumber l2Proof)
    exact (honce (List.replicate 25 0) 0 hpays).2 hpays
  · rintro hcond bhcAddress amount ⟨hlong, -, root, hmem, hconfirmed, hheight⟩
    exfalso
    rcases hcond with hshort | hnone
    · omega
    · exact hnone root hmem hconfirmed hheight

/-- A proof that is the number of an anchored block and nothing else. -/
def bareProof : Bytes := 7 :: List.replicate 63 0

def bareAnchor : L2StateRoot where
  blockHeight := 7
  stateRoot := [1]
  timestamp := 0
  anchorTxHash := []
  confirmed := true

/-- It pays two addresses two amounts. -/
theorem not_paidOnce_bareProof : ¬ PaidOnce id (inEmergency [bareAnchor]) bareProof := by
  intro honce
  have hpays : ∀ address : Bytes, address.length = 25 → ∀ amount,
      Accepts id (inEmergency [bareAnchor]) bareProof address amount := fun address hlen _ =>
    (accepts_escape_iff rfl).mpr ⟨by decide, hlen, bareAnchor, List.mem_singleton_self _, rfl,
      by decide⟩
  have hother := (honce (List.replicate 25 1) 1 (hpays _ List.length_replicate 1)).1
    (List.replicate 25 2) 1000 (by decide)
  rw [executeEmergencyWithdrawal_snd] at hother
  exact hother (hpays _ List.length_replicate 1000)

end BhtBhte.Withdrawal
