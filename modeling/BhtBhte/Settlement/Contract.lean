import Mathlib.Algebra.Ring.Nat
import Mathlib.Logic.Function.Basic
import Mathlib.Tactic.Common

/-!
# The settlement contract

The storage of `BHTEsettlement` and its entry points, one definition each.  An
entry point either reverts with a reason or returns the new storage and the events
it emits; `processWithdrawal` is cut at its external call into the part before it
and the part after it.  Solidity mappings are total functions and `uint256`
arithmetic is checked, as the compiler emits it.  `keccak256` and `ecrecover` are
parameters; `Ownable` and `ReentrancyGuard` are the two base contracts, with their
storage in `owner` and `entered`.
-/
namespace BhtBhte.Settlement

abbrev Address := BitVec 160
abbrev Bytes32 := BitVec 256

/-- The primitives of the virtual machine the contract uses. -/
structure Primitives where
  keccak256 : List UInt8 → Bytes32
  ecrecover : Bytes32 → UInt8 → Bytes32 → Bytes32 → Address

/-- An anchored state root. -/
structure AnchorRecord where
  stateRoot : Bytes32 := 0
  blockHeight : ℕ := 0
  timestamp : ℕ := 0
  txHash : Bytes32 := 0
  verified : Bool := false
  deriving DecidableEq

/-- A withdrawal, pending until it is processed. -/
structure WithdrawalRequest where
  recipient : Address := 0
  amount : ℕ := 0
  l2TxHash : Bytes32 := 0
  anchorHeight : ℕ := 0
  challengeDeadline : ℕ := 0
  processed : Bool := false
  challenged : Bool := false
  deriving DecidableEq

structure FraudProof where
  invalidStateRoot : Bytes32 := 0
  validStateRoot : Bytes32 := 0
  blockHeight : ℕ := 0
  challenger : Address := 0
  proof : List UInt8 := []
  resolved : Bool := false
  isFraud : Bool := false
  deriving DecidableEq

def challengePeriod : ℕ := 7 * 24 * 60 * 60
def maxPendingWithdrawals : ℕ := 1000
def mldsaSignatureLen : ℕ := 3309
def mldsaPubkeyLen : ℕ := 1952

/-- The contract's storage and its ether balance. -/
structure State where
  anchors : ℕ → AnchorRecord
  withdrawals : Bytes32 → WithdrawalRequest
  fraudProofs : ℕ → FraudProof
  verifiedMLDSACommitments : Bytes32 → Bool
  anchorProofHashes : ℕ → Bytes32
  anchorValidators : Address → Bool
  anchorApprovalCount : Bytes32 → ℕ
  anchorApprovals : Bytes32 → Address → Bool
  latestAnchorHeight : ℕ
  totalAnchors : ℕ
  totalWithdrawals : ℕ
  pendingWithdrawals : ℕ
  anchorValidatorCount : ℕ
  anchorThreshold : ℕ
  bhcBridge : Address
  l2Sequencer : Address
  verifier : Address
  paused : Bool
  owner : Address
  entered : Bool
  balance : ℕ

/-- The events of the contract. -/
inductive Event where
  | anchorSubmitted (blockHeight : ℕ) (stateRoot txHash proofHash : Bytes32) (timestamp : ℕ)
  | anchorApproved (blockHeight : ℕ) (stateRoot txHash : Bytes32) (validator : Address)
      (approvals : ℕ)
  | withdrawalInitiated (l2TxHash : Bytes32) (recipient : Address) (amount anchorHeight
      challengeDeadline : ℕ)
  | withdrawalProcessed (l2TxHash : Bytes32) (recipient : Address) (amount : ℕ)
  | withdrawalChallenged (l2TxHash : Bytes32) (challenger : Address) (reason : String)
  | fraudProofSubmitted (blockHeight : ℕ) (challenger : Address) (invalidStateRoot : Bytes32)
  | fraudProofResolved (blockHeight : ℕ) (isFraud : Bool) (challenger : Address)
  | bridgeUpdated (oldBridge newBridge : Address)
  | sequencerUpdated (oldSequencer newSequencer : Address)
  | anchorValidatorUpdated (validator : Address) (enabled : Bool)
  | anchorThresholdUpdated (oldThreshold newThreshold : ℕ)
  | contractPaused (by' : Address)
  | contractUnpaused (by' : Address)
  | ownershipTransferred (previousOwner newOwner : Address)
  deriving DecidableEq

/-- `msg.sender` and `block.timestamp` of a call. -/
structure Msg where
  sender : Address
  timestamp : ℕ

/-! ## Reverts and checked arithmetic -/

/-- Revert with a reason unless the condition holds. -/
def require (c : Prop) [Decidable c] (reason : String) : Except String Unit :=
  if c then .ok () else .error reason

/-- `uint256` addition; overflow is `Panic(0x11)`. -/
def checkedAdd (a b : ℕ) : Except String ℕ :=
  if a + b < 2 ^ 256 then .ok (a + b) else .error "Panic(0x11)"

/-- A checked subtraction. -/
def checkedSub (a b : ℕ) : Except String ℕ :=
  if b ≤ a then .ok (a - b) else .error "Panic(0x11)"

section Revert
variable {α β : Type}

@[simp] theorem require_bind_eq_ok {c : Prop} [Decidable c] {reason : String}
    {f : Unit → Except String α} {a : α} :
    (require c reason >>= f) = .ok a ↔ c ∧ f () = .ok a := by
  by_cases hc : c <;> simp [require, hc, bind, Except.bind]

@[simp] theorem checkedAdd_bind_eq_ok {x y : ℕ} {f : ℕ → Except String α} {a : α} :
    (checkedAdd x y >>= f) = .ok a ↔ x + y < 2 ^ 256 ∧ f (x + y) = .ok a := by
  rw [checkedAdd]
  split
  · next hlt => exact ⟨fun hf => ⟨hlt, hf⟩, fun hf => hf.2⟩
  · next hge => exact ⟨fun hf => (by cases hf), fun hf => absurd hf.1 hge⟩

@[simp] theorem checkedSub_bind_eq_ok {x y : ℕ} {f : ℕ → Except String α} {a : α} :
    (checkedSub x y >>= f) = .ok a ↔ y ≤ x ∧ f (x - y) = .ok a := by
  by_cases hc : y ≤ x <;> simp [checkedSub, hc, bind, Except.bind]

@[simp] theorem require_bind_eq_error {c : Prop} [Decidable c] {reason : String}
    {f : Unit → Except String α} {e : String} :
    (require c reason >>= f) = .error e ↔ (¬ c ∧ reason = e) ∨ (c ∧ f () = .error e) := by
  by_cases hc : c <;> simp [require, hc, bind, Except.bind]

@[simp] theorem checkedSub_bind_eq_error {x y : ℕ} {f : ℕ → Except String α} {e : String} :
    (checkedSub x y >>= f) = .error e ↔
      (¬ y ≤ x ∧ "Panic(0x11)" = e) ∨ (y ≤ x ∧ f (x - y) = .error e) := by
  by_cases hc : y ≤ x <;> simp [checkedSub, hc, bind, Except.bind]

@[simp] theorem pure_ne_error {a : α} {e : String} : (pure a : Except String α) ≠ .error e := by
  simp [pure, Except.pure]

@[simp] theorem pure_eq_ok {a b : α} : (pure a : Except String α) = .ok b ↔ a = b := by
  simp [pure, Except.pure]

end Revert

/-! ## Packed encodings -/

/-- The 32 bytes of a word, most significant first. -/
def wordBytes (w : Bytes32) : List UInt8 :=
  (List.range 32).map fun i => UInt8.ofNat (w.toNat / 256 ^ (31 - i))

/-- The word at a byte offset; bytes past the end read as zero. -/
def wordAt (bs : List UInt8) (offset : ℕ) : Bytes32 :=
  BitVec.ofNat 256 ((List.range 32).foldl
    (fun acc i => acc * 256 + (bs.getD (offset + i) 0).toNat) 0)

/-- The bytes of a string literal. -/
def literalBytes (s : String) : List UInt8 := s.toUTF8.toList

section
variable (P : Primitives)

/-- What an anchor identifier begins with. -/
def domainSeparator : Bytes32 := P.keccak256 (literalBytes "BHTE_L2_SETTLEMENT_V1")

/-- The hash that validators approve. -/
def anchorId (blockHeight : ℕ) (stateRoot txHash : Bytes32) : Bytes32 :=
  P.keccak256 (wordBytes (domainSeparator P) ++ wordBytes (BitVec.ofNat 256 blockHeight) ++
    wordBytes stateRoot ++ wordBytes txHash)

/-! ## Anchor proofs -/

/-- The signer of one of the signatures that stand one after the other. -/
def recoverSigner (signatures : List UInt8) (offset : ℕ) (digest : Bytes32) : Address :=
  let r := wordAt signatures offset
  let s := wordAt signatures (offset + 32)
  let v := signatures.getD (offset + 64) 0
  let v := if v < 27 then v + 27 else v
  if v ≠ 27 ∧ v ≠ 28 then 0 else P.ecrecover digest v r s

/-- The signature loop of `_verifyAnchorProof` from index `i` with `n` signatures
left.  `seen` holds the signers counted so far. -/
def countSignatures (c : State) (id ethSigned : Bytes32) (proof : List UInt8) :
    ℕ → ℕ → List Address → ℕ → Bool
  | 0, _, _, _ => false
  | n + 1, i, seen, approvals =>
    let recovered := recoverSigner P proof (i * 65) ethSigned
    if recovered ≠ 0 ∧ c.anchorValidators recovered ∧ !c.anchorApprovals id recovered ∧
        recovered ∉ seen then
      if approvals + 1 ≥ c.anchorThreshold then true
      else countSignatures c id ethSigned proof n (i + 1) (seen ++ [recovered]) (approvals + 1)
    else countSignatures c id ethSigned proof n (i + 1) seen approvals

/-- Enough validators approved an anchor, on the chain or by a signature. -/
def verifyAnchorProof (c : State) (blockHeight : ℕ) (stateRoot txHash : Bytes32)
    (proof : List UInt8) : Bool :=
  if blockHeight = 0 ∨ stateRoot = 0 ∨ c.anchorThreshold = 0 then false
  else
    let id := anchorId P blockHeight stateRoot txHash
    let approvals := c.anchorApprovalCount id
    if approvals ≥ c.anchorThreshold then true
    else if proof.length = 0 ∨ proof.length % 65 ≠ 0 then false
    else
      let digest := anchorId P blockHeight stateRoot txHash
      let ethSigned := P.keccak256
        (literalBytes "\x19Ethereum Signed Message:\n32" ++ wordBytes digest)
      countSignatures P c id ethSigned proof (proof.length / 65) 0 [] approvals

/-! ## Merkle proofs -/

/-- The loop of `_verifyMerkleProof`: one sibling per level, left or right of the
running hash by the parity of the index. -/
def merkleFold : Bytes32 → List Bytes32 → ℕ → Bytes32
  | hash, [], _ => hash
  | hash, sibling :: proof, index =>
    let parent := if index % 2 = 0 then P.keccak256 (wordBytes hash ++ wordBytes sibling)
      else P.keccak256 (wordBytes sibling ++ wordBytes hash)
    merkleFold parent proof (index / 2)

/-- A leaf is below the state root anchored at a height. -/
def verifyMerkleProof (c : State) (leaf : Bytes32) (proof : List Bytes32)
    (index anchorHeight : ℕ) : Bool :=
  let anchor := c.anchors anchorHeight
  if !anchor.verified then false
  else merkleFold P leaf proof index = anchor.stateRoot

end

/-! ## Construction -/

/-- The contract when it is deployed. -/
def constructor (msg : Msg) (bhcBridge l2Sequencer verifier : Address) :
    Except String State := do
  require (bhcBridge ≠ 0) "Invalid bridge"
  require (l2Sequencer ≠ 0) "Invalid sequencer"
  require (verifier ≠ 0) "Invalid verifier"
  pure
    { anchors := fun _ => {}, withdrawals := fun _ => {}, fraudProofs := fun _ => {}
      verifiedMLDSACommitments := fun _ => false, anchorProofHashes := fun _ => 0
      anchorValidators := Function.update (fun _ => false) verifier true
      anchorApprovalCount := fun _ => 0, anchorApprovals := fun _ _ => false
      latestAnchorHeight := 0, totalAnchors := 0, totalWithdrawals := 0
      pendingWithdrawals := 0, anchorValidatorCount := 1, anchorThreshold := 1
      bhcBridge := bhcBridge, l2Sequencer := l2Sequencer, verifier := verifier
      paused := false, owner := msg.sender, entered := false, balance := 0 }

/-! ## Entry points -/

section
variable (P : Primitives)

/-- A validator approves an anchor. -/
def approveAnchor (msg : Msg) (blockHeight : ℕ) (stateRoot txHash : Bytes32)
    (c : State) : Except String (State × List Event) := do
  require (c.anchorValidators msg.sender) "Only anchor validator can call"
  require (!c.paused) "Contract is paused"
  require (blockHeight > c.latestAnchorHeight) "Invalid block height"
  require (stateRoot ≠ 0) "Invalid state root"
  let id := anchorId P blockHeight stateRoot txHash
  require (!c.anchorApprovals id msg.sender) "Anchor already approved"
  let approvals ← checkedAdd (c.anchorApprovalCount id) 1
  pure ({ c with
      anchorApprovals := Function.update c.anchorApprovals id
        (Function.update (c.anchorApprovals id) msg.sender true)
      anchorApprovalCount := Function.update c.anchorApprovalCount id approvals },
    [.anchorApproved blockHeight stateRoot txHash msg.sender approvals])

/-- The guard is taken on entry and given back on return; nothing in the body hands
control out, so the two cancel. -/
def submitAnchor (msg : Msg) (blockHeight : ℕ) (stateRoot txHash : Bytes32)
    (proof : List UInt8) (c : State) : Except String (State × List Event) := do
  require (msg.sender = c.l2Sequencer) "Only sequencer can call"
  require (!c.paused) "Contract is paused"
  require (!c.entered) "ReentrancyGuardReentrantCall"
  require (blockHeight > c.latestAnchorHeight) "Invalid block height"
  require (stateRoot ≠ 0) "Invalid state root"
  require (verifyAnchorProof P c blockHeight stateRoot txHash proof) "Invalid proof"
  let proofHash := P.keccak256 proof
  let totalAnchors ← checkedAdd c.totalAnchors 1
  pure ({ c with
      anchors := Function.update c.anchors blockHeight
        { stateRoot := stateRoot, blockHeight := blockHeight, timestamp := msg.timestamp
          txHash := txHash, verified := true }
      anchorProofHashes := Function.update c.anchorProofHashes blockHeight proofHash
      latestAnchorHeight := blockHeight
      totalAnchors := totalAnchors },
    [.anchorSubmitted blockHeight stateRoot txHash proofHash msg.timestamp])

/-- A withdrawal that the anchored root proves becomes pending. -/
def initiateWithdrawal (msg : Msg) (l2TxHash : Bytes32) (recipient : Address) (amount
    anchorHeight : ℕ) (merkleProof : List Bytes32) (leafIndex : ℕ) (c : State) :
    Except String (State × List Event) := do
  require (!c.paused) "Contract is paused"
  require (!c.entered) "ReentrancyGuardReentrantCall"
  require (c.pendingWithdrawals < maxPendingWithdrawals) "Too many pending withdrawals"
  require (recipient ≠ 0) "Invalid recipient"
  require (amount > 0) "Invalid amount"
  require ((c.withdrawals l2TxHash).recipient = 0) "Withdrawal exists"
  require ((c.anchors anchorHeight).verified) "Anchor not verified"
  require (verifyMerkleProof P c l2TxHash merkleProof leafIndex anchorHeight)
    "Invalid merkle proof"
  let challengeDeadline ← checkedAdd msg.timestamp challengePeriod
  let pendingWithdrawals ← checkedAdd c.pendingWithdrawals 1
  let totalWithdrawals ← checkedAdd c.totalWithdrawals 1
  pure ({ c with
      withdrawals := Function.update c.withdrawals l2TxHash
        { recipient := recipient, amount := amount, l2TxHash := l2TxHash
          anchorHeight := anchorHeight, challengeDeadline := challengeDeadline
          processed := false, challenged := false }
      pendingWithdrawals := pendingWithdrawals
      totalWithdrawals := totalWithdrawals },
    [.withdrawalInitiated l2TxHash recipient amount anchorHeight challengeDeadline])

end

/-- `processWithdrawal` up to its external call.  The returned storage is the one
the recipient sees: the guard is taken, the flag is set, and the value has left the
balance. -/
def processWithdrawalEnter (msg : Msg) (l2TxHash : Bytes32) (c : State) :
    Except String State := do
  require (!c.paused) "Contract is paused"
  require (!c.entered) "ReentrancyGuardReentrantCall"
  let withdrawal := c.withdrawals l2TxHash
  require (withdrawal.recipient ≠ 0) "Withdrawal not found"
  require (!withdrawal.processed) "Already processed"
  require (!withdrawal.challenged) "Withdrawal challenged"
  require (msg.timestamp ≥ withdrawal.challengeDeadline) "Challenge period not over"
  let pendingWithdrawals ← checkedSub c.pendingWithdrawals 1
  require (withdrawal.amount ≤ c.balance) "Transfer failed"
  pure { c with
    entered := true
    withdrawals := Function.update c.withdrawals l2TxHash { withdrawal with processed := true }
    pendingWithdrawals := pendingWithdrawals
    balance := c.balance - withdrawal.amount }

/-- `processWithdrawal` after a successful external call: the event reads storage
again, and the guard is given back. -/
def processWithdrawalExit (l2TxHash : Bytes32) (c : State) : State × List Event :=
  let withdrawal := c.withdrawals l2TxHash
  ({ c with entered := false },
    [.withdrawalProcessed l2TxHash withdrawal.recipient withdrawal.amount])

/-- Whoever has evidence takes a pending withdrawal off before its deadline. -/
def challengeWithdrawal (msg : Msg) (l2TxHash : Bytes32) (reason : String)
    (evidence : List UInt8) (c : State) : Except String (State × List Event) := do
  require (!c.paused) "Contract is paused"
  let withdrawal := c.withdrawals l2TxHash
  require (withdrawal.recipient ≠ 0) "Withdrawal not found"
  require (!withdrawal.processed) "Already processed"
  require (!withdrawal.challenged) "Already challenged"
  require (msg.timestamp < withdrawal.challengeDeadline) "Challenge period over"
  require (evidence.length > 0) "Evidence required"
  let pendingWithdrawals ← checkedSub c.pendingWithdrawals 1
  pure ({ c with
      withdrawals := Function.update c.withdrawals l2TxHash { withdrawal with challenged := true }
      pendingWithdrawals := pendingWithdrawals },
    [.withdrawalChallenged l2TxHash msg.sender reason])

/-- Anybody submits a fraud proof against an anchor. -/
def submitFraudProof (msg : Msg) (blockHeight : ℕ) (invalidStateRoot validStateRoot : Bytes32)
    (proof : List UInt8) (c : State) : Except String (State × List Event) := do
  require (!c.paused) "Contract is paused"
  require ((c.anchors blockHeight).verified) "Block not anchored"
  require ((c.anchors blockHeight).stateRoot = invalidStateRoot) "State root mismatch"
  pure ({ c with
      fraudProofs := Function.update c.fraudProofs blockHeight
        { invalidStateRoot := invalidStateRoot, validStateRoot := validStateRoot
          blockHeight := blockHeight, challenger := msg.sender, proof := proof
          resolved := false, isFraud := false } },
    [.fraudProofSubmitted blockHeight msg.sender invalidStateRoot])

/-- `onlyOwner` of the base contract. -/
def onlyOwner (msg : Msg) (c : State) : Except String Unit :=
  require (msg.sender = c.owner) "OwnableUnauthorizedAccount"

/-- The owner resolves a fraud proof; a fraud takes the anchor back. -/
def resolveFraudProof (msg : Msg) (blockHeight : ℕ) (isFraud : Bool) (c : State) :
    Except String (State × List Event) := do
  onlyOwner msg c
  let fp := c.fraudProofs blockHeight
  require (fp.challenger ≠ 0) "Fraud proof not found"
  require (!fp.resolved) "Already resolved"
  let c' := { c with
    fraudProofs := Function.update c.fraudProofs blockHeight
      { fp with resolved := true, isFraud := isFraud } }
  let c'' := if isFraud then
      { c' with
        anchors := Function.update c'.anchors blockHeight
          { c'.anchors blockHeight with verified := false } }
    else c'
  pure (c'', [.fraudProofResolved blockHeight isFraud fp.challenger])

def updateBridge (msg : Msg) (newBridge : Address) (c : State) :
    Except String (State × List Event) := do
  onlyOwner msg c
  pure ({ c with bhcBridge := newBridge }, [.bridgeUpdated c.bhcBridge newBridge])

def updateSequencer (msg : Msg) (newSequencer : Address) (c : State) :
    Except String (State × List Event) := do
  onlyOwner msg c
  pure ({ c with l2Sequencer := newSequencer }, [.sequencerUpdated c.l2Sequencer newSequencer])

def setAnchorValidator (msg : Msg) (validator : Address) (enabled : Bool) (c : State) :
    Except String (State × List Event) := do
  onlyOwner msg c
  require (validator ≠ 0) "Invalid validator"
  if enabled && !c.anchorValidators validator then
    let count ← checkedAdd c.anchorValidatorCount 1
    pure ({ c with
        anchorValidators := Function.update c.anchorValidators validator true
        anchorValidatorCount := count },
      [.anchorValidatorUpdated validator enabled])
  else if !enabled && c.anchorValidators validator then
    require (c.anchorValidatorCount > 1) "Cannot remove last validator"
    let count ← checkedSub c.anchorValidatorCount 1
    require (c.anchorThreshold ≤ count) "Threshold too high"
    pure ({ c with
        anchorValidators := Function.update c.anchorValidators validator false
        anchorValidatorCount := count },
      [.anchorValidatorUpdated validator enabled])
  else pure (c, [.anchorValidatorUpdated validator enabled])

/-- The owner changes the threshold. -/
def setAnchorThreshold (msg : Msg) (newThreshold : ℕ) (c : State) :
    Except String (State × List Event) := do
  onlyOwner msg c
  require (newThreshold > 0) "Invalid threshold"
  require (newThreshold ≤ c.anchorValidatorCount) "Threshold too high"
  pure ({ c with anchorThreshold := newThreshold },
    [.anchorThresholdUpdated c.anchorThreshold newThreshold])

def pause (msg : Msg) (c : State) : Except String (State × List Event) := do
  onlyOwner msg c
  pure ({ c with paused := true }, [.contractPaused msg.sender])

def unpause (msg : Msg) (c : State) : Except String (State × List Event) := do
  onlyOwner msg c
  pure ({ c with paused := false }, [.contractUnpaused msg.sender])

/-- `transferOwnership` of the base contract. -/
def transferOwnership (msg : Msg) (newOwner : Address) (c : State) :
    Except String (State × List Event) := do
  onlyOwner msg c
  require (newOwner ≠ 0) "OwnableInvalidOwner"
  pure ({ c with owner := newOwner }, [.ownershipTransferred c.owner newOwner])

/-- `renounceOwnership` of the base contract. -/
def renounceOwnership (msg : Msg) (c : State) :
    Except String (State × List Event) := do
  onlyOwner msg c
  pure ({ c with owner := 0 }, [.ownershipTransferred c.owner 0])

section
variable (P : Primitives)

/-- The hash that is recorded for a verified signature. -/
def mldsaCommitment (message : Bytes32) (signature pubkey : List UInt8) : Bytes32 :=
  P.keccak256 (wordBytes message ++ signature ++ pubkey)

/-- The owner records a verified signature. -/
def addVerifiedMLDSACommitment (msg : Msg) (message : Bytes32) (signature pubkey : List UInt8)
    (c : State) : Except String (State × List Event) := do
  onlyOwner msg c
  require (signature.length = mldsaSignatureLen) "Invalid ML-DSA signature length"
  require (pubkey.length = mldsaPubkeyLen) "Invalid ML-DSA pubkey length"
  pure ({ c with
    verifiedMLDSACommitments := Function.update c.verifiedMLDSACommitments
      (mldsaCommitment P message signature pubkey) true }, [])

/-- The loop of `batchAddVerifiedMLDSACommitments` over the three arrays zipped. -/
def addCommitments : List (Bytes32 × List UInt8 × List UInt8) → (Bytes32 → Bool) →
    Except String (Bytes32 → Bool)
  | [], commitments => pure commitments
  | (message, signature, pubkey) :: rest, commitments => do
    require (signature.length = mldsaSignatureLen) "Invalid ML-DSA signature length"
    require (pubkey.length = mldsaPubkeyLen) "Invalid ML-DSA pubkey length"
    addCommitments rest
      (Function.update commitments (mldsaCommitment P message signature pubkey) true)

/-- The owner records several verified signatures. -/
def batchAddVerifiedMLDSACommitments (msg : Msg) (messages : List Bytes32)
    (signatures pubkeys : List (List UInt8)) (c : State) :
    Except String (State × List Event) := do
  onlyOwner msg c
  require (messages.length = signatures.length) "Array length mismatch"
  require (messages.length = pubkeys.length) "Array length mismatch"
  let commitments ← addCommitments P (messages.zip (signatures.zip pubkeys))
    c.verifiedMLDSACommitments
  pure ({ c with verifiedMLDSACommitments := commitments }, [])

end

/-- `receive` and `fallback`: ether sent to the contract stays there. -/
def receive (value : ℕ) (c : State) : Except String (State × List Event) :=
  pure ({ c with balance := c.balance + value }, [])

end BhtBhte.Settlement
