import BhtBhte.Lib.Lists
import BhtBhte.Script.HybridSig

/-!
# The withdrawal script

`withdrawal_script.cpp`: the validator keeps the withdrawals of an epoch in a vector and finds
them by the first match of an identifier that only commits to the transaction, the recipient
and the amount.  The SHA-256 and the ML-DSA verifier that it calls are not part of the
repository and are parameters; the clock is an argument.
-/
namespace BhtBhte.Withdrawal

open BhtBhte.Lib
open BhtBhte.Script (MldsaLevel)

abbrev Bytes := List UInt8

def challengePeriodSeconds : UInt64 := 7 * 24 * 60 * 60
def maxWithdrawalDelay : UInt64 := 24 * 60 * 60

inductive WithdrawalStatus where
  | pending
  | challenged
  | approved
  | executed
  | expired
  | fraudulent
  deriving DecidableEq, Repr

structure MerkleProof where
  siblings : List Bytes
  path : UInt32
  leafHash : Bytes
  deriving DecidableEq, Repr

structure L2StateRoot where
  blockHeight : UInt64
  stateRoot : Bytes
  timestamp : UInt64
  anchorTxHash : Bytes
  confirmed : Bool
  deriving DecidableEq, Repr

/-- A request with its proof and its signature. -/
structure WithdrawalRequest where
  recipientBhcAddress : Bytes
  amount : UInt64
  l2BlockNumber : UInt64
  l2TransactionHash : Bytes
  stateRoot : L2StateRoot
  merkleProof : MerkleProof
  signature : Bytes
  mldsaPubkey : Bytes
  requestTimestamp : UInt64
  status : WithdrawalStatus
  challengeEndTime : UInt64
  challengeReason : Bytes
  deriving DecidableEq, Repr

structure FraudProof where
  l2BlockHash : Bytes
  correctStateTransitionProof : Bytes
  fraudsterPubkey : Bytes
  fraudsterSignature : Bytes
  timestamp : UInt64
  deriving DecidableEq, Repr

/-- `CSHA256::Hash`, and `CMLDSA` at a level. -/
structure Primitives where
  sha256 : Bytes → Bytes
  importPublicKey : MldsaLevel → Bytes → Bool
  /-- The message, the signature and the key. -/
  verifyDetached : MldsaLevel → Bytes → Bytes → Bytes → Bool

/-- The withdrawals of the epoch, the anchored roots and the fraud proofs. -/
structure CWithdrawalValidator where
  mMldsaLevel : MldsaLevel := .level3
  mAnchoredRoots : List L2StateRoot := []
  mPendingWithdrawals : List WithdrawalRequest := []
  mFraudProofs : List FraudProof := []

/-- The eight bytes of an integer, least significant first. -/
def amountBytes (amount : UInt64) : Bytes :=
  (List.range 8).map fun i => (amount >>> (8 * i).toUInt64).toUInt8

/-- An integer from bytes, least significant first. -/
def readLE (data : Bytes) : UInt64 := data.foldr (fun b acc => b.toUInt64 ||| (acc <<< 8)) 0

section Validator
variable (P : Primitives)

/-- The identifier commits to the transaction, the recipient and the amount only. -/
def calculateWithdrawalId (request : WithdrawalRequest) : Bytes :=
  P.sha256 (request.l2TransactionHash ++ request.recipientBhcAddress ++
    amountBytes request.amount)

/-- The loop over the siblings; a shift by more than 31 counts modulo 32. -/
def merkleLoop (path : UInt32) : ℕ → List Bytes → Bytes → Option Bytes
  | _, [], currentHash => some currentHash
  | i, sibling :: siblings, currentHash =>
    if sibling.length ≠ 32 then none
    else
      let bit := (path >>> UInt32.ofNat i) &&& 1
      let combined := if bit = 0 then currentHash ++ sibling else sibling ++ currentHash
      merkleLoop path (i + 1) siblings (P.sha256 combined)

/-- A branch leads to a root. -/
def verifyMerkleProof (proof : MerkleProof) (expectedRoot : Bytes) : Bool :=
  if proof.siblings.isEmpty || proof.leafHash.length ≠ 32 then false
  else merkleLoop P proof.path 0 proof.siblings proof.leafHash == some expectedRoot

namespace CWithdrawalValidator

def verifyStateRootAnchor (v : CWithdrawalValidator) (stateRoot : L2StateRoot) : Bool :=
  v.mAnchoredRoots.any fun anchored =>
    anchored.blockHeight == stateRoot.blockHeight && anchored.stateRoot == stateRoot.stateRoot &&
      anchored.confirmed

def verifyWithdrawalSignature (v : CWithdrawalValidator) (request : WithdrawalRequest) : Bool :=
  let message := calculateWithdrawalId P request
  if !P.importPublicKey v.mMldsaLevel request.mldsaPubkey then false
  else P.verifyDetached v.mMldsaLevel message request.signature request.mldsaPubkey

def verifyFraudProof (v : CWithdrawalValidator) (proof : FraudProof) : Bool :=
  if !P.importPublicKey v.mMldsaLevel proof.fraudsterPubkey then false
  else P.verifyDetached v.mMldsaLevel proof.l2BlockHash proof.fraudsterSignature
    proof.fraudsterPubkey

/-- Begin an epoch: forget the withdrawals of the last one. -/
def initWithdrawalEpoch (v : CWithdrawalValidator) (now : UInt64) (initialStateRoot : Bytes)
    (startBlockHeight : UInt64) : Bool × CWithdrawalValidator :=
  let epochRoot : L2StateRoot :=
    { blockHeight := startBlockHeight, stateRoot := initialStateRoot, timestamp := now,
      anchorTxHash := List.replicate 32 0, confirmed := true }
  (true, { v with mAnchoredRoots := [epochRoot], mPendingWithdrawals := [], mFraudProofs := [] })

/-- Keep a signed request whose root is anchored. -/
def submitWithdrawal (v : CWithdrawalValidator) (request : WithdrawalRequest) :
    Bool × CWithdrawalValidator :=
  if !v.verifyWithdrawalSignature P request then (false, v)
  else if !v.verifyStateRootAnchor request.stateRoot then (false, v)
  else
    let request := { request with status := .pending }
    (true, { v with mPendingWithdrawals := v.mPendingWithdrawals ++ [request] })

/-- The first withdrawal with an identifier, and where it lies. -/
def lookup (v : CWithdrawalValidator) (withdrawalHash : Bytes) :
    Option (ℕ × WithdrawalRequest) :=
  firstMatch (fun r => calculateWithdrawalId P r == withdrawalHash) v.mPendingWithdrawals

/-- A withdrawal is written back. -/
def store (v : CWithdrawalValidator) (i : ℕ) (request : WithdrawalRequest) :
    CWithdrawalValidator :=
  { v with mPendingWithdrawals := v.mPendingWithdrawals.set i request }

/-- Challenge a withdrawal with a fraud proof, whatever its status. -/
def challengeWithdrawal (v : CWithdrawalValidator) (withdrawalHash : Bytes)
    (fraudProof : FraudProof) : Bool × CWithdrawalValidator :=
  match v.lookup P withdrawalHash with
  | none => (false, v)
  | some (i, request) =>
    if !v.verifyFraudProof P fraudProof then (false, v)
    else
      let v := v.store i { request with status := .challenged,
                                        challengeReason := fraudProof.correctStateTransitionProof }
      (true, { v with mFraudProofs := v.mFraudProofs ++ [fraudProof] })

/-- Approve a pending withdrawal whose time has come. -/
def approveWithdrawal (v : CWithdrawalValidator) (now : UInt64) (withdrawalHash : Bytes) :
    Bool × CWithdrawalValidator :=
  match v.lookup P withdrawalHash with
  | none => (false, v)
  | some (i, request) =>
    if request.status ≠ .pending then (false, v)
    else if now < request.challengeEndTime then (false, v)
    else (true, v.store i { request with status := .approved })

/-- Execute an approved withdrawal. -/
def executeWithdrawal (v : CWithdrawalValidator) (withdrawalHash : Bytes) :
    Bool × CWithdrawalValidator :=
  match v.lookup P withdrawalHash with
  | none => (false, v)
  | some (i, request) =>
    if request.status ≠ .approved then (false, v)
    else if request.amount > maxWithdrawalDelay then (false, v)
    else (true, v.store i { request with status := .executed })

/-- The loop goes on past a match in another state. -/
def expireWithdrawal (v : CWithdrawalValidator) (withdrawalHash : Bytes) :
    Bool × CWithdrawalValidator :=
  match firstMatch (fun r => calculateWithdrawalId P r == withdrawalHash &&
      (r.status == .pending || r.status == .challenged)) v.mPendingWithdrawals with
  | none => (false, v)
  | some (i, request) => (true, v.store i { request with status := .expired })

def getWithdrawalStatus (v : CWithdrawalValidator) (withdrawalHash : Bytes) : WithdrawalStatus :=
  match v.lookup P withdrawalHash with
  | none => .expired
  | some (_, request) => request.status

def getPendingWithdrawals (v : CWithdrawalValidator) : List WithdrawalRequest :=
  v.mPendingWithdrawals.filter fun r => r.status == .pending

/-- Some withdrawal with the identifier is pending and its time has come. -/
def isWithdrawalReady (v : CWithdrawalValidator) (now : UInt64) (withdrawalHash : Bytes) : Bool :=
  v.mPendingWithdrawals.any fun r => calculateWithdrawalId P r == withdrawalHash &&
    (r.status == .pending && decide (r.challengeEndTime ≤ now))

end CWithdrawalValidator
end Validator

/-- The fields of a raw request.  `memory` is what the members held that are not assigned;
a read behind the end, which C++ leaves undefined, gives nothing here. -/
def parseWithdrawalRequest (memory : WithdrawalRequest) (rawRequest : Bytes) :
    Option WithdrawalRequest :=
  if rawRequest.length < 128 then none
  else
    let count := (readLE (slice rawRequest 73 4)).toNat
    let signatureAt := 77 + 32 * count
    let requestTimestamp := readLE (slice rawRequest (signatureAt + 3293 + 1952) 8)
    if rawRequest.length < signatureAt + 3293 + 1952 + 8 then none
    else some
      { memory with
        recipientBhcAddress := slice rawRequest 0 25
        amount := readLE (slice rawRequest 25 8)
        l2BlockNumber := readLE (slice rawRequest 33 8)
        l2TransactionHash := slice rawRequest 41 32
        stateRoot := { memory.stateRoot with stateRoot := [], anchorTxHash := [] }
        merkleProof :=
          { siblings := (List.range count).map fun i => slice rawRequest (77 + 32 * i) 32
            path := memory.merkleProof.path
            leafHash := [] }
        signature := slice rawRequest signatureAt 3293
        mldsaPubkey := slice rawRequest (signatureAt + 3293) 1952
        requestTimestamp := requestTimestamp
        status := .pending
        challengeEndTime := requestTimestamp + challengePeriodSeconds
        challengeReason := [] }

end BhtBhte.Withdrawal
