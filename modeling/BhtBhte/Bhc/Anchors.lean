import BhtBhte.Channel.Manager
import BhtBhte.Lib.FinMap
import BhtBhte.Lib.Rounds
import BhtBhte.Node.Platform

/-!
# Anchors read from the headers of L1

`AnchorVerifier` of `bhc/anchor.go`: one job fetches the headers near the tip and takes their
Merkle roots for state roots, another asks for the same headers again and marks an anchor as not
verified when they differ.  The node is a parameter; what it answers during one call is a
function of what it is asked.  Members of a header that nothing here reads are left out.
-/
namespace BhtBhte.Bhc

open BhtBhte.Lib
open BhtBhte.Channel (Hash hashHex decimal)
open BhtBhte.Node (hexToHash length_rightAlign)

/-- The depth below the tip at which a header counts. -/
def minConfirmations : UInt64 := 3

/-- `common.HexToHash`. -/
def hashOf (s : String) : Hash := ⟨hexToHash s, length_rightAlign 32 _⟩

/-- The time is in seconds. -/
structure AnchorRecord where
  blockHeight : UInt64
  stateRoot : Hash
  txHash : Hash
  timestamp : Int64
  verified : Bool
  deriving DecidableEq

structure BHCBlockHeader where
  hash : String := ""
  height : UInt64 := 0
  time : Int64 := 0
  merkleRoot : String := ""
  deriving DecidableEq

/-- What the node answers while a call runs. -/
structure Rpc where
  getBlockCount : Except String UInt64
  getBlockHeader : UInt64 → Except String BHCBlockHeader

/-- Anchors are kept under the number of their height. -/
structure AnchorVerifier where
  anchors : FinMap ℕ AnchorRecord
  latestHeight : UInt64

def newAnchorVerifier : AnchorVerifier where
  anchors := ∅
  latestHeight := 0

def getLatestHeight (rpc : Rpc) : Except String UInt64 :=
  match rpc.getBlockCount with
  | .error e => .error ("failed to get block count: " ++ e)
  | .ok height => .ok height

/-- The header at a height, as the node answers it. -/
def getBlockHeader (rpc : Rpc) (height : UInt64) : Except String BHCBlockHeader :=
  match rpc.getBlockHeader height with
  | .error e => .error ("failed to get block header: " ++ e)
  | .ok header => .ok header

/-- Whether a state root is the verified anchor of a height. -/
def verifyAnchor (stateRoot : Hash) (blockHeight : UInt64) (v : AnchorVerifier) :
    Except String Bool :=
  match v.anchors.get? blockHeight.toNat with
  | none => .error ("no anchor at height " ++ decimal blockHeight)
  | some anchor =>
    if !anchor.verified then .error ("anchor at height " ++ decimal blockHeight ++ " not verified")
    else if v.latestHeight - anchor.blockHeight < minConfirmations then
      .error ("insufficient confirmations: have " ++
        decimal (v.latestHeight - anchor.blockHeight) ++ ", need " ++ decimal minConfirmations)
    else .ok (anchor.stateRoot = stateRoot)

/-! ## Fetching -/

/-- The anchor that a header stands for: its Merkle root is taken for the state root. -/
def extractAnchorFromHeader (header : BHCBlockHeader) : AnchorRecord where
  blockHeight := header.height
  stateRoot := hashOf header.merkleRoot
  txHash := hashOf header.hash
  timestamp := header.time
  verified := true

/-- The error is only for the caller, who ignores it. -/
def fetchAnchorAtHeight (rpc : Rpc) (v : AnchorVerifier) (height : UInt64) : AnchorVerifier :=
  match getBlockHeader rpc height with
  | .error _ => v
  | .ok header =>
    { v with anchors := v.anchors.insert height.toNat (extractAnchorFromHeader header) }

/-- The height that `fetchLatestAnchors` starts from. -/
def fetchStart (latestHeight : UInt64) : UInt64 :=
  if latestHeight > 0 then latestHeight - minConfirmations else 0

/-- The heights that `fetchLatestAnchors` asks for. -/
def fetchedHeights (fuel : ℕ) (height : UInt64) : List UInt64 :=
  rounds fuel (fetchStart height) height

/-- One pass; `fuel` bounds its rounds, which never end when the node reports the last 64-bit
number. -/
def fetchLatestAnchors (rpc : Rpc) (fuel : ℕ) (v : AnchorVerifier) : AnchorVerifier :=
  match getLatestHeight rpc with
  | .error _ => v
  | .ok height =>
    (fetchedHeights fuel height).foldl (fetchAnchorAtHeight rpc) { v with latestHeight := height }

/-! ## Checking again -/

/-- The body of the loop of `verifyRecentAnchors`. -/
def recheckAnchor (rpc : Rpc) (v : AnchorVerifier) (h : UInt64) : AnchorVerifier :=
  match v.anchors.get? h.toNat with
  | none => v
  | some anchor =>
    match getBlockHeader rpc h with
    | .error _ => v
    | .ok header =>
      if header.merkleRoot ≠ hashHex anchor.stateRoot then
        { v with anchors := v.anchors.insert h.toNat { anchor with verified := false } }
      else v

/-- One pass of the second job: fetch the headers near the tip again and compare. -/
def verifyRecentAnchors (rpc : Rpc) (fuel : ℕ) (v : AnchorVerifier) : AnchorVerifier :=
  if v.latestHeight < minConfirmations then v
  else
    (rounds fuel (v.latestHeight - minConfirmations) v.latestHeight).foldl (recheckAnchor rpc) v

/-! ## Runs -/

inductive Op where
  | fetchLatestAnchors (rpc : Rpc) (fuel : ℕ)
  | verifyRecentAnchors (rpc : Rpc) (fuel : ℕ)

def Op.rpc : Op → Rpc
  | .fetchLatestAnchors rpc _ => rpc
  | .verifyRecentAnchors rpc _ => rpc

def exec : Op → AnchorVerifier → AnchorVerifier
  | .fetchLatestAnchors rpc fuel => Bhc.fetchLatestAnchors rpc fuel
  | .verifyRecentAnchors rpc fuel => Bhc.verifyRecentAnchors rpc fuel

def run (ops : List Op) (v : AnchorVerifier) : AnchorVerifier :=
  ops.foldl (fun v op => exec op v) v

end BhtBhte.Bhc
