import BhtBhte.Anchor.Records
import BhtBhte.Lib.Latest
import BhtBhte.Lib.Merkle

/-!
# Asking the state anchor verifier

`VerifyAnchorProof`, `GetLatestConfirmedAnchor` and `GetStats` of `bhc/anchor/state_anchor.go`.  A
proof is checked against the header at the height of the anchor on the first layer, and no function
writes that height.  So every proof is checked against the first block, and for a position in its
tree there is one root at most that is ever proved.  `verifyAnchorProof_unique` is the second half
of this, `getLatestConfirmedAnchor_spec` says which anchor is returned whatever the order of the
map, and `getStats_run` that the counts add up in every run.
-/
namespace BhtBhte.Anchor

open BhtBhte.Lib
open BhtBhte.Channel (Hash)

/-- The member of a header that is read. -/
structure BHCBlockHeader where
  merkleRoot : String

/-- No function of the verifier writes `BHCHeight`. -/
def L1Anchor.bhcHeight (_ : L1Anchor) : UInt64 := 0

/-- The anchor is confirmed or finalized. -/
def L1Anchor.Settled (anchor : L1Anchor) : Prop :=
  anchor.status = .statusConfirmed ∨ anchor.status = .statusFinalized

instance (anchor : L1Anchor) : Decidable anchor.Settled := inferInstanceAs (Decidable (_ ∨ _))

/-! ## Proofs -/

section
variable (sha256 : List UInt8 → Hash)

def sha256d (data : List UInt8) : Hash := sha256 (sha256 data).1

def concatHash (left right : Hash) : Hash := sha256d sha256 (left.1 ++ right.1)

/-- The loop of `computeMerkleRoot` from round `i`. -/
def foldProof (leafIndex : UInt64) : ℕ → Hash → List Hash → Hash
  | _, current, [] => current
  | i, current, sibling :: proof =>
    let next := if (leafIndex.toNat >>> i) % 2 = 0 then concatHash sha256 current sibling
      else concatHash sha256 sibling current
    foldProof leafIndex (i + 1) next proof

/-- The fold of a branch from a leaf, left or right by the bits of its index, printed in
hexadecimal. -/
def computeMerkleRoot (proof : List Hash) (leaf : Hash) (leafIndex : UInt64) : String :=
  String.ofList (hexEncode (foldProof sha256 leafIndex 0 leaf proof).1)

/-- `getBlockHeader` is the node. -/
def verifyAnchorProof (getBlockHeader : UInt64 → Except String BHCBlockHeader) (stateRoot : Hash)
    (merkleProof : List Hash) (leafIndex : UInt64) (v : AnchorVerifier) : Except String Bool :=
  match v.anchors.get? stateRoot with
  | none => .error "anchor not found for state root"
  | some anchor =>
    if anchor.status ≠ .statusConfirmed ∧ anchor.status ≠ .statusFinalized then
      .error "anchor not yet confirmed"
    else
      match getBlockHeader anchor.bhcHeight with
      | .error e => .error ("failed to get BHC block header: " ++ e)
      | .ok header =>
        .ok (computeMerkleRoot sha256 merkleProof stateRoot leafIndex = header.merkleRoot)

end

/-! ## The latest anchor -/

/-- One round of the loop of `GetLatestConfirmedAnchor`. -/
def newerAnchor (latest : Option L1Anchor × UInt64) (e : Hash × L1Anchor) :
    Option L1Anchor × UInt64 :=
  if e.2.status = .statusConfirmed ∨ e.2.status = .statusFinalized then
    match e.2.stateRoot with
    | none => latest
    | some stateRoot =>
      if stateRoot.blockHeight > latest.2 then (some e.2, stateRoot.blockHeight) else latest
  else latest

/-- `σ` is the order in which the map is ranged over. -/
def getLatestConfirmedAnchor (σ : RangeOrder) (v : AnchorVerifier) : Except String L1Anchor :=
  match ((v.anchors.range σ).foldl newerAnchor (none, 0)).1 with
  | none => .error "no confirmed anchors found"
  | some latest => .ok latest

/-- The counts; whether the verifier runs is left out. -/
structure AnchorStats where
  totalAnchors : UInt64
  pending : UInt64
  submitted : UInt64
  confirmed : UInt64
  challenged : UInt64
  finalized : UInt64
  deriving DecidableEq

/-- The body of the loop of `GetStats`. -/
def AnchorStats.count (stats : AnchorStats) (anchor : L1Anchor) : AnchorStats :=
  match anchor.status with
  | .statusPending => { stats with pending := stats.pending + 1 }
  | .statusSubmitted => { stats with submitted := stats.submitted + 1 }
  | .statusConfirmed => { stats with confirmed := stats.confirmed + 1 }
  | .statusChallenged => { stats with challenged := stats.challenged + 1 }
  | .statusFinalized => { stats with finalized := stats.finalized + 1 }

def getStats (v : AnchorVerifier) : AnchorStats :=
  (v.anchors.entries.map Prod.snd).foldl AnchorStats.count
    { totalAnchors := UInt64.ofNat v.anchors.entries.length
      pending := 0, submitted := 0, confirmed := 0, challenged := 0, finalized := 0 }

variable {sha256 : List UInt8 → Hash} {v : AnchorVerifier} {w : World} {r : Hash} {a : L1Anchor}
  {getBlockHeader : UInt64 → Except String BHCBlockHeader} {proof : List Hash} {leafIndex : UInt64}

/-! ## What a proof proves -/

/-- The loop is the walk up a tree. -/
theorem foldProof_eq_walk (i : ℕ) (current : Hash) (proof : List Hash) :
    foldProof sha256 leafIndex i current proof =
      walk (concatHash sha256) current proof (leafIndex.toNat >>> i) := by
  induction proof generalizing i current with
  | nil => rfl
  | cons sibling proof ih =>
      have hshift : leafIndex.toNat >>> (i + 1) = leafIndex.toNat >>> i / 2 :=
        Nat.shiftRight_succ _ _
      rw [foldProof, ih, walk, hshift, walkPair]
      split_ifs <;> rfl

/-- A proof is accepted where the root is settled and leads to the Merkle root of the first
block. -/
theorem verifyAnchorProof_eq_true :
    verifyAnchorProof sha256 getBlockHeader r proof leafIndex v = .ok true ↔
      (∃ a, v.anchors.get? r = some a ∧ a.Settled) ∧ ∃ header, getBlockHeader 0 = .ok header ∧
        header.merkleRoot =
          String.ofList (hexEncode (walk (concatHash sha256) r proof leafIndex.toNat).1) := by
  have hfold : computeMerkleRoot sha256 proof r leafIndex =
      String.ofList (hexEncode (walk (concatHash sha256) r proof leafIndex.toNat).1) := by
    rw [computeMerkleRoot, foldProof_eq_walk]
    rfl
  rw [verifyAnchorProof]
  cases hget : v.anchors.get? r with
  | none => simp
  | some anchor =>
      by_cases hsettled : anchor.Settled
      · have hopen : ¬ (anchor.status ≠ .statusConfirmed ∧ anchor.status ≠ .statusFinalized) :=
          fun h => hsettled.elim h.1 h.2
        dsimp only
        rw [if_neg hopen, L1Anchor.bhcHeight]
        cases hheader : getBlockHeader 0 with
        | error e => simp
        | ok header => simp [hfold, hsettled, eq_comm]
      · have hopen : anchor.status ≠ .statusConfirmed ∧ anchor.status ≠ .statusFinalized :=
          not_or.mp hsettled
        simp [hopen, hsettled]

/-- **For a position in the tree there is one root at most that is ever proved.**  In whatever two
states two roots are anchored and settled, and whatever else the nodes answer: while they agree on
the Merkle root of the first block and the double hash does not collide, two proofs of one length at
one index are accepted for one root only. -/
theorem verifyAnchorProof_unique (sha256 : List UInt8 → Hash) (merkleRoot : String)
    (leafIndex : UInt64) {v₁ v₂ : AnchorVerifier}
    {node₁ node₂ : UInt64 → Except String BHCBlockHeader}
    (hnode₁ : ∀ header, node₁ 0 = .ok header → header.merkleRoot = merkleRoot)
    (hnode₂ : ∀ header, node₂ 0 = .ok header → header.merkleRoot = merkleRoot)
    {r₁ r₂ : Hash} {proof₁ proof₂ : List Hash} (hlen : proof₁.length = proof₂.length)
    (hfree : CollisionFree (concatHash sha256)
      (walkPairs (concatHash sha256) r₁ proof₁ leafIndex.toNat ++
        walkPairs (concatHash sha256) r₂ proof₂ leafIndex.toNat))
    (h₁ : verifyAnchorProof sha256 node₁ r₁ proof₁ leafIndex v₁ = .ok true)
    (h₂ : verifyAnchorProof sha256 node₂ r₂ proof₂ leafIndex v₂ = .ok true) : r₁ = r₂ := by
  obtain ⟨-, header₁, hheader₁, hroot₁⟩ := verifyAnchorProof_eq_true.mp h₁
  obtain ⟨-, header₂, hheader₂, hroot₂⟩ := verifyAnchorProof_eq_true.mp h₂
  have htext := (hroot₁.symm.trans (hnode₁ header₁ hheader₁)).trans
    ((hnode₂ header₂ hheader₂).symm.trans hroot₂)
  have hwalk : walk (concatHash sha256) r₁ proof₁ leafIndex.toNat =
      walk (concatHash sha256) r₂ proof₂ leafIndex.toNat :=
    Subtype.ext (hexEncode_injective (String.ofList_injective htext))
  exact start_eq_of_walk_eq hfree hlen hwalk

/-- A digest that mixes the two halves of its data byte by byte. -/
def mixingSha256 (data : List UInt8) : Hash :=
  ⟨(List.range 32).map fun i => data.getD i 0 + 2 * data.getD (32 + i) 0, by simp⟩

/-- A node whose first block has the Merkle root. -/
def firstBlockNode (merkleRoot : String) (height : UInt64) : Except String BHCBlockHeader :=
  if height = 0 then .ok ⟨merkleRoot⟩ else .error "unknown block"

def secondRoot : StateRoot :=
  { blockHeight := 2, blockHash := ⟨List.replicate 32 4, by simp⟩
    stateRoot := ⟨List.replicate 32 5, by simp⟩ }

/-- A second root is anchored beside the first, and both are confirmed. -/
def bothRun : List Op :=
  submittedRun ++ [.recordStateRoot (some secondRoot), .generateAnchorSubmission 2 0,
    .storeSubmission 0, .submitAnchorToL1 (fun _ _ => .ok "")
      (some { stateRoot := secondRoot.stateRoot, blockHeight := 2, fee := 0
              opReturnData := buildOPReturnData secondRoot }) "",
    .checkConfirmations fun _ => some 6]

theorem settled_bothRun : ∀ r ∈ [someRoot.stateRoot, secondRoot.stateRoot],
    ∃ a, (run bothRun newWorld).verifier.anchors.get? r = some a ∧ a.Settled := by
  have hanchors : (run bothRun newWorld).verifier.anchors = FinMap.mapValues
      (((∅ : FinMap Hash L1Anchor).insert someRoot.stateRoot submittedAnchor).insert
        secondRoot.stateRoot
          { submittedAnchor with anchorID := secondRoot.stateRoot, stateRoot := some secondRoot })
      (fun anchor => anchor.check (some 6)) := rfl
  intro r hr
  rw [hanchors, FinMap.get?_mapValues]
  rcases List.mem_pair.mp hr with rfl | rfl
  · rw [FinMap.get?_insert, if_neg (by decide), FinMap.get?_insert_self]
    exact ⟨_, rfl, .inl rfl⟩
  · rw [FinMap.get?_insert_self]
    exact ⟨_, rfl, .inl rfl⟩

/-- In a tree over both roots each is proved at its own place, and not at that of the other. -/
theorem verifyAnchorProof_unique_both :
    let node := firstBlockNode (computeMerkleRoot mixingSha256
      [secondRoot.stateRoot, someRoot.blockHash] someRoot.stateRoot 2)
    let accepts := fun r proof leafIndex => verifyAnchorProof mixingSha256 node r proof leafIndex
      (run bothRun newWorld).verifier = .ok true
    accepts someRoot.stateRoot [secondRoot.stateRoot, someRoot.blockHash] 2 ∧
      accepts secondRoot.stateRoot [someRoot.stateRoot, someRoot.blockHash] 3 ∧
      ¬ accepts secondRoot.stateRoot [secondRoot.stateRoot, someRoot.blockHash] 2 := by
  intro node accepts
  have hfirst : accepts someRoot.stateRoot [secondRoot.stateRoot, someRoot.blockHash] 2 :=
    verifyAnchorProof_eq_true.mpr ⟨settled_bothRun _ (by simp), _, rfl, rfl⟩
  refine ⟨hfirst, verifyAnchorProof_eq_true.mpr ⟨settled_bothRun _ (by simp), _, rfl, ?_⟩,
    fun hother => ?_⟩
  · decide
  · have hroots := verifyAnchorProof_unique mixingSha256 _ 2 (fun header h => by cases h; rfl)
      (fun header h => by cases h; rfl) rfl (by decide) hfirst hother
    exact absurd hroots (by decide)

/-! ## The latest anchor -/

/-- An anchor that can be the latest, with its height. -/
def AnchorVerifier.SettledAt (v : AnchorVerifier) (a : L1Anchor) (height : UInt64) : Prop :=
  ∃ r s, v.anchors.get? r = some a ∧ a.Settled ∧ a.stateRoot = some s ∧ s.blockHeight = height

/-- The height at which an entry can be the latest. -/
def settledHeight (e : Hash × L1Anchor) : Option UInt64 :=
  if e.2.Settled then e.2.stateRoot.map (·.blockHeight) else none

theorem newerAnchor_eq (latest : Option L1Anchor × UInt64) (e : Hash × L1Anchor) :
    newerAnchor latest e = newer settledHeight Prod.snd latest e := by
  rw [newerAnchor, newer, settledHeight]
  by_cases hsettled : e.2.Settled
  · rw [if_pos (show _ ∨ _ from hsettled), if_pos hsettled]
    cases e.2.stateRoot <;> rfl
  · rw [if_neg (show ¬ (_ ∨ _) from hsettled), if_neg hsettled]

theorem settledHeight_eq_some {e : Hash × L1Anchor} {height : UInt64} :
    settledHeight e = some height ↔
      e.2.Settled ∧ ∃ s, e.2.stateRoot = some s ∧ s.blockHeight = height := by
  rw [settledHeight]
  by_cases hsettled : e.2.Settled
  · rw [if_pos hsettled, Option.map_eq_some_iff]
    exact (and_iff_right hsettled).symm
  · rw [if_neg hsettled]
    exact ⟨fun h => (nomatch h), fun h => absurd h.1 hsettled⟩

theorem settledAt_iff (σ : RangeOrder) {height : UInt64} :
    v.SettledAt a height ↔
      ∃ e ∈ v.anchors.range σ, e.2 = a ∧ settledHeight e = some height := by
  constructor
  · rintro ⟨r, s, hget, hsettled, hroot, hheight⟩
    exact ⟨(r, a), FinMap.mem_range.mpr (FinMap.get?_eq_some.mp hget), rfl,
      settledHeight_eq_some.mpr ⟨hsettled, s, hroot, hheight⟩⟩
  · rintro ⟨⟨r, a'⟩, hmem, rfl, hheight⟩
    obtain ⟨hsettled, s, hroot, hs⟩ := settledHeight_eq_some.mp hheight
    exact ⟨r, s, FinMap.get?_eq_some.mpr (FinMap.mem_range.mp hmem), hsettled, hroot, hs⟩

/-- **The anchor that is returned has the greatest height**, in whatever order the map is ranged
over, and where there is none the settled anchors are at height zero. -/
theorem getLatestConfirmedAnchor_spec (σ : RangeOrder) (v : AnchorVerifier) :
    (∃ a height, getLatestConfirmedAnchor σ v = .ok a ∧ 0 < height ∧ v.SettledAt a height ∧
      ∀ a' height', v.SettledAt a' height' → height' ≤ height) ∨
    (getLatestConfirmedAnchor σ v = .error "no confirmed anchors found" ∧
      ∀ a height, v.SettledAt a height → height = 0) := by
  have hfold : (v.anchors.range σ).foldl newerAnchor (none, 0) =
      (v.anchors.range σ).foldl (newer settledHeight Prod.snd) (none, 0) :=
    List.foldl_ext _ _ _ fun latest e _ => newerAnchor_eq latest e
  have hlatest : Latest settledHeight Prod.snd 0 (v.anchors.range σ) _ := latest_foldl 0 _
  rw [getLatestConfirmedAnchor, hfold]
  cases hfound : ((v.anchors.range σ).foldl (newer settledHeight Prod.snd) (none, 0)).1 with
  | none =>
      refine .inr ⟨rfl, fun a height hat => ?_⟩
      obtain ⟨e, hmem, -, hheight⟩ := (settledAt_iff σ).mp hat
      exact UInt64.le_zero_iff.mp (foldl_newer_eq_none_iff.mp hfound e hmem height hheight)
  | some a =>
      obtain ⟨hpos, hmem⟩ := hlatest.found a hfound
      refine .inl ⟨a, _, rfl, hpos, (settledAt_iff σ).mpr hmem, fun a' height' hat => ?_⟩
      obtain ⟨e, hmem', -, hheight⟩ := (settledAt_iff σ).mp hat
      exact hlatest.highest e hmem' height' hheight

/-! ## Counts -/

/-- All counts together. -/
def AnchorStats.sum (stats : AnchorStats) : UInt64 :=
  stats.pending + stats.submitted + stats.confirmed + stats.challenged + stats.finalized

theorem count_totalAnchors (stats : AnchorStats) (a : L1Anchor) :
    (stats.count a).totalAnchors = stats.totalAnchors := by
  rw [AnchorStats.count]
  cases a.status <;> rfl

theorem sum_count (stats : AnchorStats) (a : L1Anchor) : (stats.count a).sum = stats.sum + 1 := by
  rw [AnchorStats.count, AnchorStats.sum, AnchorStats.sum]
  cases a.status <;> grind

theorem pending_count (stats : AnchorStats) (h : a.status ≠ .statusPending) :
    (stats.count a).pending = stats.pending := by
  rw [AnchorStats.count]
  cases hstatus : a.status with
  | statusPending => exact absurd hstatus h
  | statusSubmitted => rfl
  | statusConfirmed => rfl
  | statusChallenged => rfl
  | statusFinalized => rfl

/-- The loop counts every anchor once. -/
theorem foldl_count (l : List L1Anchor) (stats : AnchorStats) :
    (l.foldl AnchorStats.count stats).totalAnchors = stats.totalAnchors ∧
      (l.foldl AnchorStats.count stats).sum = stats.sum + UInt64.ofNat l.length ∧
      ((∀ a ∈ l, a.status ≠ .statusPending) →
        (l.foldl AnchorStats.count stats).pending = stats.pending) := by
  induction l generalizing stats with
  | nil => exact ⟨rfl, (UInt64.add_zero _).symm, fun _ => rfl⟩
  | cons a l ih =>
      obtain ⟨htotal, hsum, hpending⟩ := ih (stats.count a)
      refine ⟨htotal.trans (count_totalAnchors stats a), ?_, fun h => ?_⟩
      · rw [List.foldl_cons, hsum, sum_count, List.length_cons, UInt64.ofNat_add, UInt64.add_assoc,
          UInt64.add_comm 1]
        rfl
      · exact (hpending fun a' ha' => h a' (List.mem_cons_of_mem a ha')).trans
          (pending_count stats (h a List.mem_cons_self))

/-- No anchor waits to be submitted. -/
def World.NonePending (w : World) : Prop :=
  ∀ r a, w.verifier.anchors.get? r = some a → a.status ≠ .statusPending

theorem check_ne_pending (h : a.status ≠ .statusPending) (answer : Option UInt64) :
    (a.check answer).status ≠ .statusPending := by
  unfold L1Anchor.check
  split
  · exact h
  split
  · exact h
  split
  · simp
  · exact h

theorem World.NonePending.insert {anchors : FinMap Hash L1Anchor}
    (h : ∀ r a, anchors.get? r = some a → a.status ≠ .statusPending) (r : Hash)
    (ha : a.status ≠ .statusPending) (r' : Hash) (a' : L1Anchor)
    (hget : (anchors.insert r a).get? r' = some a') : a'.status ≠ .statusPending := by
  rw [FinMap.get?_insert] at hget
  split_ifs at hget
  · rwa [← Option.some_inj.mp hget]
  · exact h r' a' hget

theorem World.NonePending.exec (h : w.NonePending) (op : Op) : (exec op w).NonePending := by
  generalize hw : Anchor.exec op w = w'
  cases hw ▸ step_of_exec op w with
  | recorded => exact h
  | committed => exact World.NonePending.insert h _ (by simp)
  | checked =>
      intro r a hget
      rw [FinMap.get?_mapValues, Option.map_eq_some_iff] at hget
      obtain ⟨a₀, hget, rfl⟩ := hget
      exact check_ne_pending (h r a₀ hget) _
  | challenged => exact World.NonePending.insert h _ (by simp)
  | finalized => exact World.NonePending.insert h _ (by simp)
  | quiet hanchors =>
      intro r a hget
      rw [hanchors] at hget
      exact h r a hget

/-- **In every run the counts add up**, and no anchor is pending. -/
theorem getStats_run (ops : List Op) :
    (getStats (run ops newWorld).verifier).sum =
        (getStats (run ops newWorld).verifier).totalAnchors ∧
      (getStats (run ops newWorld).verifier).pending = 0 := by
  have hnone : (run ops newWorld).NonePending :=
    run_invariant (P := World.NonePending) (fun op w h => World.NonePending.exec h op) ops
      (fun _ _ hget => nomatch hget)
  obtain ⟨htotal, hsum, hpending⟩ :=
    foldl_count ((run ops newWorld).verifier.anchors.entries.map Prod.snd)
      { totalAnchors := UInt64.ofNat (run ops newWorld).verifier.anchors.entries.length
        pending := 0, submitted := 0, confirmed := 0, challenged := 0, finalized := 0 }
  refine ⟨?_, hpending fun a ha => ?_⟩
  · rw [getStats, hsum, htotal, List.length_map]
    exact UInt64.zero_add _
  · obtain ⟨e, he, rfl⟩ := List.mem_map.mp ha
    exact hnone e.1 e.2 (FinMap.get?_eq_some.mpr he)

end BhtBhte.Anchor
