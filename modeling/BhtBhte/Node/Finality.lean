import BhtBhte.Node.Chain

/-!
# The finalized height

`finalizedHeight` is reported to clients; no call reads it.  A reorganisation goes to whatever
height its caller names, above genesis, so the finalized height falls with the head and blocks
below it can be removed.  Nothing but a reorganisation does either.
-/
namespace BhtBhte.Node
open BhtBhte.Lib
variable [Platform]

/-- The finalized height under a head at this height. -/
def finalizedAt (height : ℕ) : ℕ := if height ≤ 12 then 1 else height - 12

namespace RpcNode

/-- The height that clients are told is final. -/
def finalizedHeight (n : RpcNode) : ℕ := finalizedAt n.height

/-- The call is a reorganisation at a height of the chain above genesis, to another hash. -/
def RollsBack (n : RpcNode) (e : Event) (height : ℕ) : Prop :=
  1 < height ∧ height ≤ n.height ∧ ∃ newHash, e = .handleReorg height newHash ∧
    equalFold ((n.canonical.get? height).getD "") newHash = false

theorem RollsBack.unique {n : RpcNode} {e : Event} {height height' : ℕ}
    (h : n.RollsBack e height) (h' : n.RollsBack e height') : height' = height := by
  obtain ⟨-, -, newHash, rfl, -⟩ := h
  obtain ⟨-, -, newHash', heq, -⟩ := h'
  cases heq
  rfl

end RpcNode

omit [Platform] in
theorem finalizedAt_mono {a b : ℕ} (h : a ≤ b) : finalizedAt a ≤ finalizedAt b := by
  unfold finalizedAt
  split <;> split <;> omega

omit [Platform] in
theorem finalizedAt_le {a : ℕ} (h : 0 < a) : finalizedAt a ≤ a := by
  unfold finalizedAt
  split <;> omega

/-! ## One call -/

/-- **One call.** A reorganisation cuts the chain off below its height; every other call keeps
the chain or extends it. -/
theorem ChainOk.next_chain {n : RpcNode} (h : ChainOk n) {cfg : Config} {ω : Choices} {e : Event}
    (hlen : (n.next cfg ω e).blocks.length < 2 ^ 63) :
    (∃ height, n.RollsBack e height ∧ (n.next cfg ω e).blocks = n.blocks.take (height - 1)) ∨
      ((∀ height, ¬ n.RollsBack e height) ∧ n.blocks <+: (n.next cfg ω e).blocks) := by
  by_cases hroll : ∃ height, n.RollsBack e height
  · obtain ⟨height, hback⟩ := hroll
    obtain ⟨hone, hle, newHash, rfl, hother⟩ := id hback
    refine .inl ⟨height, hback, ?_⟩
    have hcanonical : (n.canonical.get? height).getD "" ≠ "" := by
      intro hempty
      exact (h.canonical_eq_empty_iff height).mp hempty ⟨by omega, hle⟩
    obtain ⟨b, hb⟩ := Option.ne_none_iff_exists'.mp
      fun hnone => (h.blockAt_eq_none_iff (height - 1)).mp hnone ⟨by omega, by omega⟩
    obtain ⟨s, hs, -⟩ := h.snapshot _ b hb
    have hreorg : (n.handleReorg ω height newHash).2 = (n.rollback ω height s).save := by
      rw [RpcNode.handleReorg, if_neg (by omega)]
      dsimp only
      rw [if_neg (by simp [hcanonical, hother]), hs]
    rw [RpcNode.next, hreorg]
    exact h.blocks_rollback ω height s
  · refine .inr ⟨fun height hback => hroll ⟨height, hback⟩, ?_⟩
    rcases n.syncBlock_or_localCall h cfg ω e with ⟨block, rfl⟩ | hcall
    · rw [RpcNode.next]
      rcases n.syncBlock_cases cfg ω (n.height + 1) block with ⟨heq, -⟩ |
        ⟨e, ω₁, ω₂, disk, heq⟩ | ⟨ω₂, l, heq, -⟩
      · exact ⟨[], by rw [heq, List.append_nil]⟩
      · exact ⟨[], by rw [heq, List.append_nil]; rfl⟩
      · obtain ⟨stored, timestamp, hblocks, -⟩ :=
          n.afterImport_chain cfg (ω.call 2) ((ω.call 0).call 1) block.record l
        rw [heq, hblocks]
        exact List.prefix_append _ _
    · generalize n.next cfg ω e = n' at hcall
      cases hcall with
      | quiet hquiet => exact hquiet.blocks ▸ List.prefix_refl _
      | recopied ω₁ ω₂ disk => exact List.prefix_refl _
      | @mined ω' hmines =>
          obtain ⟨block, hblocks⟩ := RpcNode.minePendingBlock_blocks
            { n with pendingTxs := n.executed cfg ω e } cfg ω'
          rw [hblocks]
          exact List.prefix_append _ _
      | rolledBack hone hle hs hreorg => exact absurd ⟨_, hone, hle, hreorg⟩ hroll
      | restarted =>
          obtain ⟨index, disk, heq, -⟩ := h.restart cfg ω
          exact ⟨[], by rw [heq, List.append_nil]; rfl⟩

section Step
variable {n : RpcNode} {cfg : Config} {ω : Choices} {e : Event}

theorem ChainOk.height_of_rollsBack (h : ChainOk n)
    (hlen : (n.next cfg ω e).blocks.length < 2 ^ 63) {height : ℕ} (hback : n.RollsBack e height) :
    (n.next cfg ω e).height = height - 1 ∧
      (n.next cfg ω e).blocks = n.blocks.take (height - 1) := by
  rcases h.next_chain hlen with ⟨height', hback', hblocks⟩ | ⟨hno, -⟩
  · cases hback.unique hback'
    refine ⟨?_, hblocks⟩
    rw [← (h.next hlen).length, hblocks, List.length_take, h.length]
    have := hback.2.1
    omega
  · exact absurd hback (hno height)

theorem ChainOk.height_of_not_rollsBack (h : ChainOk n)
    (hlen : (n.next cfg ω e).blocks.length < 2 ^ 63) (hno : ∀ height, ¬ n.RollsBack e height) :
    n.height ≤ (n.next cfg ω e).height ∧ n.blocks <+: (n.next cfg ω e).blocks := by
  rcases h.next_chain hlen with ⟨height, hback, -⟩ | ⟨-, hgrow⟩
  · exact absurd hback (hno height)
  · refine ⟨?_, hgrow⟩
    rw [← (h.next hlen).length, ← h.length]
    exact hgrow.length_le

/-- The finalized height falls in a call exactly when the call rolls the head back to within
twelve blocks of it. -/
theorem ChainOk.finalizedHeight_lt_iff (h : ChainOk n)
    (hlen : (n.next cfg ω e).blocks.length < 2 ^ 63) :
    (n.next cfg ω e).finalizedHeight < n.finalizedHeight ↔
      ∃ height, n.RollsBack e height ∧ finalizedAt (height - 1) < n.finalizedHeight := by
  constructor
  · intro hlt
    by_contra hcond
    by_cases hroll : ∃ height, n.RollsBack e height
    · obtain ⟨height, hback⟩ := hroll
      rw [RpcNode.finalizedHeight, (h.height_of_rollsBack hlen hback).1] at hlt
      exact hcond ⟨height, hback, hlt⟩
    · have hgrow := h.height_of_not_rollsBack hlen fun height hback => hroll ⟨height, hback⟩
      have hmono := finalizedAt_mono hgrow.1
      exact absurd hlt (Nat.not_lt.mpr hmono)
  · rintro ⟨height, hback, hlt⟩
    rw [RpcNode.finalizedHeight, (h.height_of_rollsBack hlen hback).1]
    exact hlt

/-- A block leaves its height in a call exactly when the call rolls back to below it. -/
theorem ChainOk.blockAt_ne_iff (h : ChainOk n) (hlen : (n.next cfg ω e).blocks.length < 2 ^ 63)
    {k : ℕ} {b : BlockRecord} (hb : n.blockAt k = some b) :
    (n.next cfg ω e).blockAt k ≠ some b ↔ ∃ height, n.RollsBack e height ∧ height ≤ k := by
  have hk : k ≠ 0 ∧ n.blocks[k - 1]? = some b := by
    rw [RpcNode.blockAt] at hb
    split at hb
    · cases hb
    · next hne => exact ⟨hne, hb⟩
  by_cases hroll : ∃ height, n.RollsBack e height
  · obtain ⟨height, hback⟩ := hroll
    rw [RpcNode.blockAt, if_neg hk.1, (h.height_of_rollsBack hlen hback).2, List.getElem?_take]
    have hone := hback.1
    constructor
    · intro hne
      refine ⟨height, hback, ?_⟩
      by_contra hlt
      exact hne (by rw [if_pos (by omega)]; exact hk.2)
    · rintro ⟨height', hback', hle⟩
      cases hback.unique hback'
      rw [if_neg (by omega)]
      simp
  · have hgrow := h.height_of_not_rollsBack hlen fun height hback => hroll ⟨height, hback⟩
    obtain ⟨hlt, -⟩ := List.getElem?_eq_some_iff.mp hk.2
    have hsame : (n.next cfg ω e).blockAt k = some b := by
      obtain ⟨t, ht⟩ := hgrow.2
      rw [RpcNode.blockAt, if_neg hk.1, ← ht, List.getElem?_append_left hlt]
      exact hk.2
    constructor
    · intro hne
      exact absurd hsame hne
    · rintro ⟨height, hback, -⟩
      exact absurd ⟨height, hback⟩ hroll

end Step

/-! ## Runs -/

/-- Rollbacks that stay twelve blocks above a height keep the finalized height at or above it. -/
theorem ChainOk.finalizedHeight_run {n n' : RpcNode} {cfg : Config} {F : ℕ} (h : ChainOk n)
    (hF : F ≤ n.finalizedHeight)
    (hrun : Relation.ReflTransGen
      (Step cfg fun m _ e => ∀ height, m.RollsBack e height → F ≤ finalizedAt (height - 1)) n n') :
    F ≤ n'.finalizedHeight := by
  have hinv : ChainOk n' ∧ F ≤ n'.finalizedHeight := by
    induction hrun with
    | refl => exact ⟨h, hF⟩
    | tail _ hs ih =>
        obtain ⟨ω, e, hok, rfl, hlen⟩ := hs
        refine ⟨ih.1.next hlen, ?_⟩
        rcases ih.1.next_chain hlen with ⟨height, hback, -⟩ | ⟨hno, -⟩
        · rw [RpcNode.finalizedHeight, (ih.1.height_of_rollsBack hlen hback).1]
          exact hok height hback
        · exact ih.2.trans (finalizedAt_mono (ih.1.height_of_not_rollsBack hlen hno).1)
  exact hinv.2

/-- Rollbacks above a height keep the chain up to it. -/
theorem ChainOk.take_blocks_run {n n' : RpcNode} {cfg : Config} {F : ℕ} (h : ChainOk n)
    (hF : F ≤ n.height)
    (hrun : Relation.ReflTransGen
      (Step cfg fun m _ e => ∀ height, m.RollsBack e height → F < height) n n') :
    n'.blocks.take F = n.blocks.take F := by
  have hinv : ChainOk n' ∧ F ≤ n'.height ∧ n'.blocks.take F = n.blocks.take F := by
    induction hrun with
    | refl => exact ⟨h, hF, rfl⟩
    | tail _ hs ih =>
        obtain ⟨ω, e, hok, rfl, hlen⟩ := hs
        obtain ⟨hm, hle, htake⟩ := ih
        refine ⟨hm.next hlen, ?_⟩
        rcases hm.next_chain hlen with ⟨height, hback, -⟩ | ⟨hno, -⟩
        · obtain ⟨hheight, hblocks⟩ := hm.height_of_rollsBack hlen hback
          have habove := hok height hback
          rw [hheight, hblocks, List.take_take, Nat.min_eq_left (by omega)]
          exact ⟨by omega, htake⟩
        · obtain ⟨hheight, t, ht⟩ := hm.height_of_not_rollsBack hlen hno
          rw [← ht, List.take_append_of_le_length (by rw [hm.length]; exact hle)]
          exact ⟨hle.trans hheight, htake⟩
  exact hinv.2.2

/-- **Finality.** From a state of a run on, the finalized height stays at or above its value
there as long as every reorganisation leaves the head at least twelve blocks above that value,
and the blocks up to it stay as long as every reorganisation is above it.  One call lowers the
finalized height, or removes a block, exactly when it is a reorganisation that goes below. -/
theorem finality_of_reachable {cfg : Config} {n : RpcNode} (h : Reachable cfg n) :
    (∀ n', Relation.ReflTransGen (Step cfg fun m _ e =>
        ∀ height, m.RollsBack e height → n.finalizedHeight ≤ finalizedAt (height - 1)) n n' →
      n.finalizedHeight ≤ n'.finalizedHeight) ∧
    (∀ n', Relation.ReflTransGen (Step cfg fun m _ e =>
        ∀ height, m.RollsBack e height → n.finalizedHeight < height) n n' →
      ∀ k ≤ n.finalizedHeight, n'.blockAt k = n.blockAt k) ∧
    ∀ ω e, (n.next cfg ω e).blocks.length < 2 ^ 63 →
      ((n.next cfg ω e).finalizedHeight < n.finalizedHeight ↔
        ∃ height, n.RollsBack e height ∧ finalizedAt (height - 1) < n.finalizedHeight) ∧
      ∀ k b, n.blockAt k = some b →
        ((n.next cfg ω e).blockAt k ≠ some b ↔ ∃ height, n.RollsBack e height ∧ height ≤ k) := by
  have hok := h.chainOk
  refine ⟨fun n' hrun => hok.finalizedHeight_run le_rfl hrun, fun n' hrun k hk => ?_,
    fun ω e hlen => ⟨hok.finalizedHeight_lt_iff hlen, fun k b hb => hok.blockAt_ne_iff hlen hb⟩⟩
  have htake := hok.take_blocks_run (F := n.finalizedHeight) (finalizedAt_le hok.pos) hrun
  have hget := congrArg (·[k - 1]?) htake
  simp only [List.getElem?_take] at hget
  rw [RpcNode.blockAt, RpcNode.blockAt]
  split
  · rfl
  · rwa [if_pos (by omega), if_pos (by omega)] at hget

/-! ## A finalized block that is removed -/

/-- Blocks mined one after the other. -/
def RpcNode.mineBlocks (cfg : Config) (ω : Choices) : ℕ → RpcNode → RpcNode
  | 0, n => n
  | k + 1, n => RpcNode.mineBlocks cfg ω k (n.next cfg ω .mineBlock)

theorem mineBlocks_run {cfg : Config} {ω : Choices} (k : ℕ) {n : RpcNode} (h : Reachable cfg n)
    (hk : n.height + k < 2 ^ 63) :
    Reachable cfg (RpcNode.mineBlocks cfg ω k n) ∧
      (RpcNode.mineBlocks cfg ω k n).height = n.height + k := by
  induction k generalizing n with
  | zero => exact ⟨h, rfl⟩
  | succ k ih =>
      obtain ⟨hlen, -, hheight⟩ := mined_of_height_lt h.chainOk (by omega) cfg ω
      have hnext := ih (h.next (e := .mineBlock) trivial hlen) (by
        rw [RpcNode.next, hheight]
        omega)
      refine ⟨hnext.1, hnext.2.trans ?_⟩
      rw [RpcNode.next, hheight]
      omega

/-- A fresh node that mines thirteen blocks has finalized block two. -/
theorem exists_finalized (cfg : Config) (ω : Choices) :
    ∃ n, Reachable cfg n ∧ n.height = 14 ∧ n.finalizedHeight = 2 := by
  have hfresh : (newRPCNode cfg ω {}).height = 1 := by
    obtain ⟨ω₁, l, timestamp, heq, -⟩ := newRPCNode_fresh cfg ω
    rw [heq]
  have hstart : Reachable cfg (newRPCNode cfg ω {}) := ⟨ω, .refl⟩
  obtain ⟨hreach, hheight⟩ := mineBlocks_run (ω := ω) 13 hstart (by rw [hfresh]; decide)
  rw [hfresh] at hheight
  exact ⟨_, hreach, hheight, by rw [RpcNode.finalizedHeight, hheight]; rfl⟩

theorem rollsBack_finalized {cfg : Config} {n : RpcNode} (h : Reachable cfg n)
    (hheight : n.height = 14) (ω : Choices) :
    (n.next cfg ω (.handleReorg 2 "")).finalizedHeight = 1 ∧
      (n.blockAt 2).isSome ∧ (n.next cfg ω (.handleReorg 2 "")).blockAt 2 = none := by
  have hok := h.chainOk
  obtain ⟨b, hb⟩ := Option.ne_none_iff_exists'.mp
    fun hnone => (hok.blockAt_eq_none_iff 2).mp hnone ⟨by omega, by omega⟩
  have hback : n.RollsBack (.handleReorg 2 "") 2 :=
    ⟨by decide, by omega, "", rfl, equalFold_canonical_empty hok (by omega)⟩
  have hnext : ChainOk (n.next cfg ω (.handleReorg 2 "")) := hok.handleReorg
  have hlow := (hok.height_of_rollsBack (hnext.length.trans_lt hnext.bound) hback).1
  refine ⟨?_, by rw [hb]; rfl, (hnext.blockAt_eq_none_iff 2).mpr (by omega)⟩
  rw [RpcNode.finalizedHeight, hlow]
  rfl

omit [Platform] in
/-- A reorganisation at height two of a chain of fourteen blocks lowers the finalized height
and removes a finalized block. -/
theorem handleReorg_removes_finalized :
    letI := Platform.checksums
    ∃ n n', Reachable {} n ∧ Step {} (fun _ _ _ => True) n n' ∧
      n'.finalizedHeight < n.finalizedHeight ∧
      2 ≤ n.finalizedHeight ∧ (n.blockAt 2).isSome ∧ n'.blockAt 2 = none := by
  let _ := Platform.checksums
  obtain ⟨n, hreach, hheight, hfinal⟩ := exists_finalized {} default
  obtain ⟨hlow, hblock, hgone⟩ := rollsBack_finalized hreach hheight default
  refine ⟨n, _, hreach, handleReorg_step hreach.chainOk default 2 "" trivial, ?_, hfinal.ge,
    hblock, hgone⟩
  rw [hlow, hfinal]
  decide

omit [Platform] in
/-- A reorganisation above the finalized height of that chain keeps its block two. -/
theorem finality_of_mined :
    letI := Platform.checksums
    ∃ n n', Reachable {} n ∧ Step {} (fun _ _ _ => True) n n' ∧ 2 ≤ n.finalizedHeight ∧
      n'.blockAt 2 = n.blockAt 2 := by
  let _ := Platform.checksums
  obtain ⟨n, hreach, hheight, hfinal⟩ := exists_finalized {} default
  refine ⟨n, _, hreach, handleReorg_step hreach.chainOk default 3 "" trivial, hfinal.ge, ?_⟩
  refine (finality_of_reachable hreach).2.1 _ (.single
    (handleReorg_step hreach.chainOk default 3 "" ?_)) 2 hfinal.ge
  rintro height ⟨-, -, newHash, heq, -⟩
  cases heq
  rw [hfinal]
  decide

end BhtBhte.Node
