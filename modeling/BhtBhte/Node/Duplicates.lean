import BhtBhte.Node.Chain

/-!
# Where a transaction hash occurs

Mining moves the whole pending list into a block, a reorganisation moves the removed blocks back,
and an import brings a block in without looking at the pending list.  No call checks a hash that it
brings in against the hashes that are there.  Where every call brings new ones, no hash is twice on
the chain, and none is on the chain and pending (`hashes_of_fresh`).
-/
namespace BhtBhte.Node
open BhtBhte.Lib

namespace RpcNode

/-- The hashes of the chain's transactions, in chain order. -/
def canonicalHashes (n : RpcNode) : List String :=
  n.blocks.flatMap fun b => b.transactions.map (·.hash)

def pendingHashes (n : RpcNode) : List String := n.pendingTxs.map (·.hash)

/-- No hash is twice on the chain, and none is both on the chain and pending. -/
def NoDuplicates (n : RpcNode) : Prop :=
  n.canonicalHashes.Nodup ∧ n.pendingHashes.Disjoint n.canonicalHashes

end RpcNode

variable [Platform]

namespace RpcNode

/-! ## How the calls move hashes -/

/-- Mining moves the pending hashes to the end of the chain. -/
theorem hashes_minePendingBlock (n : RpcNode) (cfg : Config) (ω : Choices) :
    (n.minePendingBlock cfg ω).2.canonicalHashes = n.canonicalHashes ++ n.pendingHashes ∧
      (n.minePendingBlock cfg ω).2.pendingHashes = [] := by
  obtain ⟨block, timestamp, hblocks, htxs, -⟩ := n.minePendingBlock_chain cfg ω
  have hmined : block.transactions.map (·.hash) = n.pendingHashes := by
    rw [htxs]
    exact map_mapIdx_eq _ _ _ fun i tx => rfl
  constructor
  · rw [canonicalHashes, hblocks, List.flatMap_append, List.flatMap_singleton, hmined]
    rfl
  · rw [pendingHashes, n.minePendingBlock_pendingTxs cfg ω]
    rfl

/-- The hashes of the blocks that a rollback keeps and of those that it removes. -/
theorem canonicalHashes_perm (n : RpcNode) (ω : Choices) (height : ℕ)
    (snapshot : StateSnapshotRecord) :
    ((n.rollback ω height snapshot).canonicalHashes ++
      (n.removedTxs height).map (·.hash)).Perm n.canonicalHashes := by
  have hremoved : (n.removedTxs height).map (·.hash) =
      (n.blocksFrom height).flatMap fun b => b.transactions.map (·.hash) := by
    rw [removedTxs, List.map_flatMap]
    congr 1
    funext b
    rw [List.map_map]
    rfl
  have hnot : (fun b : BlockRecord => decide (height ≤ quantity64 b.number)) =
      fun b => !decide (quantity64 b.number < height) := by
    funext b
    rw [← decide_not]
    exact decide_eq_decide.mpr not_lt.symm
  have hsplit : List.Perm ((n.blocks.filter fun b => quantity64 b.number < height) ++
      n.blocksFrom height) n.blocks := by
    rw [blocksFrom, hnot]
    exact List.filter_append_perm _ _
  have hchain := hsplit.flatMap_right fun b => b.transactions.map (·.hash)
  rw [List.flatMap_append] at hchain
  rw [hremoved]
  exact hchain

namespace NoDuplicates
variable {n : RpcNode}

omit [Platform] in
theorem of_eq {n' : RpcNode} (h : n.NoDuplicates) (hblocks : n'.blocks = n.blocks)
    (hpending : n'.pendingTxs = n.pendingTxs) : n'.NoDuplicates := by
  rw [NoDuplicates, canonicalHashes, pendingHashes, hblocks, hpending]
  exact h

theorem minePendingBlock (h : n.NoDuplicates) {cfg : Config} {ω : Choices}
    (hpending : n.pendingHashes.Nodup) : (n.minePendingBlock cfg ω).2.NoDuplicates := by
  obtain ⟨hcanonical, hempty⟩ := n.hashes_minePendingBlock cfg ω
  rw [NoDuplicates, hcanonical, hempty]
  exact ⟨h.1.append hpending (List.disjoint_symm h.2), List.disjoint_nil_left _⟩

/-- A submitted hash that is nowhere on the chain, and nowhere pending when it is mined
at once. -/
theorem enqueue (h : n.NoDuplicates) {cfg : Config} {ω : Choices} {record : TxRecord}
    (hcanonical : record.hash ∉ n.canonicalHashes)
    (hpending : cfg.autoMine = true → (n.pendingHashes ++ [record.hash]).Nodup) :
    (n.enqueue cfg ω record).NoDuplicates := by
  have happend : ({ n with pendingTxs := n.pendingTxs ++ [record] } : RpcNode).pendingHashes =
      n.pendingHashes ++ [record.hash] := List.map_append
  have hqueued : ({ n with pendingTxs := n.pendingTxs ++ [record] } : RpcNode).NoDuplicates := by
    refine ⟨h.1, ?_⟩
    rw [happend, List.disjoint_append_left, List.singleton_disjoint]
    exact ⟨h.2, hcanonical⟩
  rw [RpcNode.enqueue]
  by_cases hauto : cfg.autoMine = true
  · rw [if_pos hauto]
    exact hqueued.minePendingBlock (happend ▸ hpending hauto)
  · rw [if_neg hauto]
    exact hqueued.of_eq rfl rfl

/-- What a reorganisation puts back on the pending list has left the chain. -/
theorem handleReorg (h : n.NoDuplicates) {ω : Choices} {height : ℕ} {newHash : String} :
    (n.handleReorg ω height newHash).2.NoDuplicates := by
  rcases n.handleReorg_cases ω height newHash with heq | ⟨snapshot, -, -, heq⟩
  · rw [heq]
    exact h
  · rw [heq]
    have hperm := n.canonicalHashes_perm ω height snapshot
    have hnodup := List.nodup_append'.mp (hperm.nodup_iff.mpr h.1)
    refine of_eq (n := n.rollback ω height snapshot) ⟨hnodup.1, ?_⟩ rfl rfl
    have hpending : (n.rollback ω height snapshot).pendingHashes =
        n.pendingHashes ++ (n.removedTxs height).map (·.hash) := List.map_append
    rw [hpending, List.disjoint_append_left]
    refine ⟨fun hash hmem hmem' => ?_, List.disjoint_symm hnodup.2.2⟩
    exact h.2 hmem (hperm.subset (List.mem_append_left _ hmem'))

theorem syncBlock (h : n.NoDuplicates) {cfg : Config} {ω : Choices} {height : ℕ}
    {block : PeerBlock}
    (hfresh : (n.syncBlock cfg ω height block).1 = .ok true →
      (block.record.transactions.map (·.hash)).Nodup ∧
      (block.record.transactions.map (·.hash)).Disjoint n.canonicalHashes ∧
      (block.record.transactions.map (·.hash)).Disjoint n.pendingHashes) :
    (n.syncBlock cfg ω height block).2.NoDuplicates := by
  rcases n.syncBlock_cases cfg ω height block with ⟨heq, -⟩ | ⟨e, ω₁, ω₂, disk, heq⟩ |
    ⟨ω₂, l, heq, -⟩
  · rw [heq]; exact h
  · rw [heq]; exact h.of_eq rfl rfl
  · obtain ⟨hnodup, hcanonical, hpending⟩ := hfresh (by rw [heq])
    obtain ⟨stored, timestamp, hblocks, hstored, -, -, hsame⟩ :=
      n.afterImport_chain cfg (ω.call 2) ((ω.call 0).call 1) block.record l
    rw [heq]
    generalize n.afterImport (ω.call 2) block.record l _ = n' at hblocks hsame
    have htxs : stored.transactions.map (·.hash) = block.record.transactions.map (·.hash) := by
      rw [hstored]
      exact map_mapIdx_eq _ _ _ fun i tx => rfl
    have hchain : n'.canonicalHashes =
        n.canonicalHashes ++ block.record.transactions.map (·.hash) := by
      rw [canonicalHashes, hblocks, List.flatMap_append, List.flatMap_singleton, htxs]
      rfl
    rw [NoDuplicates, hchain, pendingHashes, hsame, List.disjoint_append_right]
    exact ⟨h.1.append hnodup (List.disjoint_symm hcanonical), h.2, List.disjoint_symm hpending⟩

end NoDuplicates

end RpcNode

/-! ## Runs -/

/-- A submitted hash is not on the chain; mined at once, it is not pending either and
nothing pending is there twice. -/
def FreshHash (cfg : Config) (n : RpcNode) (hash : String) : Prop :=
  hash ∉ n.canonicalHashes ∧ (cfg.autoMine = true → (n.pendingHashes ++ [hash]).Nodup)

/-- A call that brings no hash to a second place. -/
def FreshStep (cfg : Config) (n : RpcNode) (ω : Choices) : Event → Prop
  | .sendTransaction tx => n.validateTransaction cfg tx = .ok () →
      FreshHash cfg n (n.txOfObject (ω.call 0) tx "").hash
  | .sendRawTransaction rawTx => FreshHash cfg n (RpcNode.txOfRaw (ω.call 0) rawTx).hash
  | .mineBlock => n.pendingHashes.Nodup
  | .syncBlock block => (n.syncBlock cfg ω (n.height + 1) block).1 = .ok true →
      (block.record.transactions.map (·.hash)).Nodup ∧
      (block.record.transactions.map (·.hash)).Disjoint n.canonicalHashes ∧
      (block.record.transactions.map (·.hash)).Disjoint n.pendingHashes
  | _ => True

theorem RpcNode.NoDuplicates.next {n : RpcNode} (h : n.NoDuplicates) (hchain : ChainOk n)
    {cfg : Config} {ω : Choices} {e : Event} (hok : FreshStep cfg n ω e) :
    (n.next cfg ω e).NoDuplicates := by
  by_cases hmoves : e.movesTxs = false
  · obtain ⟨hblocks, hpending⟩ := n.next_of_not_movesTxs hchain cfg ω hmoves
    exact h.of_eq hblocks hpending
  cases e with
  | sendTransaction tx =>
      rw [RpcNode.next]
      rcases n.sendTransaction_cases cfg ω tx with heq | ⟨hvalid, heq⟩
      · rw [heq]; exact h
      · rw [heq]
        exact h.enqueue (hok hvalid).1 (hok hvalid).2
  | sendRawTransaction rawTx => exact h.enqueue hok.1 hok.2
  | mineBlock => exact h.minePendingBlock hok
  | handleReorg height newHash => exact h.handleReorg
  | syncBlock block => exact h.syncBlock hok
  | _ => exact absurd rfl hmoves

theorem noDuplicates_fresh (cfg : Config) (ω : Choices) : (newRPCNode cfg ω {}).NoDuplicates := by
  obtain ⟨ω₁, l, timestamp, heq, -⟩ := newRPCNode_fresh cfg ω
  rw [heq]
  exact ⟨List.nodup_nil, List.disjoint_nil_left _⟩

/-- **No second occurrence.** In a run whose calls bring no hash to a second place, no state
has a hash twice on its chain or on its chain and on its pending list. -/
theorem hashes_of_fresh {cfg : Config} {n : RpcNode} (h : ReachableBy cfg (FreshStep cfg) n) :
    n.canonicalHashes.Nodup ∧ n.pendingHashes.Disjoint n.canonicalHashes := by
  have hboth : ChainOk n ∧ n.NoDuplicates :=
    h.induct (P := fun n => ChainOk n ∧ n.NoDuplicates)
      (fun ω => ⟨chainOk_fresh cfg ω, noDuplicates_fresh cfg ω⟩)
      fun _ _ _ hn hok hlen => ⟨hn.1.next hlen, hn.2.next hn.1 hok⟩
  exact hboth.2

/-! ## One raw transaction sent twice -/

/-- A raw transaction that is mined at once puts its hash at the end of the chain. -/
theorem hashes_sendRaw {n : RpcNode} (hpending : n.pendingTxs = []) (ω : Choices)
    (rawTx : String) :
    (n.next {} ω (.sendRawTransaction rawTx)).canonicalHashes =
      n.canonicalHashes ++ [hashHex (utf8 rawTx)] ∧
    (n.next {} ω (.sendRawTransaction rawTx)).pendingTxs = [] ∧
    (n.next {} ω (.sendRawTransaction rawTx)).blocks.length = n.blocks.length + 1 := by
  let queued : RpcNode :=
    { n with pendingTxs := n.pendingTxs ++ [RpcNode.txOfRaw (ω.call 0) rawTx] }
  have hnext : n.next {} ω (.sendRawTransaction rawTx) =
      (queued.minePendingBlock {} (ω.call 1)).2 := by
    rw [RpcNode.next, RpcNode.addRawTransaction, RpcNode.enqueue]
    dsimp only
    rw [if_pos rfl]
  obtain ⟨block, hblocks⟩ := queued.minePendingBlock_blocks {} (ω.call 1)
  rw [hnext, (queued.hashes_minePendingBlock {} (ω.call 1)).1,
    queued.minePendingBlock_pendingTxs {} (ω.call 1), hblocks, List.length_append]
  refine ⟨?_, rfl, rfl⟩
  show n.canonicalHashes ++ (n.pendingTxs ++ [_]).map TxRecord.hash = _
  rw [hpending]
  rfl

theorem fresh_empty (ω : Choices) :
    (newRPCNode {} ω {}).canonicalHashes = [] ∧ (newRPCNode {} ω {}).pendingTxs = [] ∧
      (newRPCNode {} ω {}).blocks.length = 1 := by
  obtain ⟨ω₁, l, timestamp, heq, -⟩ := newRPCNode_fresh {} ω
  rw [heq]
  exact ⟨rfl, rfl, rfl⟩

/-- Two raw transactions sent to a fresh node, each of them mined at once. -/
theorem hashes_sendRaw_sendRaw (ω : Choices) (rawTx rawTx' : String) :
    let n := ((newRPCNode {} ω {}).next {} ω (.sendRawTransaction rawTx)).next {} ω
      (.sendRawTransaction rawTx')
    n.canonicalHashes = [hashHex (utf8 rawTx), hashHex (utf8 rawTx')] ∧ n.blocks.length = 3 := by
  obtain ⟨hcanonical, hpending, hlength⟩ := fresh_empty ω
  obtain ⟨hcanonical₁, hpending₁, hlength₁⟩ := hashes_sendRaw hpending ω rawTx
  obtain ⟨hcanonical₂, -, hlength₂⟩ := hashes_sendRaw hpending₁ ω rawTx'
  exact ⟨by rw [hcanonical₂, hcanonical₁, hcanonical]; rfl, by rw [hlength₂, hlength₁, hlength]⟩

/-- The run that sends them, when each of the two calls meets the condition. -/
theorem reachableBy_sendRaw_sendRaw {ω : Choices} {rawTx rawTx' : String}
    {ok : RpcNode → Choices → Event → Prop}
    (hfirst : ok (newRPCNode {} ω {}) ω (.sendRawTransaction rawTx))
    (hsecond : ok ((newRPCNode {} ω {}).next {} ω (.sendRawTransaction rawTx)) ω
      (.sendRawTransaction rawTx')) :
    ReachableBy {} ok (((newRPCNode {} ω {}).next {} ω (.sendRawTransaction rawTx)).next {} ω
      (.sendRawTransaction rawTx')) := by
  obtain ⟨-, hpending, hlength⟩ := fresh_empty ω
  obtain ⟨-, -, hlength₁⟩ := hashes_sendRaw hpending ω rawTx
  obtain ⟨-, hlength₂⟩ := hashes_sendRaw_sendRaw ω rawTx rawTx'
  refine ⟨ω, .tail (.single ⟨ω, .sendRawTransaction rawTx, hfirst, rfl, ?_⟩)
    ⟨ω, .sendRawTransaction rawTx', hsecond, rfl, ?_⟩⟩
  · rw [hlength₁, hlength]
    decide
  · rw [hlength₂]
    decide

omit [Platform] in
/-- **Mined twice.** A raw transaction sent twice to a fresh node is on its chain twice. -/
theorem rawTransaction_mined_twice :
    letI := Platform.checksums
    let n := ((newRPCNode {} default {}).next {} default (.sendRawTransaction "0x01")).next {}
      default (.sendRawTransaction "0x01")
    Reachable {} n ∧ ¬ n.canonicalHashes.Nodup := by
  let _ := Platform.checksums
  refine ⟨reachableBy_sendRaw_sendRaw trivial trivial, fun hnodup => ?_⟩
  rw [(hashes_sendRaw_sendRaw default "0x01" "0x01").1] at hnodup
  exact (List.nodup_cons.mp hnodup).1 List.mem_cons_self

/-- Two raw transactions of different hashes are both new. -/
theorem fresh_sendRaw_sendRaw {ω : Choices} {rawTx rawTx' : String}
    (hne : hashHex (utf8 rawTx') ≠ hashHex (utf8 rawTx)) :
    ReachableBy {} (FreshStep {}) (((newRPCNode {} ω {}).next {} ω (.sendRawTransaction rawTx)).next
      {} ω (.sendRawTransaction rawTx')) := by
  obtain ⟨hcanonical, hpending, -⟩ := fresh_empty ω
  obtain ⟨hcanonical₁, hpending₁, -⟩ := hashes_sendRaw hpending ω rawTx
  refine reachableBy_sendRaw_sendRaw ⟨?_, fun _ => ?_⟩ ⟨?_, fun _ => ?_⟩
  · rw [hcanonical]
    exact List.not_mem_nil
  · rw [RpcNode.pendingHashes, hpending]
    exact List.nodup_singleton _
  · rw [hcanonical₁, hcanonical, List.nil_append, List.mem_singleton]
    exact hne
  · rw [RpcNode.pendingHashes, hpending₁]
    exact List.nodup_singleton _

omit [Platform] in
/-- Two of them stay apart. -/
theorem hashes_of_sendRaw :
    letI := Platform.checksums
    let n := ((newRPCNode {} default {}).next {} default (.sendRawTransaction "0x01")).next {}
      default (.sendRawTransaction "0x02")
    n.canonicalHashes = [hashHex (utf8 "0x01"), hashHex (utf8 "0x02")] ∧ n.canonicalHashes.Nodup := by
  let _ := Platform.checksums
  have hne : hashHex (utf8 "0x02") ≠ hashHex (utf8 "0x01") := by decide +kernel
  exact ⟨(hashes_sendRaw_sendRaw default "0x01" "0x02").1,
    (hashes_of_fresh (fresh_sendRaw_sendRaw hne)).1⟩

end BhtBhte.Node
