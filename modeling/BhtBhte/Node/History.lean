import BhtBhte.Node.Supply

/-!
# The transactions of an address

`transactionsByAddress` reads the list of recorded transactions from its end, and counts the
confirmations of a transaction by its place in that list.  The list is neither the chain's
transactions (an import skips those whose hash is pending or recorded) nor has it one transaction
for each block.  So the answer is right at most where there is one transaction to return
(`historyAnswered_iff`), and only for a limit that a slice can be made for.
-/
namespace BhtBhte.Node
open BhtBhte.Lib
variable [Platform]

/-! ## The call -/

/-- The transaction is from or to the address. -/
def TxRecord.concerns (addr : String) (tx : TxRecord) : Bool :=
  normalizeAddress tx.sender = addr || normalizeAddress tx.recipient = addr

namespace RpcNode

/-- The recorded transaction at an index, with its confirmations counted from the end. -/
def confirmedAt (n : RpcNode) (i : ℕ) (tx : TxRecord) : TxRecord :=
  let confirmations : ℤ := n.height - n.txs.length + i + 1
  { tx with confirmations := if confirmations < 0 then 0 else confirmations }

/-- The loop over the indices below `i`, from the last on. -/
def addressLoop (n : RpcNode) (addr : String) (limit : ℕ) : ℕ → List TxRecord → List TxRecord
  | 0, result => result
  | i + 1, result =>
      if limit ≤ result.length then result
      else
        match n.txs[i]? with
        | none => result
        | some tx =>
            addressLoop n addr limit i
              (if tx.concerns addr then result ++ [n.confirmedAt i tx] else result)

/-- The number of transactions that a limit stands for. -/
def resultLimit (limit : ℤ) : ℕ := if limit ≤ 0 then 100 else limit.toNat

/-- The bytes of a `txRecord`: twelve strings of two words, and three words. -/
def txRecordSize : ℕ := 216

/-- Whether `make([]txRecord, 0, cap)` gets its memory.  It panics beyond the address space of
`2 ^ 48` bytes; within it `room` says whether the heap has the bytes. -/
def makesTxRecords (room : ℕ → Bool) (cap : ℕ) : Bool :=
  cap * txRecordSize ≤ 2 ^ 48 && room (cap * txRecordSize)

/-- The newest recorded transactions of an address.  The slice is made for the whole limit before
the first one is looked at, `none` when that panics. -/
def transactionsByAddress (n : RpcNode) (room : ℕ → Bool) (addr : String) (limit : ℤ) :
    Option (List TxRecord) :=
  if makesTxRecords room (resultLimit limit) then
    some (n.addressLoop addr (resultLimit limit) n.txs.length [])
  else none

/-- The transactions of the chain, oldest first. -/
def minedTxs (n : RpcNode) : List TxRecord := n.blocks.flatMap (·.transactions)

/-- The newest of the chain's transactions from or to an address, newest first. -/
def newestMined (n : RpcNode) (addr : String) (limit : ℤ) : List TxRecord :=
  (n.minedTxs.filter (TxRecord.concerns addr)).reverse.take (resultLimit limit)

end RpcNode

/-- The record without its count. -/
def TxRecord.uncounted (tx : TxRecord) : TxRecord := { tx with confirmations := 0 }

/-- The list is that of the newest mined transactions of the address, each with as many
confirmations as there are blocks from its own on. -/
structure RightHistory (n : RpcNode) (addr : String) (limit : ℤ) (txs : List TxRecord) : Prop where
  newest : txs.map TxRecord.uncounted = (n.newestMined addr limit).map TxRecord.uncounted
  confirmations : ∀ tx ∈ txs, tx.confirmations = n.height - quantity64 tx.blockNumber + 1

/-- The call returns, and what it returns is right. -/
def HistoryAnswered (n : RpcNode) (room : ℕ → Bool) (addr : String) (limit : ℤ) : Prop :=
  ∃ txs, n.transactionsByAddress room addr limit = some txs ∧ RightHistory n addr limit txs

/-- The slice can be made; and there is nothing to return, or one transaction that is recorded,
and from it on there are as many recorded transactions as the number of its block. -/
structure HistoryAnswerable (n : RpcNode) (room : ℕ → Bool) (addr : String) (limit : ℤ) : Prop where
  made : RpcNode.makesTxRecords room (RpcNode.resultLimit limit) = true
  placed : n.newestMined addr limit = [] ∨
    ∃ tx, n.newestMined addr limit = [tx] ∧ tx ∈ n.txs ∧
      n.txs.idxOf tx + quantity64 tx.blockNumber = n.txs.length

/-! ## What the recorded transactions are -/

/-- The records of a block with this number. -/
def StampedTxs (k : ℕ) (txs : List TxRecord) : Prop :=
  ∃ (hash : String) (txs' : List TxRecord),
    txs = txs'.mapIdx fun i tx => RpcNode.minedTx tx hash k (0 + i)

/-- Transactions are recorded from the chain and in its order, and each is stamped with its
block and its index; there are none in the genesis block. -/
structure RecordsOk (n : RpcNode) : Prop where
  recorded : n.txs.Sublist n.minedTxs
  genesis : ∀ b, n.blocks[0]? = some b → b.transactions = []
  stamped : ∀ i b, n.blocks[i]? = some b → StampedTxs (i + 1) b.transactions

namespace RecordsOk
variable {n n' : RpcNode} {cfg : Config} {ω : Choices} {b : BlockRecord}

omit [Platform] in
theorem of_eq (h : RecordsOk n) (hblocks : n'.blocks = n.blocks) (htxs : n'.txs = n.txs) :
    RecordsOk n' := by
  refine ⟨?_, ?_, ?_⟩
  · rw [htxs, RpcNode.minedTxs, hblocks]
    exact h.recorded
  · rw [hblocks]
    exact h.genesis
  · rw [hblocks]
    exact h.stamped

omit [Platform] in
/-- A new block with some of its transactions recorded. -/
theorem append (h : RecordsOk n) (hne : n.blocks ≠ []) (hblocks : n'.blocks = n.blocks ++ [b])
    (hb : StampedTxs (n.blocks.length + 1) b.transactions) {l : List TxRecord}
    (htxs : n'.txs = n.txs ++ l) (hl : l.Sublist b.transactions) : RecordsOk n' := by
  refine ⟨?_, fun b' hb' => ?_, fun i b' hb' => ?_⟩
  · rw [htxs, RpcNode.minedTxs, hblocks, List.flatMap_append, List.flatMap_singleton]
    exact h.recorded.append hl
  · rw [hblocks, List.getElem?_append_left (List.length_pos_iff.mpr hne)] at hb'
    exact h.genesis b' hb'
  · rw [hblocks] at hb'
    rcases Nat.lt_trichotomy i n.blocks.length with hi | rfl | hi
    · rw [List.getElem?_append_left hi] at hb'
      exact h.stamped i b' hb'
    · rw [List.getElem?_append_right le_rfl, Nat.sub_self] at hb'
      cases hb'
      exact hb
    · rw [List.getElem?_append_right hi.le, List.getElem?_eq_none (by simp; omega)] at hb'
      cases hb'

omit [Platform] in
/-- A rollback drops the records of the removed blocks. -/
theorem rollback [Platform] (h : RecordsOk n) (hchain : ChainOk n) (ω : Choices) (height : ℕ)
    (s : StateSnapshotRecord) : RecordsOk (n.rollback ω height s) := by
  have hblocks := hchain.blocks_rollback ω height s
  refine ⟨?_, fun b hb => ?_, fun i b hb => ?_⟩
  · have hsplit : n.minedTxs = (n.blocks.take (height - 1)).flatMap (·.transactions) ++
        (n.blocks.drop (height - 1)).flatMap (·.transactions) := by
      rw [← List.flatMap_append, List.take_append_drop]
      rfl
    have hrecorded := h.recorded
    rw [hsplit] at hrecorded
    obtain ⟨kept, removed, htxs, hkept, hremoved⟩ := List.sublist_append_iff.mp hrecorded
    have hhash : ∀ tx ∈ removed, toLower tx.hash ∈ n.removedTxHashes height := by
      intro tx htx
      obtain ⟨b, hb, htx⟩ := List.mem_flatMap.mp (hremoved.subset htx)
      rw [RpcNode.removedTxHashes, RpcNode.removedTxs, RpcNode.blocksFrom,
        filter_le_eq_drop hchain.numbers, List.mem_map]
      exact ⟨RpcNode.requeuedTx tx, List.mem_flatMap.mpr ⟨b, hb, List.mem_map_of_mem htx⟩, rfl⟩
    have hnone : removed.filter (fun tx => toLower tx.hash ∉ n.removedTxHashes height) = [] :=
      List.filter_eq_nil_iff.mpr fun tx htx hnot => of_decide_eq_true hnot (hhash tx htx)
    have hfiltered : (n.rollback ω height s).txs =
        n.txs.filter (fun tx => decide (toLower tx.hash ∉ n.removedTxHashes height)) := rfl
    rw [RpcNode.minedTxs, hblocks, hfiltered, htxs, List.filter_append, hnone, List.append_nil]
    exact List.filter_sublist.trans hkept
  · rw [hblocks, List.getElem?_take] at hb
    split at hb
    · exact h.genesis b hb
    · cases hb
  · rw [hblocks, List.getElem?_take] at hb
    split at hb
    · exact h.stamped i b hb
    · cases hb

end RecordsOk

section Steps
variable {cfg : Config} {ω : Choices} {n : RpcNode}

theorem RpcNode.mineTxs_txs {blockHash : String} {blockNumber index : ℕ} (txs : List TxRecord) :
    (RpcNode.mineTxs cfg blockHash blockNumber n ω index txs).2.2.txs =
      n.txs ++ (RpcNode.mineTxs cfg blockHash blockNumber n ω index txs).1 := by
  induction txs generalizing n ω index with
  | nil => exact (List.append_nil _).symm
  | cons tx txs ih =>
      rw [RpcNode.mineTxs]
      dsimp only
      rw [ih, RpcNode.recordTx, RpcNode.applyMinedTransaction_sameChain.txs, List.append_assoc]
      rfl

/-- An import records those whose hash is new. -/
theorem RpcNode.recordImported_txs (n : RpcNode) (txs : List TxRecord)
    (receipts : List ReceiptRecord) :
    ∃ l, (n.recordImported txs receipts).txs = n.txs ++ l ∧ l.Sublist txs := by
  induction txs generalizing n receipts with
  | nil => exact ⟨[], (List.append_nil _).symm, .slnil⟩
  | cons tx txs ih =>
      cases receipts with
      | nil => exact ⟨[], (List.append_nil _).symm, List.nil_sublist _⟩
      | cons receipt receipts =>
          rw [RpcNode.recordImported]
          dsimp only
          split
          · obtain ⟨l, htxs, hl⟩ := ih _ receipts
            exact ⟨l, htxs, hl.cons tx⟩
          · obtain ⟨l, htxs, hl⟩ := ih _ receipts
            exact ⟨tx :: l, by rw [htxs, List.append_assoc]; rfl, hl.cons_cons tx⟩

theorem RpcNode.txs_minePendingBlock (n : RpcNode) (cfg : Config) (ω : Choices) :
    (n.minePendingBlock cfg ω).2.txs = n.txs ++ (n.minePendingTxs cfg ω).1 := by
  obtain ⟨block, l, heq, -⟩ := n.minePendingBlock_eq cfg ω
  rw [heq]
  exact RpcNode.mineTxs_txs n.pendingTxs

theorem RecordsOk.minePendingBlock (h : RecordsOk n) (hchain : ChainOk n) :
    RecordsOk (n.minePendingBlock cfg ω).2 := by
  have hbound := hchain.bound
  have hnumber : u64 ((n.height : ℤ) + 1) = n.height + 1 := u64_of_lt (k := n.height + 1) (by omega)
  have htxs := n.txs_minePendingBlock cfg ω
  obtain ⟨block, timestamp, hblocks, htransactions, -⟩ := n.minePendingBlock_chain cfg ω
  have hmined : (n.minePendingTxs cfg ω).1 = block.transactions :=
    (RpcNode.mineTxs_mined n.pendingTxs).trans htransactions.symm
  refine h.append hchain.ne_nil hblocks ?_ htxs (hmined ▸ List.Sublist.refl _)
  rw [htransactions, hnumber, hchain.length]
  exact ⟨_, _, rfl⟩

theorem RecordsOk.syncBlock (h : RecordsOk n) (hchain : ChainOk n) (block : PeerBlock) :
    RecordsOk (n.syncBlock cfg ω (n.height + 1) block).2 := by
  rcases n.syncBlock_cases cfg ω (n.height + 1) block with ⟨heq, -⟩ | ⟨e, ω₁, ω₂, disk, heq⟩ |
    ⟨ω₂, l, heq, -, hok, -⟩
  · rw [heq]; exact h
  · rw [heq]; exact h.of_eq rfl rfl
  · have hsame := n.applyPeerBlock_sameChain cfg ((ω.call 0).call 1) block.record
    have hmined : (n.applyPeerBlock cfg ((ω.call 0).call 1) block.record).1 =
        block.record.transactions.mapIdx fun i tx => RpcNode.minedTx tx block.record.hash
          (quantity64 block.record.number) (0 + i) := RpcNode.applyTxs_mined _
    rw [heq]
    generalize n.applyPeerBlock cfg ((ω.call 0).call 1) block.record = r at *
    obtain ⟨recorded, htxs, hrecorded⟩ := RpcNode.recordImported_txs
      ((({ r.2.2 with replayMode := n.replayMode } : RpcNode).addCommits l).appendBlock (ω.call 2)
        (RpcNode.importedBlock block.record r.1 r.2.1) (quantity64 block.record.number) "peer"
        (RpcNode.importedBlock block.record r.1 r.2.1).txRoot) r.1 r.2.1
    refine h.append (b := RpcNode.importedBlock block.record r.1 r.2.1) hchain.ne_nil ?_ ?_
      (htxs.trans (congrArg (· ++ recorded) hsame.txs)) hrecorded
    · rw [RpcNode.afterImport_blocks, hsame.blocks]
    · show StampedTxs _ r.1
      rw [hmined, hok.number, hchain.length]
      exact ⟨_, _, rfl⟩

theorem RecordsOk.next (h : RecordsOk n) (hchain : ChainOk n) (e : Event) :
    RecordsOk (n.next cfg ω e) := by
  rcases n.syncBlock_or_localCall hchain cfg ω e with ⟨block, rfl⟩ | hcall
  · exact h.syncBlock hchain block
  · generalize n.next cfg ω e = n' at hcall ⊢
    cases hcall with
    | quiet hquiet => exact h.of_eq hquiet.blocks hquiet.txs
    | recopied ω₁ ω₂ disk => exact h.of_eq rfl rfl
    | mined hmines =>
        have hpending : RecordsOk { n with pendingTxs := n.executed cfg ω e } := h.of_eq rfl rfl
        exact hpending.minePendingBlock (hchain.of_eq rfl rfl rfl rfl rfl)
    | @rolledBack ω' height s hone hle hs =>
        exact (h.rollback hchain ω' height s).of_eq rfl rfl
    | restarted =>
        obtain ⟨index, disk, heq, -⟩ := hchain.restart cfg ω
        rw [heq]
        exact h.of_eq rfl rfl

theorem Reachable.recordsOk (h : Reachable cfg n) : RecordsOk n := by
  refine (h.induct (P := fun n => ChainOk n ∧ RecordsOk n) (fun ω => ⟨chainOk_fresh cfg ω, ?_⟩)
    fun n ω e hn _ hlen => ⟨hn.1.next hlen, hn.2.next hn.1 e⟩).2
  obtain ⟨ω₁, l, timestamp, heq, -⟩ := newRPCNode_fresh cfg ω
  rw [heq]
  refine ⟨List.nil_sublist _, fun b hb => ?_, fun i b hb => ?_⟩
  · cases hb
    rfl
  · obtain ⟨hi, rfl⟩ := List.getElem?_eq_some_iff.mp hb
    rw [List.getElem_singleton]
    exact ⟨"", [], rfl⟩

end Steps

/-! ## The order of the records -/

omit [Platform] in
/-- The first of the one list is the first of the other, when that is all there is to take. -/
theorem take_eq_singleton_of_sublist {α : Type} {l l' : List α} {a : α} {m : ℕ}
    (hsub : l'.Sublist l) (hnodup : l.Nodup) (htake : l.take m = [a]) (ha : a ∈ l') :
    l'.take m = [a] := by
  cases l with
  | nil => rw [List.take_nil] at htake; cases htake
  | cons x rest =>
      cases m with
      | zero => cases htake
      | succ m =>
          rw [List.take_succ_cons, List.cons.injEq] at htake
          obtain ⟨rfl, hrest⟩ := htake
          cases hsub with
          | cons _ hsub => exact absurd (hsub.subset ha) (List.nodup_cons.mp hnodup).1
          | cons_cons _ hsub =>
              rw [List.take_succ_cons, List.cons.injEq]
              refine ⟨rfl, List.take_eq_nil_iff.mpr ?_⟩
              rcases List.take_eq_nil_iff.mp hrest with rfl | rfl
              · exact .inl rfl
              · exact .inr (List.sublist_nil.mp hsub)

section Order
variable {cfg : Config} {n : RpcNode} {tx : TxRecord} {room : ℕ → Bool} {addr : String} {limit : ℤ}

omit [Platform] in
/-- Where a transaction of the chain is written in its record. -/
theorem RecordsOk.stamp (h : RecordsOk n) {i j : ℕ} {b : BlockRecord}
    (hb : n.blocks[i]? = some b) (htx : b.transactions[j]? = some tx) :
    tx.blockNumber = toHex (i + 1) ∧ tx.transactionIndex = toHex j ∧ tx.confirmations = 1 := by
  obtain ⟨hash, txs, htxs⟩ := h.stamped i b hb
  rw [htxs, List.getElem?_mapIdx, Option.map_eq_some_iff] at htx
  obtain ⟨tx', -, rfl⟩ := htx
  exact ⟨rfl, congrArg toHex (Nat.zero_add j), rfl⟩

/-- A transaction of the chain is stamped with a number above the genesis block's and up to the
head's. -/
theorem RecordsOk.of_mem_minedTxs (h : RecordsOk n) (hchain : ChainOk n) (htx : tx ∈ n.minedTxs) :
    2 ≤ quantity64 tx.blockNumber ∧ quantity64 tx.blockNumber ≤ n.height ∧
      tx.confirmations = 1 := by
  obtain ⟨b, hb, htx⟩ := List.mem_flatMap.mp htx
  obtain ⟨i, hi, rfl⟩ := List.mem_iff_getElem.mp hb
  obtain ⟨j, hj, rfl⟩ := List.mem_iff_getElem.mp htx
  obtain ⟨hnumber, -, hone⟩ := h.stamp (List.getElem?_eq_getElem hi) (List.getElem?_eq_getElem hj)
  have hbound := hchain.bound
  have hlength := hchain.length
  have hpos : i ≠ 0 := by
    rintro rfl
    rw [h.genesis _ (List.getElem?_eq_getElem hi)] at hj
    exact absurd hj (Nat.not_lt_zero j)
  rw [hnumber, quantity64_toHex (by omega)]
  exact ⟨by omega, by omega, hone⟩

/-- The chain has each transaction in one place, under numbers that do not go down. -/
theorem RecordsOk.pairwise_minedTxs (h : RecordsOk n) (hchain : ChainOk n) :
    n.minedTxs.Pairwise fun tx tx' =>
      tx ≠ tx' ∧ quantity64 tx.blockNumber ≤ quantity64 tx'.blockNumber := by
  have hbound := hchain.bound
  have hlength := hchain.length
  rw [RpcNode.minedTxs, List.pairwise_flatMap]
  constructor
  · intro b hb
    obtain ⟨i, hi, rfl⟩ := List.mem_iff_getElem.mp hb
    rw [List.pairwise_iff_getElem]
    intro j j' hj hj' hlt
    obtain ⟨hnumber, hindex, -⟩ :=
      h.stamp (List.getElem?_eq_getElem hi) (List.getElem?_eq_getElem hj)
    obtain ⟨hnumber', hindex', -⟩ :=
      h.stamp (List.getElem?_eq_getElem hi) (List.getElem?_eq_getElem hj')
    refine ⟨fun heq => ?_, by rw [hnumber, hnumber']⟩
    rw [heq, hindex'] at hindex
    exact absurd (toHex_injective hindex) (by omega)
  · rw [List.pairwise_iff_getElem]
    intro i i' hi hi' hlt tx htx tx' htx'
    obtain ⟨j, hj, rfl⟩ := List.mem_iff_getElem.mp htx
    obtain ⟨j', hj', rfl⟩ := List.mem_iff_getElem.mp htx'
    obtain ⟨hnumber, -⟩ := h.stamp (List.getElem?_eq_getElem hi) (List.getElem?_eq_getElem hj)
    obtain ⟨hnumber', -⟩ := h.stamp (List.getElem?_eq_getElem hi') (List.getElem?_eq_getElem hj')
    have hle : quantity64 (toHex (i + 1)) ≤ quantity64 (toHex (i' + 1)) := by
      rw [quantity64_toHex (by omega), quantity64_toHex (by omega)]
      omega
    refine ⟨fun heq => ?_, by rw [hnumber, hnumber']; exact hle⟩
    rw [heq, hnumber'] at hnumber
    exact absurd (toHex_injective hnumber) (by omega)

theorem RecordsOk.nodup_minedTxs (h : RecordsOk n) (hchain : ChainOk n) : n.minedTxs.Nodup :=
  (h.pairwise_minedTxs hchain).imp And.left

/-- Of two recorded transactions the later one has the higher index and no lower number. -/
theorem RecordsOk.pairwise_txs (h : RecordsOk n) (hchain : ChainOk n) :
    n.txs.Pairwise fun tx tx' => n.txs.idxOf tx < n.txs.idxOf tx' ∧
      quantity64 tx.blockNumber ≤ quantity64 tx'.blockNumber := by
  have hpairwise := (h.pairwise_minedTxs hchain).sublist h.recorded
  have hnodup : n.txs.Nodup := (h.nodup_minedTxs hchain).sublist h.recorded
  rw [List.pairwise_iff_getElem] at hpairwise ⊢
  intro i j hi hj hlt
  rw [hnodup.idxOf_getElem i hi, hnodup.idxOf_getElem j hj]
  exact ⟨hlt, (hpairwise i j hi hj hlt).2⟩

/-! ## What the call returns -/

/-- The loop goes through the matching records from the end. -/
theorem RpcNode.addressLoop_eq (hnodup : n.txs.Nodup) (m : ℕ) {i : ℕ} (hi : i ≤ n.txs.length)
    (result : List TxRecord) :
    n.addressLoop addr m i result = result ++
      (((n.txs.take i).filter (TxRecord.concerns addr)).reverse.take (m - result.length)).map
        fun tx => n.confirmedAt (n.txs.idxOf tx) tx := by
  induction i generalizing result with
  | zero => rw [RpcNode.addressLoop]; simp
  | succ i ih =>
      have hlt : i < n.txs.length := hi
      rw [RpcNode.addressLoop]
      split
      · next hfull =>
          rw [Nat.sub_eq_zero_of_le hfull, List.take_zero, List.map_nil, List.append_nil]
      · next hroom =>
          have htake : n.txs.take (i + 1) = n.txs.take i ++ [n.txs[i]] :=
            (List.take_append_getElem hlt).symm
          rw [List.getElem?_eq_getElem hlt, htake, List.filter_append]
          dsimp only
          rw [ih hlt.le]
          by_cases hmatch : n.txs[i].concerns addr = true
          · have hcount : m - result.length = (m - (result.length + 1)) + 1 := by omega
            rw [if_pos hmatch, List.filter_cons_of_pos hmatch, List.filter_nil, List.reverse_append,
              List.reverse_singleton, List.singleton_append, hcount, List.take_succ_cons,
              List.map_cons, hnodup.idxOf_getElem i hlt, List.length_append, List.length_singleton,
              List.append_assoc, List.singleton_append]
          · rw [if_neg hmatch, List.filter_cons_of_neg hmatch, List.filter_nil, List.append_nil]

/-- The newest recorded transactions of the address. -/
def RpcNode.newestRecorded (n : RpcNode) (addr : String) (limit : ℤ) : List TxRecord :=
  (n.txs.filter (TxRecord.concerns addr)).reverse.take (RpcNode.resultLimit limit)

/-- **The call.** The newest matching records, with a count of their places, where the slice can
be made. -/
theorem RecordsOk.transactionsByAddress_eq (h : RecordsOk n) (hchain : ChainOk n) :
    n.transactionsByAddress room addr limit =
      if RpcNode.makesTxRecords room (RpcNode.resultLimit limit) then
        some ((n.newestRecorded addr limit).map fun tx => n.confirmedAt (n.txs.idxOf tx) tx)
      else none := by
  have hnodup : n.txs.Nodup := (h.nodup_minedTxs hchain).sublist h.recorded
  rw [RpcNode.transactionsByAddress, RpcNode.addressLoop_eq hnodup _ le_rfl, List.take_length,
    List.nil_append, List.length_nil, Nat.sub_zero, RpcNode.newestRecorded]

/-- The count is right for a record with as many records from it on as its block's number. -/
theorem RecordsOk.confirmations_confirmedAt_iff (h : RecordsOk n) (hchain : ChainOk n)
    (htx : tx ∈ n.txs) :
    (n.confirmedAt (n.txs.idxOf tx) tx).confirmations =
        n.height - quantity64 (n.confirmedAt (n.txs.idxOf tx) tx).blockNumber + 1 ↔
      n.txs.idxOf tx + quantity64 tx.blockNumber = n.txs.length := by
  obtain ⟨-, hle, -⟩ := h.of_mem_minedTxs hchain (h.recorded.subset htx)
  have hindex : n.txs.idxOf tx < n.txs.length := List.idxOf_lt_length_of_mem htx
  rw [RpcNode.confirmedAt]
  dsimp only
  split <;> omega

omit [Platform] in
/-- Records that have been mined once are told apart without their counts. -/
theorem eq_of_map_uncounted {l l' : List TxRecord} (hl : ∀ tx ∈ l, tx.confirmations = 1)
    (hl' : ∀ tx ∈ l', tx.confirmations = 1)
    (h : l.map TxRecord.uncounted = l'.map TxRecord.uncounted) : l = l' := by
  have hback : ∀ l : List TxRecord, (∀ tx ∈ l, tx.confirmations = 1) →
      (l.map TxRecord.uncounted).map (fun tx => { tx with confirmations := 1 }) = l := by
    intro l hl
    rw [List.map_map]
    refine (List.map_congr_left fun tx htx => ?_).trans (List.map_id l)
    have hone := hl tx htx
    cases tx
    cases hone
    rfl
  rw [← hback l hl, h, hback l' hl']

theorem RpcNode.mem_of_mem_newestRecorded (h : tx ∈ n.newestRecorded addr limit) :
    tx ∈ n.txs ∧ TxRecord.concerns addr tx = true :=
  List.mem_filter.mp (List.mem_reverse.mp (List.mem_of_mem_take h))

theorem RpcNode.mem_of_mem_newestMined (h : tx ∈ n.newestMined addr limit) :
    tx ∈ n.minedTxs ∧ TxRecord.concerns addr tx = true :=
  List.mem_filter.mp (List.mem_reverse.mp (List.mem_of_mem_take h))

/-- The counted records are right when the newest mined transactions are the recorded ones and
each has as many records from it on as the number of its block. -/
theorem RecordsOk.rightHistory_iff_placed (h : RecordsOk n) (hchain : ChainOk n) :
    RightHistory n addr limit ((n.newestRecorded addr limit).map
        fun tx => n.confirmedAt (n.txs.idxOf tx) tx) ↔
      n.newestRecorded addr limit = n.newestMined addr limit ∧
      ∀ tx ∈ n.newestRecorded addr limit,
        n.txs.idxOf tx + quantity64 tx.blockNumber = n.txs.length := by
  have hone : ∀ tx ∈ n.minedTxs, tx.confirmations = 1 :=
    fun tx htx => (h.of_mem_minedTxs hchain htx).2.2
  have hrecorded : ∀ tx ∈ n.newestRecorded addr limit, tx ∈ n.txs :=
    fun tx htx => (RpcNode.mem_of_mem_newestRecorded htx).1
  have hnewest : ((n.newestRecorded addr limit).map
      fun tx => n.confirmedAt (n.txs.idxOf tx) tx).map TxRecord.uncounted =
      (n.newestRecorded addr limit).map TxRecord.uncounted := by
    rw [List.map_map]
    rfl
  constructor
  · rintro ⟨hsame, hcounts⟩
    rw [hnewest] at hsame
    refine ⟨eq_of_map_uncounted (fun tx htx => hone tx (h.recorded.subset (hrecorded tx htx)))
      (fun tx htx => hone tx (RpcNode.mem_of_mem_newestMined htx).1) hsame, fun tx htx => ?_⟩
    exact (h.confirmations_confirmedAt_iff hchain (hrecorded tx htx)).mp
      (hcounts _ (List.mem_map_of_mem htx))
  · rintro ⟨hsame, hplaced⟩
    refine ⟨by rw [hnewest, hsame], fun tx htx => ?_⟩
    obtain ⟨tx', htx', rfl⟩ := List.mem_map.mp htx
    exact (h.confirmations_confirmedAt_iff hchain (hrecorded tx' htx')).mpr (hplaced tx' htx')

/-- Indices go down and numbers do not go up, so only one sum can be the length. -/
theorem RecordsOk.at_most_one_placed (h : RecordsOk n) (hchain : ChainOk n)
    (hplaced : ∀ tx ∈ n.newestRecorded addr limit,
      n.txs.idxOf tx + quantity64 tx.blockNumber = n.txs.length) :
    n.newestRecorded addr limit = [] ∨ ∃ tx, n.newestRecorded addr limit = [tx] := by
  have hpairwise := List.pairwise_reverse.mpr
    ((h.pairwise_txs hchain).filter (TxRecord.concerns addr))
  have htake := hpairwise.sublist (List.take_sublist (RpcNode.resultLimit limit) _)
  match hlist : n.newestRecorded addr limit with
  | [] => exact .inl rfl
  | [tx] => exact .inr ⟨tx, rfl⟩
  | tx :: tx' :: rest =>
      rw [← RpcNode.newestRecorded, hlist] at htake
      rw [hlist] at hplaced
      have horder := (List.pairwise_cons.mp htake).1 tx' List.mem_cons_self
      have hplace := hplaced tx List.mem_cons_self
      have hplace' := hplaced tx' (List.mem_cons_of_mem _ List.mem_cons_self)
      omega

/-- Where at most one mined transaction is to be returned, and that one is recorded, the newest
recorded ones are the newest mined ones. -/
theorem RecordsOk.newestRecorded_eq (h : RecordsOk n) (hchain : ChainOk n)
    (hone : n.newestMined addr limit = [] ∨ ∃ tx, n.newestMined addr limit = [tx] ∧ tx ∈ n.txs) :
    n.newestRecorded addr limit = n.newestMined addr limit := by
  have hmatching : ((n.txs.filter (TxRecord.concerns addr)).reverse).Sublist
      (n.minedTxs.filter (TxRecord.concerns addr)).reverse := (h.recorded.filter _).reverse
  rcases hone with hnone | ⟨tx, hone, htx⟩
  · have hpositive : 0 < RpcNode.resultLimit limit := by
      rw [RpcNode.resultLimit]
      split <;> omega
    have hempty := (List.take_eq_nil_iff.mp hnone).resolve_left hpositive.ne'
    rw [hempty] at hmatching
    rw [hnone, RpcNode.newestRecorded, List.sublist_nil.mp hmatching, List.take_nil]
  · rw [hone]
    have hnodup := (h.nodup_minedTxs hchain).filter (TxRecord.concerns addr)
    refine take_eq_singleton_of_sublist hmatching (List.nodup_reverse.mpr hnodup) hone ?_
    have hmem : tx ∈ n.newestMined addr limit := hone ▸ List.mem_singleton_self tx
    exact List.mem_reverse.mpr (List.mem_filter.mpr
      ⟨htx, (RpcNode.mem_of_mem_newestMined hmem).2⟩)

/-- The counted records are right when there is nothing to return, or one recorded transaction
with as many records from it on as the number of its block. -/
theorem RecordsOk.rightHistory_iff (hrecords : RecordsOk n) (hchain : ChainOk n) :
    RightHistory n addr limit ((n.newestRecorded addr limit).map
        fun tx => n.confirmedAt (n.txs.idxOf tx) tx) ↔
      (n.newestMined addr limit = [] ∨ ∃ tx, n.newestMined addr limit = [tx] ∧ tx ∈ n.txs ∧
        n.txs.idxOf tx + quantity64 tx.blockNumber = n.txs.length) := by
  rw [hrecords.rightHistory_iff_placed hchain]
  constructor
  · rintro ⟨hsame, hplaced⟩
    rcases hrecords.at_most_one_placed hchain hplaced with hnone | ⟨tx, hone⟩
    · exact .inl (hsame ▸ hnone)
    · have hmem : tx ∈ n.newestRecorded addr limit := hone ▸ List.mem_singleton_self tx
      exact .inr ⟨tx, hsame ▸ hone, (RpcNode.mem_of_mem_newestRecorded hmem).1, hplaced tx hmem⟩
  · rintro (hnone | ⟨tx, hone, htx, hplace⟩)
    · have hsame := hrecords.newestRecorded_eq hchain (.inl hnone)
      refine ⟨hsame, fun tx htx => ?_⟩
      rw [hsame, hnone] at htx
      cases htx
    · have hsame := hrecords.newestRecorded_eq hchain (.inr ⟨tx, hone, htx⟩)
      refine ⟨hsame, fun tx' htx' => ?_⟩
      rw [hsame, hone, List.mem_singleton] at htx'
      rwa [htx']

/-- **Histories.** In every run, for every address and limit and whatever room the heap has, the
call returns the newest mined transactions with the confirmations of their blocks exactly when a
slice for that many can be made, and there is nothing to return, or one recorded transaction with
as many records from it on as the number of its block. -/
theorem historyAnswered_iff (h : Reachable cfg n) (room : ℕ → Bool) (addr : String) (limit : ℤ) :
    HistoryAnswered n room addr limit ↔ HistoryAnswerable n room addr limit := by
  have hright := @RecordsOk.rightHistory_iff _ n addr limit h.recordsOk h.chainOk
  have heq := @RecordsOk.transactionsByAddress_eq _ n room addr limit h.recordsOk h.chainOk
  constructor
  · rintro ⟨txs, hreturned, hrightTxs⟩
    rw [heq] at hreturned
    split at hreturned
    · next hmade =>
        cases hreturned
        exact ⟨hmade, hright.mp hrightTxs⟩
    · cases hreturned
  · rintro ⟨hmade, hplaced⟩
    exact ⟨_, by rw [heq, if_pos hmade], hright.mpr hplaced⟩

/-- The confirmations of the last recorded transaction are wrong, for its addresses and every
limit. -/
theorem not_historyAnswered_of_last (h : Reachable cfg n) (hlast : n.txs.getLast? = some tx)
    (hconcerns : tx.concerns addr = true) (room : ℕ → Bool) (limit : ℤ) :
    ¬ HistoryAnswered n room addr limit := by
  have hchain := h.chainOk
  have hrecords := h.recordsOk
  obtain ⟨l, hl⟩ := List.getLast?_eq_some_iff.mp hlast
  have htx : tx ∈ n.txs := hl ▸ List.mem_append_right l (List.mem_singleton_self tx)
  have hnodup : n.txs.Nodup := (hrecords.nodup_minedTxs hchain).sublist hrecords.recorded
  have hindex : n.txs.idxOf tx = l.length := by
    have hnot : tx ∉ l := by
      rw [hl, List.nodup_append] at hnodup
      exact fun hmem => hnodup.2.2 tx hmem tx (List.mem_singleton_self tx) rfl
    rw [hl, List.idxOf_append_of_notMem hnot, List.idxOf_cons_self, Nat.add_zero]
  obtain ⟨hnumber, -⟩ := hrecords.of_mem_minedTxs hchain (hrecords.recorded.subset htx)
  have hfirst : ∃ rest, (n.txs.filter (TxRecord.concerns addr)).reverse = tx :: rest := by
    rw [hl, List.filter_append, List.filter_cons_of_pos hconcerns, List.filter_nil,
      List.reverse_append]
    exact ⟨_, rfl⟩
  obtain ⟨rest, hrest⟩ := hfirst
  obtain ⟨m, hm⟩ : ∃ m, RpcNode.resultLimit limit = m + 1 := by
    rw [RpcNode.resultLimit]
    split
    · exact ⟨99, rfl⟩
    · exact ⟨limit.toNat - 1, by omega⟩
  have hnewest : tx ∈ n.newestRecorded addr limit := by
    rw [RpcNode.newestRecorded, hrest, hm, List.take_succ_cons]
    exact List.mem_cons_self
  rintro ⟨txs, hreturned, hright⟩
  rw [hrecords.transactionsByAddress_eq hchain] at hreturned
  split at hreturned
  · cases hreturned
    have hcount := hright.confirmations _ (List.mem_map_of_mem hnewest)
    rw [hrecords.confirmations_confirmedAt_iff hchain htx, hindex, hl, List.length_append,
      List.length_singleton] at hcount
    omega
  · cases hreturned

/-- A limit of `2 ^ 41` transactions is answered by no node: the slice would not fit into the
address space. -/
theorem not_historyAnswered_of_large (h : Reachable cfg n) (room : ℕ → Bool) (addr : String)
    (hlarge : 2 ^ 41 ≤ limit) : ¬ HistoryAnswered n room addr limit := by
  rw [historyAnswered_iff h]
  rintro ⟨hmade, -⟩
  have hlimit : RpcNode.resultLimit limit = limit.toNat := by
    rw [RpcNode.resultLimit, if_neg (by omega)]
  have hspace := (Bool.and_eq_true_iff.mp hmade).1
  rw [decide_eq_true_iff, hlimit, RpcNode.txRecordSize] at hspace
  omega

end Order

/-! ## One transfer -/

/-- The transfer of the default account is recorded. -/
theorem txs_wholeTransfer (ω : Choices) :
    let n := ((newRPCNode manualMining ω {}).next manualMining ω
      (.sendTransaction wholeTransfer)).next manualMining ω .mineBlock
    ∃ tx, n.txs.getLast? = some tx ∧ tx.concerns defaultAccount = true := by
  obtain ⟨hworld, hempty, -⟩ := fresh_manualMining ω
  obtain ⟨-, -, hpending⟩ := send_wholeTransfer hworld ω
  obtain ⟨hsender, -⟩ := wholeTransfer_record (newRPCNode manualMining ω {}) (ω.call 0)
  generalize (newRPCNode manualMining ω {}).txOfObject (ω.call 0) wholeTransfer "" = record at *
  rw [hempty, List.nil_append] at hpending
  generalize (newRPCNode manualMining ω {}).next manualMining ω (.sendTransaction wholeTransfer) = m
    at *
  have hmined : (m.minePendingTxs manualMining ω).1 = [RpcNode.minedTx record
      (m.nextBlockHash (ω.call 0)) (u64 (m.height + 1)) (0 + 0)] := by
    refine (RpcNode.mineTxs_mined m.pendingTxs).trans ?_
    rw [hpending]
    rfl
  intro n
  have htxs : n.txs = m.txs ++ (m.minePendingTxs manualMining ω).1 :=
    m.txs_minePendingBlock manualMining ω
  refine ⟨_, by rw [htxs, hmined, List.getLast?_concat], ?_⟩
  have hnormal : normalizeAddress record.sender = defaultAccount := by
    rw [hsender, normalizeAddress_defaultAccount]
  exact Bool.or_eq_true_iff.mpr (.inl (decide_eq_true hnormal))

omit [Platform] in
/-- The transfer was mined in the last of two blocks, and has two confirmations. -/
theorem not_historyAnswered_wholeTransfer :
    letI := Platform.checksums
    let n := ((newRPCNode manualMining default {}).next manualMining default
      (.sendTransaction wholeTransfer)).next manualMining default .mineBlock
    Reachable manualMining n ∧ ¬ HistoryAnswered n (fun _ => true) defaultAccount 10 := by
  let _ := Platform.checksums
  have hreach : Reachable manualMining _ := run_wholeTransfer default trivial trivial
  obtain ⟨tx, hlast, hconcerns⟩ := txs_wholeTransfer default
  exact ⟨hreach, not_historyAnswered_of_last hreach hlast hconcerns (fun _ => true) 10⟩

/-! ## A transfer with a raw transaction behind it -/

/-- The transfer and a raw transaction without addresses wait for one block. -/
def transferAndRaw (ω : Choices) : RpcNode :=
  ((newRPCNode manualMining ω {}).next manualMining ω (.sendTransaction wholeTransfer)).next
    manualMining ω (.sendRawTransaction "0x01")

/-- Both are recorded and on the chain, and only the transfer is one of the default account. -/
theorem txs_transferAndRaw (ω : Choices) :
    ∃ tx tx', ((transferAndRaw ω).next manualMining ω .mineBlock).txs = [tx, tx'] ∧
      ((transferAndRaw ω).next manualMining ω .mineBlock).minedTxs = [tx, tx'] ∧
      tx.concerns defaultAccount = true ∧ tx'.concerns defaultAccount = false ∧
      quantity64 tx.blockNumber = 2 := by
  obtain ⟨hworld, -⟩ := fresh_manualMining ω
  obtain ⟨hsender, -⟩ := wholeTransfer_record (newRPCNode manualMining ω {}) (ω.call 0)
  have hqueued : transferAndRaw ω = _ := queue_sendRaw _ ω "0x01"
  rw [queue_wholeTransfer hworld] at hqueued
  obtain ⟨ω₁, l, timestamp, heq, -⟩ := newRPCNode_fresh manualMining ω
  generalize (newRPCNode manualMining ω {}).txOfObject (ω.call 0) wholeTransfer "" = record at *
  rw [heq] at hqueued
  obtain ⟨block, _, hblocks, htransactions, -⟩ :=
    (transferAndRaw ω).minePendingBlock_chain manualMining ω
  have htxs := (transferAndRaw ω).txs_minePendingBlock manualMining ω
  rw [RpcNode.minePendingTxs, RpcNode.mineTxs_mined] at htxs
  have hheight : u64 ((transferAndRaw ω).height + 1) = 2 := by rw [hqueued]; rfl
  have hpending : (transferAndRaw ω).pendingTxs = [record, RpcNode.txOfRaw (ω.call 0) "0x01"] := by
    rw [hqueued]; rfl
  rw [hheight, hpending] at htransactions htxs
  refine ⟨_, _, htxs.trans (by rw [hqueued]; rfl), ?_, ?_, ?_, ?_⟩
  · rw [RpcNode.minedTxs, RpcNode.next, hblocks, List.flatMap_append, List.flatMap_singleton,
      htransactions, hqueued]
    rfl
  · have hnormal : normalizeAddress record.sender = defaultAccount := by
      rw [hsender, normalizeAddress_defaultAccount]
    exact Bool.or_eq_true_iff.mpr (.inl (decide_eq_true hnormal))
  · show (decide (normalizeAddress "" = defaultAccount) ||
      decide (normalizeAddress "" = defaultAccount)) = false
    rw [normalizeAddress_empty]
    decide
  · exact quantity64_toHex (by decide)

theorem reachable_transferAndRaw (ω : Choices) :
    Reachable manualMining ((transferAndRaw ω).next manualMining ω .mineBlock) := by
  obtain ⟨hworld, -, hblocks⟩ := fresh_manualMining ω
  have hsent : (newRPCNode manualMining ω {}).next manualMining ω (.sendTransaction wholeTransfer) =
      _ := queue_wholeTransfer hworld ω
  have hqueued : transferAndRaw ω = _ := queue_sendRaw _ ω "0x01"
  obtain ⟨block, hmined⟩ := (transferAndRaw ω).minePendingBlock_blocks manualMining ω
  have hsame : (transferAndRaw ω).blocks = (newRPCNode manualMining ω {}).blocks := by
    rw [hqueued, hsent]
    rfl
  refine ⟨ω, .tail (.tail (.single ⟨ω, .sendTransaction wholeTransfer, trivial, rfl, ?_⟩)
    ⟨ω, .sendRawTransaction "0x01", trivial, rfl, ?_⟩) ⟨ω, .mineBlock, trivial, rfl, ?_⟩⟩
  · rw [hsent]
    show (newRPCNode manualMining ω {}).blocks.length < 2 ^ 63
    rw [hblocks]
    decide
  · show (transferAndRaw ω).blocks.length < 2 ^ 63
    rw [hsame, hblocks]
    decide
  · show ((transferAndRaw ω).next manualMining ω .mineBlock).blocks.length < 2 ^ 63
    rw [RpcNode.next, hmined, hsame, List.length_append, List.length_singleton, hblocks]
    decide

omit [Platform] in
/-- Behind the transfer of block 2 there is one more record, so that its count is right. -/
theorem historyAnswered_transferAndRaw :
    letI := Platform.checksums
    HistoryAnswered ((transferAndRaw default).next manualMining default .mineBlock)
      (fun _ => true) defaultAccount 10 := by
  let _ := Platform.checksums
  obtain ⟨tx, tx', htxs, hmined, hfirst, hsecond, hnumber⟩ := txs_transferAndRaw default
  refine (historyAnswered_iff (reachable_transferAndRaw default) _ defaultAccount 10).mpr
    ⟨by decide, .inr ⟨tx, ?_, ?_, ?_⟩⟩
  · rw [RpcNode.newestMined, hmined, List.filter_cons_of_pos hfirst,
      List.filter_cons_of_neg (Bool.eq_false_iff.mp hsecond)]
    rfl
  · rw [htxs]
    exact List.mem_cons_self
  · rw [htxs, List.idxOf_cons_self, hnumber]
    rfl

end BhtBhte.Node
