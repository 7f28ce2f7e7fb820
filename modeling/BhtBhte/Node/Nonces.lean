import BhtBhte.Node.Supply

/-!
# The nonces on the chain

A submitted transaction gets the nonce its sender has at that moment.  Executing a transfer advances
it, executing a creation does not, and a reorganisation puts the removed transactions back as they
were.  So an account's transactions carry 0, 1, 2, … as long as it sends only while none of its
transactions waits and it has created no contract, nothing is requeued behind a later transaction of
the same account, and imported blocks go on counting where the chain stops.
-/
namespace BhtBhte.Node
open BhtBhte.Lib
variable [Platform]

/-- The transaction has a sender, which is the account `a`. -/
def TxRecord.sentBy (a : String) (tx : TxRecord) : Bool :=
  tx.sender ≠ "" && normalizeAddress tx.sender = a

def TxRecord.isTransferOf (a : String) (tx : TxRecord) : Bool := tx.sentBy a && tx.recipient ≠ ""

def TxRecord.isCreationOf (a : String) (tx : TxRecord) : Bool := tx.sentBy a && tx.recipient = ""

/-- The nonces that the transactions of one account carry, in order. -/
def noncesOf (a : String) (txs : List TxRecord) : List ℤ :=
  (txs.filter (·.sentBy a)).map fun tx => parseQuantity tx.nonce

/-- Every account's transactions carry the nonces 0, 1, 2, … without gap or repeat. -/
def InSequence (txs : List TxRecord) : Prop :=
  ∀ a, noncesOf a txs = (List.range (noncesOf a txs).length).map fun k : ℕ => (k : ℤ)

/-- The transactions of the chain, in order. -/
def RpcNode.canonicalTxs (n : RpcNode) : List TxRecord := n.blocks.flatMap (·.transactions)

/-! ## Lists of transactions -/

/-- Who sent a transaction, to whom and with which nonce. -/
def TxRecord.entry (tx : TxRecord) : String × String × String := (tx.sender, tx.recipient, tx.nonce)

section Lists
variable {a : String} {txs txs' : List TxRecord} {tx : TxRecord}

theorem noncesOf_append : noncesOf a (txs ++ txs') = noncesOf a txs ++ noncesOf a txs' := by
  rw [noncesOf, List.filter_append, List.map_append]
  rfl

theorem noncesOf_singleton :
    noncesOf a [tx] = if tx.sentBy a then [parseQuantity tx.nonce] else [] := by
  rw [noncesOf, List.filter_singleton]
  cases tx.sentBy a <;> rfl

theorem length_noncesOf : (noncesOf a txs).length = txs.countP (·.sentBy a) := by
  rw [noncesOf, List.length_map, ← List.countP_eq_length_filter]

theorem noncesOf_eq_nil (h : ∀ tx ∈ txs, tx.sentBy a = false) : noncesOf a txs = [] := by
  rw [noncesOf, List.filter_eq_nil_iff.mpr fun tx htx => by simp [h tx htx], List.map_nil]

/-- The nonces are read off the entries. -/
theorem noncesOf_congr (h : txs.map (·.entry) = txs'.map (·.entry)) :
    noncesOf a txs = noncesOf a txs' := by
  have hentries : ∀ l : List TxRecord, noncesOf a l = ((l.map (·.entry)).filter fun e =>
      e.1 ≠ "" && normalizeAddress e.1 = a).map fun e => parseQuantity e.2.2 := by
    intro l
    rw [List.filter_map, List.map_map]
    rfl
  rw [hentries, hentries, h]

/-- So are the transfers. -/
theorem countP_isTransferOf_congr (h : txs.map (·.entry) = txs'.map (·.entry)) :
    txs.countP (·.isTransferOf a) = txs'.countP (·.isTransferOf a) := by
  have hentries : ∀ l : List TxRecord, l.countP (·.isTransferOf a) =
      (l.map (·.entry)).countP fun e =>
        (e.1 ≠ "" && normalizeAddress e.1 = a) && e.2.1 ≠ "" := by
    intro l
    rw [List.countP_map]
    rfl
  rw [hentries, hentries, h]

omit [Platform] in
theorem entries_mapIdx_minedTx (hash : String) (number index : ℕ) :
    (txs.mapIdx fun i tx => RpcNode.minedTx tx hash number (index + i)).map (·.entry) =
      txs.map (·.entry) :=
  map_mapIdx_eq _ _ _ fun _ _ => rfl

/-- Every transaction of an account that created nothing is a transfer. -/
theorem countP_sentBy_eq (h : ∀ tx ∈ txs, tx.isCreationOf a = false) :
    txs.countP (·.sentBy a) = txs.countP (·.isTransferOf a) := by
  refine List.countP_congr fun tx htx => ?_
  have hnot := h tx htx
  rw [TxRecord.isCreationOf, Bool.and_eq_false_imp] at hnot
  rw [TxRecord.isTransferOf, Bool.and_eq_true, decide_eq_true_eq]
  refine ⟨fun hsent => ⟨hsent, ?_⟩, fun hboth => hboth.1⟩
  simpa using hnot hsent

end Lists

/-! ## Numbered lists -/

/-- The transactions are in sequence and name their senders in normal form. -/
structure Numbered (txs : List TxRecord) : Prop where
  sequence : InSequence txs
  normal : ∀ tx ∈ txs, tx.sender ≠ "" → normalizeAddress tx.sender = tx.sender

section Numbered
variable {txs txs' : List TxRecord} {tx : TxRecord}

theorem Numbered.congr (h : Numbered txs) (heq : txs'.map (·.entry) = txs.map (·.entry)) :
    Numbered txs' := by
  refine ⟨fun a => ?_, fun tx htx hne => ?_⟩
  · rw [noncesOf_congr heq]
    exact h.sequence a
  · have hmem := List.mem_map_of_mem (f := (·.entry)) htx
    rw [heq] at hmem
    obtain ⟨tx', htx', hentry⟩ := List.mem_map.mp hmem
    have hsender : tx'.sender = tx.sender := congrArg Prod.fst hentry
    rw [← hsender] at hne ⊢
    exact h.normal tx' htx' hne

/-- One more transaction, which carries the next nonce of its sender. -/
theorem Numbered.snoc (h : Numbered txs)
    (hnormal : tx.sender ≠ "" → normalizeAddress tx.sender = tx.sender)
    (hnonce : tx.sender ≠ "" → parseQuantity tx.nonce = (txs.countP (·.sentBy tx.sender) : ℕ)) :
    Numbered (txs ++ [tx]) := by
  refine ⟨fun a => ?_, fun t ht hne => ?_⟩
  · rw [noncesOf_append, noncesOf_singleton]
    split
    · next hsent =>
        rw [TxRecord.sentBy, Bool.and_eq_true, decide_eq_true_eq, decide_eq_true_eq] at hsent
        obtain ⟨hne, rfl⟩ := hsent
        rw [List.length_append, List.length_singleton, List.range_succ, List.map_append,
          ← h.sequence, hnonce hne, hnormal hne, length_noncesOf]
        rfl
    · rw [List.append_nil]
      exact h.sequence a
  · rcases List.mem_append.mp ht with ht | ht
    · exact h.normal t ht hne
    · rw [List.mem_singleton.mp ht] at hne ⊢
      exact hnormal hne

/-- More transactions, which go on counting where the list stops. -/
theorem Numbered.append (h : Numbered txs)
    (hnormal : ∀ tx ∈ txs', tx.sender ≠ "" → normalizeAddress tx.sender = tx.sender)
    (hnonces : ∀ a, noncesOf a txs' = (List.range (noncesOf a txs').length).map
      fun k => ((txs.countP (·.sentBy a) + k : ℕ) : ℤ)) : Numbered (txs ++ txs') := by
  refine ⟨fun a => ?_, fun tx htx => ?_⟩
  · rw [noncesOf_append, List.length_append, List.range_add, List.map_append, List.map_map,
      ← h.sequence a, length_noncesOf]
    exact congrArg _ (hnonces a)
  · rcases List.mem_append.mp htx with htx | htx
    · exact h.normal tx htx
    · exact hnormal tx htx

/-- No account has a transaction in both lists. -/
def Apart (txs txs' : List TxRecord) : Prop :=
  ∀ a, ∀ tx ∈ txs, ∀ tx' ∈ txs', tx.sentBy a = true → tx'.sentBy a = false

theorem Apart.nil_or_nil (h : Apart txs txs') (a : String) :
    noncesOf a txs = [] ∨ noncesOf a txs' = [] := by
  by_cases hsent : ∃ tx ∈ txs, tx.sentBy a = true
  · obtain ⟨tx, htx, hsent⟩ := hsent
    exact .inr (noncesOf_eq_nil fun tx' htx' => h a tx htx tx' htx' hsent)
  · refine .inl (noncesOf_eq_nil fun tx htx => ?_)
    exact Bool.eq_false_iff.mpr fun htrue => hsent ⟨tx, htx, htrue⟩

/-- Lists of different accounts may stand in either order. -/
theorem Numbered.swap {chain : List TxRecord} (h : Numbered (chain ++ txs ++ txs'))
    (hapart : Apart txs txs') : Numbered (chain ++ (txs' ++ txs)) := by
  refine ⟨fun a => ?_, fun tx htx => h.normal tx ?_⟩
  · have hsame : noncesOf a (chain ++ (txs' ++ txs)) = noncesOf a (chain ++ txs ++ txs') := by
      simp only [noncesOf_append]
      rcases hapart.nil_or_nil a with hnil | hnil <;> simp [hnil]
    rw [hsame]
    exact h.sequence a
  · simp only [List.mem_append] at htx ⊢
    tauto

/-- Two lists of different accounts that both continue a chain continue it together. -/
theorem Numbered.join {chain : List TxRecord} (h : Numbered (chain ++ txs))
    (h' : Numbered (chain ++ txs')) (hapart : Apart txs txs') :
    Numbered (chain ++ txs ++ txs') := by
  refine ⟨fun a => ?_, fun tx htx => ?_⟩
  · rcases hapart.nil_or_nil a with hnil | hnil
    · have hsame : noncesOf a (chain ++ txs ++ txs') = noncesOf a (chain ++ txs') := by
        simp [noncesOf_append, hnil]
      rw [hsame]
      exact h'.sequence a
    · have hsame : noncesOf a (chain ++ txs ++ txs') = noncesOf a (chain ++ txs) := by
        simp [noncesOf_append, hnil]
      rw [hsame]
      exact h.sequence a
  · rcases List.mem_append.mp htx with htx | htx
    · exact h.normal tx htx
    · exact h'.normal tx (List.mem_append_right _ htx)

theorem Numbered.of_append (h : Numbered (txs ++ txs')) : Numbered txs := by
  refine ⟨fun a => ?_, fun tx htx => h.normal tx (List.mem_append_left _ htx)⟩
  have ha := congrArg (List.take (noncesOf a txs).length) (h.sequence a)
  rw [noncesOf_append, List.take_left, List.length_append, ← List.map_take, List.take_range,
    Nat.min_eq_left (by omega)] at ha
  exact ha

end Numbered

/-! ## The nonce map as a count -/

/-- The nonce map has normal keys and counts the transfers of the list, in 64 bits. -/
structure CountsTransfers (txs : List TxRecord) (w : World) : Prop where
  normal : ∀ a ∈ w.nonces.keys, normalizeAddress a = a
  count : ∀ a, a ≠ "" → (w.nonces.get? a).getD 0 = u64 (txs.countP (·.isTransferOf a) : ℕ)

theorem CountsTransfers.copy {txs : List TxRecord} {w : World} (h : CountsTransfers txs w)
    (ω : Choices) : CountsTransfers txs (w.copy ω) := by
  have hcopy : (w.copy ω).nonces = w.nonces :=
    FinMap.rekey_eq_self (w.nonces.range_perm _) h.normal
  constructor
  · rw [hcopy]; exact h.normal
  · rw [hcopy]; exact h.count

theorem CountsTransfers.congr {txs txs' : List TxRecord} {w : World} (h : CountsTransfers txs w)
    (heq : txs'.map (·.entry) = txs.map (·.entry)) : CountsTransfers txs' w := by
  refine ⟨h.normal, fun a ha => ?_⟩
  rw [countP_isTransferOf_congr heq]
  exact h.count a ha

omit [Platform] in
theorem u64_u64_add_one (k : ℕ) : u64 ((u64 (k : ℤ) : ℕ) + 1) = u64 ((k + 1 : ℕ) : ℤ) := by
  simp only [u64]
  omega

/-- Executing a transaction whose sender is in normal form extends the count. -/
theorem CountsTransfers.apply {txs : List TxRecord} {w : World} (h : CountsTransfers txs w)
    {tx : TxRecord} (hnormal : tx.sender ≠ "" → normalizeAddress tx.sender = tx.sender)
    (bridgeAddress : String) : CountsTransfers (txs ++ [tx]) (w.apply bridgeAddress tx) := by
  have hcount : ∀ a, (txs ++ [tx]).countP (·.isTransferOf a) =
      txs.countP (·.isTransferOf a) + if tx.isTransferOf a then 1 else 0 := by
    intro a
    rw [List.countP_append, List.countP_singleton]
  by_cases hne : tx.sender ≠ "" ∧ tx.recipient ≠ ""
  · have hnormal := hnormal hne.1
    constructor
    · rw [World.nonces_apply, if_pos hne]
      exact World.fixed_insert _ h.normal hnormal
    · intro a ha
      rw [World.nonces_apply, if_pos hne, FinMap.get?_insert, hcount]
      by_cases heq : a = tx.sender
      · have hown : tx.isTransferOf tx.sender = true := by
          simp [TxRecord.isTransferOf, TxRecord.sentBy, hne, hnormal]
        rw [if_pos heq, heq, if_pos hown, Option.getD_some, h.count _ hne.1, u64_u64_add_one]
      · have hother : ¬ tx.isTransferOf a = true := by
          rw [TxRecord.isTransferOf, TxRecord.sentBy, hnormal]
          simp [Ne.symm heq]
        rw [if_neg heq, if_neg hother, Nat.add_zero]
        exact h.count a ha
  · have hnone : ∀ a, ¬ tx.isTransferOf a = true := by
      intro a
      rw [TxRecord.isTransferOf, TxRecord.sentBy]
      simp only [Bool.and_eq_true, decide_eq_true_eq]
      exact fun hall => hne ⟨hall.1.1, hall.2⟩
    constructor
    · rw [World.nonces_apply, if_neg hne]
      exact h.normal
    · intro a ha
      rw [World.nonces_apply, if_neg hne, hcount, if_neg (hnone a), Nat.add_zero]
      exact h.count a ha

theorem CountsTransfers.foldl {chain txs : List TxRecord} {w : World} {bridgeAddress : String}
    (h : CountsTransfers chain w)
    (hnormal : ∀ tx ∈ txs, tx.sender ≠ "" → normalizeAddress tx.sender = tx.sender) :
    CountsTransfers (chain ++ txs) (txs.foldl (World.apply · bridgeAddress ·) w) := by
  induction txs generalizing w chain with
  | nil =>
      rw [List.append_nil]
      exact h
  | cons tx txs ih =>
      rw [List.append_cons, List.foldl_cons]
      exact ih (h.apply (hnormal tx List.mem_cons_self) bridgeAddress)
        fun tx' htx' => hnormal tx' (List.mem_cons_of_mem _ htx')

/-! ## Runs -/

/-- The account may send: nothing of it waits, it has created no contract on the chain, and its
transactions there are counted in 64 bits. -/
structure MaySend (n : RpcNode) (a : String) : Prop where
  idle : ∀ tx ∈ n.pendingTxs, tx.sentBy a = false
  noContract : ∀ tx ∈ n.canonicalTxs, tx.isCreationOf a = false
  room : n.canonicalTxs.countP (·.sentBy a) < 2 ^ 64

/-- The transactions of a peer's block name their senders in normal form, go on counting where the
chain stops, and are of accounts of which nothing waits. -/
structure Continues (n : RpcNode) (txs : List TxRecord) : Prop where
  normal : ∀ tx ∈ txs, tx.sender ≠ "" → normalizeAddress tx.sender = tx.sender
  nonces : ∀ a, noncesOf a txs = (List.range (noncesOf a txs).length).map
    fun k => ((n.canonicalTxs.countP (·.sentBy a) + k : ℕ) : ℤ)
  apart : Apart txs n.pendingTxs

/-- An account sends when it may, a reorganisation removes nothing of an account of which a
transaction waits, and an imported block continues the chain. -/
def NonceStep (cfg : Config) (n : RpcNode) (ω : Choices) : Event → Prop
  | .sendTransaction tx => n.validateTransaction cfg tx = .ok () →
      MaySend n (normalizeAddress (text tx "from"))
  | .handleReorg height newHash => 1 < height ∧ (n.canonical.get? height).getD "" ≠ "" ∧
      equalFold ((n.canonical.get? height).getD "") newHash = false →
      Apart (n.removedTxs height) n.pendingTxs
  | .syncBlock block => (n.syncBlock cfg ω (n.height + 1) block).1 = .ok true →
      Continues n block.record.transactions
  | _ => True

/-- The nonce map counts the transfers of the chain, in each snapshot those up to its block, and the
transactions of the chain with those that wait are numbered. -/
structure NoncesOk (n : RpcNode) : Prop where
  counts : Along (fun blocks => CountsTransfers (blocks.flatMap (·.transactions))) n
  numbered : Numbered (n.canonicalTxs ++ n.pendingTxs)

section Calls
variable {cfg : Config} {n : RpcNode} {ω : Choices}

/-- Mining moves the pending transactions to the end of the chain. -/
theorem entries_minePendingBlock :
    (n.minePendingBlock cfg ω).2.canonicalTxs.map (·.entry) =
      (n.canonicalTxs ++ n.pendingTxs).map (·.entry) := by
  obtain ⟨block, timestamp, hblocks, htxs, -⟩ := n.minePendingBlock_chain cfg ω
  rw [RpcNode.canonicalTxs, hblocks, List.flatMap_append, List.flatMap_singleton, htxs,
    List.map_append, entries_mapIdx_minedTx, ← List.map_append]
  rfl

theorem Numbered.minePendingBlock (h : Numbered (n.canonicalTxs ++ n.pendingTxs)) :
    Numbered ((n.minePendingBlock cfg ω).2.canonicalTxs ++
      (n.minePendingBlock cfg ω).2.pendingTxs) := by
  rw [n.minePendingBlock_pendingTxs cfg ω, List.append_nil]
  exact h.congr entries_minePendingBlock

theorem Numbered.enqueue {record : TxRecord}
    (h : Numbered (n.canonicalTxs ++ (n.pendingTxs ++ [record]))) :
    Numbered ((n.enqueue cfg ω record).canonicalTxs ++ (n.enqueue cfg ω record).pendingTxs) := by
  rw [RpcNode.enqueue]
  by_cases hauto : cfg.autoMine = true
  · rw [if_pos hauto]
    exact Numbered.minePendingBlock (n := { n with pendingTxs := n.pendingTxs ++ [record] }) h
  · rw [if_neg hauto]
    exact h

/-- A transaction of an account that may send gets the next nonce. -/
theorem NoncesOk.send (h : NoncesOk n) {tx : Object}
    (hsend : MaySend n (normalizeAddress (text tx "from"))) :
    Numbered (n.canonicalTxs ++ (n.pendingTxs ++ [n.txOfObject ω tx ""])) := by
  rw [← List.append_assoc]
  refine h.numbered.snoc (fun _ => normalizeAddress_normalizeAddress _) fun hne => ?_
  have hpending : n.pendingTxs.countP (·.sentBy (normalizeAddress (text tx "from"))) = 0 :=
    List.countP_eq_zero.mpr fun t ht => by simp [hsend.idle t ht]
  show parseQuantity (toHex ((n.world.nonces.get? (normalizeAddress (text tx "from"))).getD 0)) =
    (((n.canonicalTxs ++ n.pendingTxs).countP
      (·.sentBy (normalizeAddress (text tx "from"))) : ℕ) : ℤ)
  have hcount := h.counts.world.count (normalizeAddress (text tx "from")) hne
  rw [← RpcNode.canonicalTxs, ← countP_sentBy_eq hsend.noContract, u64_of_lt hsend.room] at hcount
  rw [parseQuantity_toHex, List.countP_append, hpending, Nat.add_zero]
  exact congrArg Nat.cast hcount

/-- A raw transaction has no sender. -/
theorem NoncesOk.sendRaw (h : NoncesOk n) (rawTx : String) :
    Numbered (n.canonicalTxs ++ (n.pendingTxs ++ [RpcNode.txOfRaw ω rawTx])) := by
  rw [← List.append_assoc]
  exact h.numbered.snoc (fun hne => absurd rfl hne) fun hne => absurd rfl hne

/-- A rollback puts the end of the chain behind the transactions that wait. -/
theorem NoncesOk.rollback (h : NoncesOk n) (hchain : ChainOk n) {height : ℕ}
    {s : StateSnapshotRecord} (hapart : Apart (n.removedTxs height) n.pendingTxs) :
    Numbered ((n.rollback ω height s).save.canonicalTxs ++
      (n.rollback ω height s).save.pendingTxs) := by
  have hblocks : (n.rollback ω height s).save.blocks = n.blocks.take (height - 1) :=
    hchain.blocks_rollback ω height s
  have hremoved : (n.removedTxs height).map (·.entry) =
      ((n.blocks.drop (height - 1)).flatMap (·.transactions)).map (·.entry) := by
    rw [RpcNode.removedTxs, RpcNode.blocksFrom, filter_le_eq_drop hchain.numbers, List.map_flatMap,
      List.map_flatMap]
    congr 1
    funext b
    rw [List.map_map]
    rfl
  have hsplit : n.canonicalTxs = (n.blocks.take (height - 1)).flatMap (·.transactions) ++
      (n.blocks.drop (height - 1)).flatMap (·.transactions) := by
    rw [← List.flatMap_append, List.take_append_drop]
    rfl
  have hchained : Numbered ((n.blocks.take (height - 1)).flatMap (·.transactions) ++
      n.removedTxs height ++ n.pendingTxs) := by
    refine h.numbered.congr ?_
    rw [hsplit]
    simp only [List.map_append, hremoved]
  rw [RpcNode.canonicalTxs, hblocks]
  exact hchained.swap hapart

/-- An imported block is put before the transactions that wait. -/
theorem NoncesOk.syncBlock (h : NoncesOk n) {block : PeerBlock}
    (hstep : (n.syncBlock cfg ω (n.height + 1) block).1 = .ok true →
      Continues n block.record.transactions) :
    Numbered ((n.syncBlock cfg ω (n.height + 1) block).2.canonicalTxs ++
      (n.syncBlock cfg ω (n.height + 1) block).2.pendingTxs) := by
  rcases n.syncBlock_cases cfg ω (n.height + 1) block with ⟨heq, -⟩ | ⟨e, ω₁, ω₂, disk, heq⟩ |
    ⟨ω₂, l, heq, -⟩
  · rw [heq]; exact h.numbered
  · rw [heq]; exact h.numbered
  · obtain ⟨hnormal, hnonces, hapart⟩ := hstep (by rw [heq])
    obtain ⟨stored, timestamp, hblocks, hstored, -, -, hpending⟩ :=
      n.afterImport_chain cfg (ω.call 2) ((ω.call 0).call 1) block.record l
    have hjoined : Numbered (n.canonicalTxs ++ block.record.transactions ++ n.pendingTxs) :=
      (h.numbered.of_append.append hnormal hnonces).join h.numbered hapart
    rw [heq]
    refine hjoined.congr ?_
    rw [RpcNode.canonicalTxs, hblocks, List.flatMap_append, List.flatMap_singleton, hstored, hpending]
    simp only [List.map_append, entries_mapIdx_minedTx]
    rfl

/-- What a call executes names its senders in normal form. -/
theorem NoncesOk.normal_executed (h : NoncesOk n) {e : Event} (hstep : NonceStep cfg n ω e)
    {tx : TxRecord} (htx : tx ∈ n.executed cfg ω e) (hne : tx.sender ≠ "") :
    normalizeAddress tx.sender = tx.sender := by
  by_cases he : ∃ block, e = .syncBlock block
  · obtain ⟨block, rfl⟩ := he
    rw [RpcNode.executed] at htx
    split at htx
    · next hok => exact (hstep hok).normal tx htx hne
    · cases htx
  · rcases RpcNode.mem_or_normal_of_mem_executed (fun block hblock => he ⟨block, hblock⟩) htx with
      htx | hnormal
    · exact h.numbered.normal tx (List.mem_append_right _ htx) hne
    · exact hnormal.sender

theorem NoncesOk.next (h : NoncesOk n) (hchain : ChainOk n) (hfunded : FundedOk n) {e : Event}
    (hstep : NonceStep cfg n ω e) (hlen : (n.next cfg ω e).blocks.length < 2 ^ 63) :
    NoncesOk (n.next cfg ω e) := by
  constructor
  · refine h.counts.move hchain hfunded (fun _ _ ω hw => hw.copy ω) (fun block hash hblock => ?_)
      (RpcNode.next_move hchain hlen)
    rw [List.flatMap_append, List.flatMap_singleton, hblock]
    refine (h.counts.world.foldl fun tx htx hne => h.normal_executed hstep htx hne).congr ?_
    rw [List.map_append, List.map_append, entries_mapIdx_minedTx]
  · by_cases hmoves : e.movesTxs = false
    · obtain ⟨hblocks, hpending⟩ := n.next_of_not_movesTxs hchain cfg ω hmoves
      rw [RpcNode.canonicalTxs, hblocks, hpending]
      exact h.numbered
    cases e with
    | sendTransaction tx =>
        rw [RpcNode.next]
        rcases n.sendTransaction_cases cfg ω tx with heq | ⟨hvalid, heq⟩
        · rw [heq]; exact h.numbered
        · rw [heq]
          exact (h.send (hstep hvalid)).enqueue
    | sendRawTransaction rawTx => exact (h.sendRaw rawTx).enqueue
    | mineBlock => exact h.numbered.minePendingBlock
    | handleReorg height newHash =>
        rw [RpcNode.next]
        rcases n.handleReorg_cases ω height newHash with heq | ⟨s, hreorg, -, heq⟩
        · rw [heq]; exact h.numbered
        · rw [heq]
          exact h.rollback hchain (hstep hreorg)
    | syncBlock block => exact h.syncBlock hstep
    | _ => exact absurd rfl hmoves

end Calls

theorem noncesOk_fresh (cfg : Config) (ω : Choices) : NoncesOk (newRPCNode cfg ω {}) := by
  constructor
  · refine along_fresh (fun _ _ ω hw => hw.copy ω) (fun block hblock => ?_) ω
    rw [List.flatMap_singleton, hblock]
    exact ⟨fun a ha => (by cases ha), fun a _ => rfl⟩
  · obtain ⟨ω₁, l, timestamp, heq, -⟩ := newRPCNode_fresh cfg ω
    rw [heq]
    exact ⟨fun a => rfl, fun tx htx => absurd htx List.not_mem_nil⟩

/-- **Nonces in sequence.** In a run of such calls the chain carries the nonces 0, 1, 2, … of every
sender, in every state reached. -/
theorem inSequence_of_nonceStep {cfg : Config} {n : RpcNode}
    (h : ReachableBy cfg (NonceStep cfg) n) (a : String) :
    noncesOf a n.canonicalTxs =
      (List.range (noncesOf a n.canonicalTxs).length).map fun k : ℕ => (k : ℤ) := by
  have hinv : ChainOk n ∧ FundedOk n ∧ NoncesOk n := by
    refine h.induct (P := fun n => ChainOk n ∧ FundedOk n ∧ NoncesOk n)
      (fun ω => ⟨chainOk_fresh cfg ω, fundedOk_fresh cfg ω, noncesOk_fresh cfg ω⟩) ?_
    intro n ω e ⟨hchain, hfunded, hnonces⟩ hok hlen
    exact ⟨hchain.next hlen, hfunded.move hchain (RpcNode.next_move hchain hlen),
      hnonces.next hchain hfunded hok hlen⟩
  exact hinv.2.2.numbered.of_append.sequence a

/-! ## Two payments and a reorganisation -/

/-- A node that can pay is sent the payment and mines it. -/
theorem payAndMine {ok : RpcNode → Choices → Event → Prop} {n n' : RpcNode} {ω : Choices}
    (h : ReachableBy manualMining ok n) (hpending : n.pendingTxs = [])
    (hbalance : 1 ≤ n.world.balance defaultAccount) (hlt : n.height + 1 < 2 ^ 63)
    (hsend : ok n ω (.sendTransaction storePayment)) (hmine : ∀ m, ok m ω .mineBlock)
    (hn' : n' = (n.next manualMining ω (.sendTransaction storePayment)).next manualMining ω
      .mineBlock) :
    ReachableBy manualMining ok n' ∧ n'.pendingTxs = [] ∧ n'.height = n.height + 1 ∧
      (∃ block, n'.blocks = n.blocks ++ [block]) ∧
      ∃ r : TxRecord, IsStorePayment r ∧ n'.world = n.world.apply manualMining.bridgeAddress r ∧
        n'.canonicalTxs.map (·.entry) = (n.canonicalTxs ++ [r]).map (·.entry) := by
  have hqueue := queue_sendTransaction (validate_storePayment hbalance) ω
  obtain ⟨sent, hsent⟩ : ∃ m, m = n.next manualMining ω (.sendTransaction storePayment) := ⟨_, rfl⟩
  rw [← hsent] at hn'
  have hchain : ChainOk sent := by
    rw [hsent, hqueue]
    exact h.chainOk.of_eq rfl rfl rfl rfl rfl
  have hreach : ReachableBy manualMining ok sent := by
    rw [hsent]
    refine h.next hsend ?_
    rw [← hsent, hchain.length]
    exact hchain.bound
  rw [← hsent] at hqueue
  have hheight : sent.height = n.height := by rw [hqueue]; rfl
  have hwaiting : sent.pendingTxs = [n.txOfObject (ω.call 0) storePayment ""] := by
    rw [hqueue]
    show n.pendingTxs ++ _ = _
    rw [hpending]
    rfl
  obtain ⟨hlen, -, hmined⟩ := mined_of_height_lt hchain (by rwa [hheight]) manualMining ω
  rw [hn']
  refine ⟨hreach.next (hmine _) hlen, sent.minePendingBlock_pendingTxs manualMining ω,
    hmined.trans (by rw [hheight]), ?_, _, storePayment_record n (ω.call 0), ?_, ?_⟩
  · obtain ⟨block, hblocks⟩ := sent.minePendingBlock_blocks manualMining ω
    refine ⟨block, hblocks.trans ?_⟩
    rw [hqueue]
    rfl
  · rw [RpcNode.next, RpcNode.minePendingBlock_world, hwaiting, hqueue]
    rfl
  · rw [RpcNode.next, entries_minePendingBlock, hwaiting, hqueue]
    rfl

/-- The account that pays may go on as long as it creates nothing. -/
theorem maySend_of_transfers {n : RpcNode} {a : String} (hpending : n.pendingTxs = [])
    {txs : List TxRecord} (hentries : n.canonicalTxs.map (·.entry) = txs.map (·.entry))
    (htransfers : ∀ tx ∈ txs, tx.recipient ≠ "") (hroom : txs.length < 2 ^ 64) : MaySend n a := by
  refine ⟨by simp [hpending], fun tx htx => ?_, ?_⟩
  · have hmem := List.mem_map_of_mem (f := (·.entry)) htx
    rw [hentries] at hmem
    obtain ⟨tx', htx', hentry⟩ := List.mem_map.mp hmem
    have hrecipient : tx'.recipient = tx.recipient := congrArg (·.2.1) hentry
    rw [TxRecord.isCreationOf, ← hrecipient]
    simp [htransfers tx' htx']
  · refine List.countP_le_length.trans_lt ?_
    have hlength := congrArg List.length hentries
    rw [List.length_map, List.length_map] at hlength
    rwa [hlength]

/-- Paid and mined, paid again and mined, rolled back to the first payment and mined again. -/
theorem noncesOf_paidTwice {n n₁ n₂ n₃ n₄ : RpcNode} {ω : Choices}
    (hn : n = newRPCNode manualMining ω {})
    (hn₁ : n₁ = (n.next manualMining ω (.sendTransaction storePayment)).next manualMining ω .mineBlock)
    (hn₂ : n₂ = (n₁.next manualMining ω (.sendTransaction storePayment)).next manualMining ω
      .mineBlock)
    (hn₃ : n₃ = n₂.next manualMining ω (.handleReorg 3 ""))
    (hn₄ : n₄ = n₃.next manualMining ω .mineBlock) :
    ReachableBy manualMining (NonceStep manualMining) n₄ ∧ n₃.pendingTxs.length = 1 ∧
      (noncesOf defaultAccount n₄.canonicalTxs).length = 2 := by
  have hreach : ReachableBy manualMining (NonceStep manualMining) n := hn ▸ ⟨ω, .refl⟩
  have hnone : n.canonicalTxs = [] := by
    obtain ⟨ω₁, l, timestamp, hfresh, -⟩ := newRPCNode_fresh manualMining ω
    rw [hn, hfresh]
    rfl
  obtain ⟨hworld, hempty, hblocks⟩ := fresh_manualMining ω
  rw [← hn] at hworld hempty hblocks
  have hheight := hreach.chainOk.length
  rw [hblocks] at hheight
  have hmine : ∀ m, NonceStep manualMining m ω .mineBlock := fun _ => trivial
  -- the first payment
  obtain ⟨hreach₁, hpending₁, hheight₁, -, r, hr, hworld₁, hentries₁⟩ :=
    payAndMine hreach hempty (by rw [hworld, balance_freshWorld_manualMining]; decide)
      (by rw [← hheight]; decide) (fun _ => @maySend_of_transfers _ _ _ hempty [] (by rw [hnone])
        (fun _ htx => absurd htx List.not_mem_nil) (by decide)) hmine hn₁
  rw [hnone, List.nil_append] at hentries₁
  have hbalance : n₁.world.balance defaultAccount = 1000 * 10 ^ 18 - 1 := by
    rw [hworld₁, hworld, World.balance_eq (by decide), World.balances_apply, hr.balances,
      FinMap.get?_insert_of_ne _ _ (by decide), FinMap.get?_insert_self, Option.map_some,
      parseQuantity_hexText]
    rfl
  have hrecipients : ∀ tx ∈ [r], tx.recipient ≠ "" := by
    intro tx htx
    rw [List.mem_singleton.mp htx, hr.recipient]
    decide
  -- the second one
  obtain ⟨hreach₂, hpending₂, hheight₂, ⟨block, hblocks₂⟩, r', hr', -, hentries₂⟩ :=
    payAndMine hreach₁ hpending₁ (by rw [hbalance]; decide) (by rw [hheight₁, ← hheight]; decide)
      (fun _ => maySend_of_transfers hpending₁ hentries₁ hrecipients
        ((List.length_singleton).trans_lt (by decide))) hmine hn₂
  have hentries : n₂.canonicalTxs.map (·.entry) = [r, r'].map (·.entry) := by
    rw [hentries₂, List.map_append, hentries₁]
    rfl
  -- the second payment leaves the chain and waits again
  have hchain₂ := hreach₂.chainOk
  have htwo : n₁.blocks.length = 2 := by rw [hreach₁.chainOk.length, hheight₁, ← hheight]
  obtain ⟨hblocks₃, hpending₃⟩ := handleReorg_last hchain₂ hblocks₂ (by decide : 1 < 3) htwo ω
  have hchain₃ : ChainOk n₃ := hn₃ ▸ hchain₂.handleReorg
  have hreach₃ : ReachableBy manualMining (NonceStep manualMining) n₃ := by
    have hstep : NonceStep manualMining n₂ ω (.handleReorg 3 "") := by
      intro _
      rw [hpending₂]
      exact fun _ _ _ _ htx => absurd htx List.not_mem_nil
    rw [hn₃] at hchain₃ ⊢
    exact hreach₂.next hstep (hchain₃.length.trans_lt hchain₃.bound)
  rw [RpcNode.next] at hn₃
  rw [← hn₃] at hblocks₃ hpending₃
  rw [hpending₂, List.nil_append] at hpending₃
  have hrequeued : n₃.pendingTxs.map (·.entry) = [r'].map (·.entry) := by
    rw [RpcNode.canonicalTxs, hblocks₂, List.flatMap_append, List.flatMap_singleton, List.map_append,
      List.map_append] at hentries₂
    rw [hpending₃, List.map_map]
    exact List.append_cancel_left hentries₂
  have hall : n₄.canonicalTxs.map (·.entry) = ([r] ++ [r']).map (·.entry) := by
    rw [hn₄, RpcNode.next, entries_minePendingBlock, List.map_append, List.map_append, hrequeued,
      RpcNode.canonicalTxs, hblocks₃]
    exact congrArg (· ++ _) hentries₁
  refine ⟨?_, ?_, ?_⟩
  · have hlen₃ := hchain₃.length
    rw [hblocks₃, htwo] at hlen₃
    rw [hn₄]
    exact hreach₃.next trivial (mined_of_height_lt hchain₃ (by rw [← hlen₃]; decide) manualMining ω).1
  · have hlength := congrArg List.length hrequeued
    rwa [List.length_map, List.length_map] at hlength
  · have hsent : ∀ t : TxRecord, t.sender = defaultAccount → t.sentBy defaultAccount = true := by
      intro t ht
      rw [TxRecord.sentBy, ht, normalizeAddress_defaultAccount]
      decide
    rw [noncesOf_congr hall, noncesOf_append, noncesOf_singleton, noncesOf_singleton,
      if_pos (hsent r hr.sender), if_pos (hsent r' hr'.sender)]
    rfl

omit [Platform] in
/-- Both payments keep their nonces, the second one through the reorganisation. -/
theorem inSequence_of_paidTwice :
    letI := Platform.checksums
    let n₁ := ((newRPCNode manualMining default {}).next manualMining default
      (.sendTransaction storePayment)).next manualMining default .mineBlock
    let n₂ := (n₁.next manualMining default (.sendTransaction storePayment)).next manualMining
      default .mineBlock
    let n₃ := n₂.next manualMining default (.handleReorg 3 "")
    n₃.pendingTxs.length = 1 ∧
      noncesOf defaultAccount (n₃.next manualMining default .mineBlock).canonicalTxs = [0, 1] := by
  let _ := Platform.checksums
  intro n₁ n₂ n₃
  obtain ⟨hreach, hpending, hlength⟩ :=
    @noncesOf_paidTwice _ _ n₁ n₂ n₃ _ default rfl rfl rfl rfl rfl
  have hsequence := inSequence_of_nonceStep hreach defaultAccount
  rw [hlength] at hsequence
  exact ⟨hpending, hsequence⟩

/-- Its nonce is that of its sender when it is sent. -/
theorem nonce_wholeTransfer {n : RpcNode} (h : n.world = freshWorld manualMining) (ω : Choices) :
    (n.txOfObject ω wholeTransfer "").nonce = toHex 0 := by
  obtain ⟨hfrom, -⟩ := text_wholeTransfer
  rw [RpcNode.txOfObject, hfrom, h]
  rfl

/-- Sent twice before a block is mined, both transactions carry the nonce zero. -/
theorem noncesOf_wholeTransfer_twice (ω : Choices) :
    let n₁ := (newRPCNode manualMining ω {}).next manualMining ω (.sendTransaction wholeTransfer)
    let n₂ := n₁.next manualMining ω (.sendTransaction wholeTransfer)
    Reachable manualMining (n₂.next manualMining ω .mineBlock) ∧
      noncesOf defaultAccount (n₂.next manualMining ω .mineBlock).canonicalTxs = [0, 0] := by
  intro n₁ n₂
  obtain ⟨hworld, hempty, hblocks⟩ := fresh_manualMining ω
  obtain ⟨hworld₁, hblocks₁, hpending₁⟩ := send_wholeTransfer hworld ω
  obtain ⟨-, hblocks₂, hpending₂⟩ := send_wholeTransfer (n := n₁) hworld₁ ω
  obtain ⟨hsender, -, -⟩ := wholeTransfer_record (newRPCNode manualMining ω {}) (ω.call 0)
  obtain ⟨hsender', -, -⟩ := wholeTransfer_record n₁ (ω.call 0)
  have hnonce := nonce_wholeTransfer hworld (ω.call 0)
  have hnonce' := nonce_wholeTransfer (n := n₁) hworld₁ (ω.call 0)
  obtain ⟨block, timestamp, hmined, htxs, -⟩ := n₂.minePendingBlock_chain manualMining ω
  have hnone : n₂.canonicalTxs = [] := by
    obtain ⟨ω₁, l, timestamp, hfresh, -⟩ := newRPCNode_fresh manualMining ω
    rw [RpcNode.canonicalTxs, hblocks₂, hblocks₁, hfresh]
    rfl
  constructor
  · have hlen : n₁.blocks.length < 2 ^ 63 ∧ n₂.blocks.length < 2 ^ 63 ∧
        (n₂.minePendingBlock manualMining ω).2.blocks.length < 2 ^ 63 := by
      rw [hmined, List.length_append, hblocks₂, hblocks₁, hblocks, List.length_singleton]
      decide
    have hreach : Reachable manualMining (newRPCNode manualMining ω {}) := ⟨ω, .refl⟩
    have hreach₁ : Reachable manualMining n₁ :=
      hreach.next (ω := ω) (e := .sendTransaction wholeTransfer) trivial hlen.1
    have hreach₂ : Reachable manualMining n₂ :=
      hreach₁.next (ω := ω) (e := .sendTransaction wholeTransfer) trivial hlen.2.1
    exact hreach₂.next (ω := ω) (e := .mineBlock) trivial hlen.2.2
  · have hchain : (n₂.next manualMining ω .mineBlock).canonicalTxs =
        n₂.canonicalTxs ++ block.transactions := by
      rw [RpcNode.next, RpcNode.canonicalTxs, hmined, List.flatMap_append, List.flatMap_singleton]
      rfl
    rw [hchain, hnone, htxs, List.nil_append, noncesOf_congr (entries_mapIdx_minedTx _ _ 0), hpending₂,
      hpending₁, hempty]
    generalize (newRPCNode manualMining ω {}).txOfObject (ω.call 0) wholeTransfer "" = r at *
    generalize n₁.txOfObject (ω.call 0) wholeTransfer "" = r' at *
    have hsent : ∀ t : TxRecord, t.sender = defaultAccount → t.sentBy defaultAccount = true := by
      intro t ht
      rw [TxRecord.sentBy, ht, normalizeAddress_defaultAccount]
      decide
    rw [List.nil_append, noncesOf_append, noncesOf_singleton, noncesOf_singleton,
      if_pos (hsent r hsender), if_pos (hsent r' hsender'), hnonce, hnonce', parseQuantity_toHex]
    rfl

omit [Platform] in
/-- **A nonce twice.** Two transactions of one sender that wait for the same block carry the
same nonce on the chain. -/
theorem wholeTransfer_repeats_nonce :
    letI := Platform.checksums
    let n₁ := (newRPCNode manualMining default {}).next manualMining default
      (.sendTransaction wholeTransfer)
    let n₂ := n₁.next manualMining default (.sendTransaction wholeTransfer)
    let n₃ := n₂.next manualMining default .mineBlock
    Reachable manualMining n₃ ∧ noncesOf defaultAccount n₃.canonicalTxs = [0, 0] ∧
      ¬ InSequence n₃.canonicalTxs := by
  obtain ⟨hreach, hnonces⟩ := @noncesOf_wholeTransfer_twice Platform.checksums default
  refine ⟨hreach, hnonces, fun hseq => ?_⟩
  have ha := hseq defaultAccount
  rw [hnonces] at ha
  exact absurd ha (by decide)

end BhtBhte.Node
