import BhtBhte.Node.Spelling

/-!
# The sum of all balances

A transfer keeps the sum when the debit is made.  Nothing else in the node changes balances, except
that a reorganisation puts back a copy of a snapshot, so the invariant also covers the snapshots and
the spelling of their keys.  In runs of covered transfers the sum never changes
(`supply_of_covered`).
-/
namespace BhtBhte.Node
open BhtBhte.Lib

namespace World

/-- The sum of all entries of the balance map. -/
def supply (w : World) : ℤ := w.balances.total parseQuantity

theorem balance_eq {w : World} {addr : String} (h : addr ≠ "") :
    w.balance addr = ((w.balances.get? addr).map parseQuantity).getD 0 := by
  rw [balance, if_neg h]
  cases w.balances.get? addr with
  | none => exact parseQuantity_empty
  | some v => rfl

/-- Setting a balance moves the supply by the difference. -/
theorem total_insert_hexText {w : World} {addr : String} (h : addr ≠ "") (v : ℤ) :
    (w.balances.insert addr (hexText v)).total parseQuantity = w.supply - w.balance addr + v := by
  rw [FinMap.total_insert, parseQuantity_hexText, balance_eq h, supply]

/-- A debit leaves the other balances alone. -/
theorem balance_debit_of_ne {w : World} {addr addr' : String} (h : addr' ≠ addr) (v : ℤ) :
    (w.debit addr v).balance addr' = w.balance addr' := by
  rw [debit]
  split
  · rw [balance]
    dsimp only
    rw [FinMap.get?_insert_of_ne _ _ h, ← balance]
  · rfl

theorem supply_credit (w : World) {addr : String} (h : addr ≠ "") (v : ℤ) :
    (w.credit addr v).supply = w.supply + v := by
  rw [credit, supply, total_insert_hexText h]
  omega

theorem supply_debit {w : World} {addr : String} {v : ℤ} (h : addr ≠ "") (hv : v ≤ w.balance addr) :
    (w.debit addr v).supply = w.supply - v := by
  rw [debit, if_pos hv, supply, total_insert_hexText h]
  omega

/-- A covered transfer between two accounts moves the value. -/
theorem balances_transfer {w : World} {tx : TxRecord} (hsender : tx.sender ≠ "")
    (hrecipient : tx.recipient ≠ "") (hne : tx.recipient ≠ tx.sender)
    (hcovered : parseQuantity tx.value ≤ w.balance tx.sender) :
    (w.transfer tx).balances =
      (w.balances.insert tx.sender (hexText (w.balance tx.sender - parseQuantity tx.value))).insert
        tx.recipient (hexText (w.balance tx.recipient + parseQuantity tx.value)) := by
  rw [transfer, if_pos ⟨hsender, hrecipient⟩]
  dsimp only
  rw [bumpNonce, credit, balance_debit_of_ne hne, debit, if_pos hcovered]

@[simp] theorem supply_bumpNonce (w : World) (addr : String) :
    (w.bumpNonce addr).supply = w.supply := rfl

variable [Platform]

theorem balances_apply (w : World) (bridgeAddress : String) (tx : TxRecord) :
    (w.apply bridgeAddress tx).balances = (w.transfer tx).balances :=
  (execute_frame _ _ _).1

/-- A transfer advances the nonce of its sender, a creation does not. -/
theorem nonces_apply (w : World) (bridgeAddress : String) (tx : TxRecord) :
    (w.apply bridgeAddress tx).nonces = if tx.sender ≠ "" ∧ tx.recipient ≠ "" then
      w.nonces.insert tx.sender (u64 ((w.nonces.get? tx.sender).getD 0 + 1)) else w.nonces := by
  rw [apply, (execute_frame _ _ _).2, transfer]
  split
  · show FinMap.insert (w.debit _ _).nonces _ (u64 (((w.debit _ _).nonces.get? _).getD 0 + 1)) = _
    rw [(w.debit_frame tx.sender _).1]
  · rfl

theorem supply_apply_eq (w : World) (bridgeAddress : String) (tx : TxRecord) :
    (w.apply bridgeAddress tx).supply = (w.transfer tx).supply := by
  rw [supply, balances_apply, supply]

/-- The transfer of a transaction is covered, moves nothing, or does not happen. -/
def Covers (w : World) (tx : TxRecord) : Prop :=
  tx.sender ≠ "" → tx.recipient ≠ "" →
    parseQuantity tx.value ≤ w.balance tx.sender ∨ parseQuantity tx.value = 0

theorem supply_apply {w : World} {tx : TxRecord} (bridgeAddress : String) (h : w.Covers tx) :
    (w.apply bridgeAddress tx).supply = w.supply := by
  rw [supply_apply_eq, transfer]
  split
  · next hne =>
      rw [supply_bumpNonce, supply_credit _ hne.2]
      by_cases hv : parseQuantity tx.value ≤ w.balance tx.sender
      · rw [supply_debit hne.1 hv]
        omega
      · -- the debit is refused, so the value must be zero
        have hzero := (h hne.1 hne.2).resolve_left hv
        rw [debit, if_neg hv, hzero]
        omega
  · rfl

/-- An uncovered transfer creates its value. -/
theorem supply_apply_of_not_covers {w : World} {tx : TxRecord} (bridgeAddress : String)
    (hsender : tx.sender ≠ "") (hrecipient : tx.recipient ≠ "")
    (hv : w.balance tx.sender < parseQuantity tx.value) :
    (w.apply bridgeAddress tx).supply = w.supply + parseQuantity tx.value := by
  rw [supply_apply_eq, transfer, if_pos ⟨hsender, hrecipient⟩, supply_bumpNonce,
    supply_credit _ hrecipient, debit, if_neg (not_le.mpr hv)]

/-! ## Accounts that keep their sum -/

/-- The balances sum to `T`, and no two keys are spellings of one address. -/
structure HoldsSupply (T : ℤ) (w : World) : Prop where
  noClash : w.balances.NoClash normalizeAddress
  supply : w.supply = T

theorem HoldsSupply.copy {T : ℤ} {w : World} (h : w.HoldsSupply T) (ω : Choices) :
    (w.copy ω).HoldsSupply T := by
  have hperm := w.balances.range_perm (ω.call 0).order
  refine ⟨FinMap.noClash_of_fixed fun a => ?_, ?_⟩
  · exact FinMap.fixed_of_mem_keys_rekey normalizeAddress_normalizeAddress
  · exact (FinMap.total_rekey parseQuantity hperm h.noClash).trans h.supply

end World

variable [Platform]

/-- Every transfer of the list is covered at the moment it is executed, and its ends are
spelled as the balances spell them. -/
def TransfersCovered (bridgeAddress : String) : World → List TxRecord → Prop
  | _, [] => True
  | w, tx :: txs => w.Covers tx ∧ (tx.sender ≠ "" → tx.recipient ≠ "" → w.BalancesAlike tx) ∧
      TransfersCovered bridgeAddress (w.apply bridgeAddress tx) txs

theorem World.HoldsSupply.foldl {T : ℤ} {w : World} (h : w.HoldsSupply T) {bridgeAddress : String}
    {txs : List TxRecord} (htxs : TransfersCovered bridgeAddress w txs) :
    (txs.foldl (World.apply · bridgeAddress ·) w).HoldsSupply T := by
  induction txs generalizing w with
  | nil => exact h
  | cons tx txs ih =>
      refine ih ⟨?_, ?_⟩ htxs.2.2
      · rw [World.balances_apply]
        exact World.noClash_balances_transfer h.noClash htxs.2.1
      · rw [World.supply_apply bridgeAddress htxs.1, h.supply]

/-! ## Runs -/

/-- Live balances and every snapshot sum to `T`. -/
structure SupplyOk (T : ℤ) (n : RpcNode) : Prop where
  world : n.world.HoldsSupply T
  snapshots : ∀ k s, n.stateSnapshots.get? k = some s → s.world.HoldsSupply T

theorem SupplyOk.move {T : ℤ} {n n' : RpcNode} (h : SupplyOk T n) (hchain : ChainOk n)
    (hfunded : FundedOk n) {cfg : Config} {txs : List TxRecord}
    (htxs : TransfersCovered cfg.bridgeAddress n.world txs) (hmove : Move cfg txs n n') :
    SupplyOk T n' := by
  have hkept : Everywhere (World.HoldsSupply T) n' :=
    Everywhere.move ⟨h.world, h.snapshots⟩ hchain hfunded (fun w ω hw => hw.copy ω)
      (h.world.foldl htxs) hmove
  exact ⟨hkept.world, hkept.snapshots⟩

/-- A call whose executed transactions are covered. -/
def ConservingStep (cfg : Config) (n : RpcNode) (ω : Choices) (e : Event) : Prop :=
  TransfersCovered cfg.bridgeAddress n.world (n.executed cfg ω e)

theorem supplyOk_fresh (cfg : Config) (ω : Choices) :
    SupplyOk (freshWorld cfg).supply (newRPCNode cfg ω {}) := by
  have hworld : (freshWorld cfg).HoldsSupply (freshWorld cfg).supply :=
    ⟨FinMap.noClash_of_fixed (freshWorld_balances cfg).1, rfl⟩
  have hfresh := everywhere_fresh (P := World.HoldsSupply (freshWorld cfg).supply)
    (fun w ω hw => hw.copy ω) hworld ω
  exact ⟨hfresh.world, hfresh.snapshots⟩

/-- **Conservation.** In a run whose executed transfers are all covered, the balances sum to
what a fresh node holds, in every state reached. -/
theorem supply_of_covered {cfg : Config} {n : RpcNode}
    (h : ReachableBy cfg (ConservingStep cfg) n) : n.world.supply = (freshWorld cfg).supply := by
  have hinv : ChainOk n ∧ FundedOk n ∧ SupplyOk (freshWorld cfg).supply n := by
    refine h.induct (P := fun n => ChainOk n ∧ FundedOk n ∧ SupplyOk (freshWorld cfg).supply n)
      (fun ω => ⟨chainOk_fresh cfg ω, fundedOk_fresh cfg ω, supplyOk_fresh cfg ω⟩) ?_
    intro n ω e ⟨hchain, hfunded, hsupply⟩ hok hlen
    have hmove := RpcNode.next_move hchain hlen
    exact ⟨hchain.next hlen, hfunded.move hchain hmove, hsupply.move hchain hfunded hok hmove⟩
  exact hinv.2.2.world.supply

/-! ## Two transfers of one balance -/

/-- Without automatic mining, transactions wait on the pending list. -/
def manualMining : Config := { autoMine := false }

/-- A transfer of the whole initial balance. -/
def wholeTransfer : Object :=
  object [("from", .str defaultAccount), ("to", .str "0x00000000000000000000000000000000000000aa"),
    ("value", .str initialBalance)]

theorem freshWorld_manualMining :
    freshWorld manualMining =
      { balances := (∅ : FinMap String String).insert defaultAccount initialBalance } :=
  freshWorld_eq rfl

omit [Platform] in
theorem parseQuantity_initialBalance : parseQuantity initialBalance = 1000 * 10 ^ 18 := by
  decide +kernel

theorem normalizeAddress_aa : normalizeAddress "0x00000000000000000000000000000000000000aa" =
    "0x00000000000000000000000000000000000000aa" := by
  rw [normalizeAddress, toLower_of_ascii (by decide)]
  decide

omit [Platform] in
theorem isHexAddress_aa : isHexAddress "0x00000000000000000000000000000000000000aa" = true := by
  decide +kernel

theorem text_wholeTransfer : text wholeTransfer "from" = defaultAccount ∧
    text wholeTransfer "to" = "0x00000000000000000000000000000000000000aa" ∧
    text wholeTransfer "value" = initialBalance :=
  ⟨text_of_str rfl, text_of_str rfl, text_of_str rfl⟩

theorem supply_freshWorld_manualMining : (freshWorld manualMining).supply = 1000 * 10 ^ 18 := by
  rw [freshWorld_manualMining, World.supply, FinMap.total_insert, parseQuantity_initialBalance]
  rfl

/-- The record of the transfer, whatever the node and the clock. -/
theorem wholeTransfer_record (n : RpcNode) (ω : Choices) :
    (n.txOfObject ω wholeTransfer "").sender = defaultAccount ∧
    (n.txOfObject ω wholeTransfer "").recipient = "0x00000000000000000000000000000000000000aa" ∧
    parseQuantity (n.txOfObject ω wholeTransfer "").value = 1000 * 10 ^ 18 := by
  obtain ⟨hfrom, hto, hvalue⟩ := text_wholeTransfer
  rw [RpcNode.txOfObject, hfrom, hto, hvalue, normalizeAddress_defaultAccount, normalizeAddress_aa]
  refine ⟨rfl, rfl, ?_⟩
  rw [parseQuantity_hexText, parseQuantity_initialBalance]

theorem balance_freshWorld_manualMining :
    (freshWorld manualMining).balance defaultAccount = 1000 * 10 ^ 18 := by
  rw [freshWorld_manualMining, World.balance_eq (by decide), FinMap.get?_insert_self,
    Option.map_some, parseQuantity_initialBalance]
  rfl

theorem balance_freshWorld_aa :
    (freshWorld manualMining).balance "0x00000000000000000000000000000000000000aa" = 0 := by
  rw [freshWorld_manualMining, World.balance_eq (by decide), FinMap.get?_insert_of_ne _ _ (by decide)]
  rfl

/-- The transfer is accepted as long as the balance has not moved. -/
theorem validate_wholeTransfer {n : RpcNode} (h : n.world = freshWorld manualMining) :
    n.validateTransaction manualMining wholeTransfer = .ok () := by
  obtain ⟨hfrom, hto, hvalue⟩ := text_wholeTransfer
  refine RpcNode.validateTransaction_of_covered (hfrom ▸ normalizeAddress_defaultAccount)
    (hto ▸ normalizeAddress_aa) (hvalue ▸ parseQuantity_initialBalance) rfl (by decide) rfl
    isHexAddress_defaultAccount (.inr isHexAddress_aa) ?_
  rw [h, balance_freshWorld_manualMining]

/-- An accepted transaction waits for its block. -/
theorem queue_sendTransaction {n : RpcNode} {tx : Object}
    (h : n.validateTransaction manualMining tx = .ok ()) (ω : Choices) :
    n.next manualMining ω (.sendTransaction tx) = RpcNode.save
      { n with pendingTxs := n.pendingTxs ++ [n.txOfObject (ω.call 0) tx ""] } := by
  rw [RpcNode.next, RpcNode.sendTransaction, h]
  rfl

theorem queue_wholeTransfer {n : RpcNode} (h : n.world = freshWorld manualMining) (ω : Choices) :
    n.next manualMining ω (.sendTransaction wholeTransfer) = RpcNode.save
      { n with pendingTxs := n.pendingTxs ++ [n.txOfObject (ω.call 0) wholeTransfer ""] } :=
  queue_sendTransaction (validate_wholeTransfer h) ω

/-- A raw transaction waits for its block. -/
theorem queue_sendRaw (n : RpcNode) (ω : Choices) (rawTx : String) :
    n.next manualMining ω (.sendRawTransaction rawTx) =
      RpcNode.save { n with pendingTxs := n.pendingTxs ++ [RpcNode.txOfRaw (ω.call 0) rawTx] } :=
  rfl

/-- Sending it puts its record on the pending list. -/
theorem send_wholeTransfer {n : RpcNode} (h : n.world = freshWorld manualMining) (ω : Choices) :
    (n.next manualMining ω (.sendTransaction wholeTransfer)).world = freshWorld manualMining ∧
    (n.next manualMining ω (.sendTransaction wholeTransfer)).blocks = n.blocks ∧
    (n.next manualMining ω (.sendTransaction wholeTransfer)).pendingTxs =
      n.pendingTxs ++ [n.txOfObject (ω.call 0) wholeTransfer ""] := by
  rw [queue_wholeTransfer h]
  exact ⟨h, rfl, rfl⟩

theorem fresh_manualMining (ω : Choices) :
    (newRPCNode manualMining ω {}).world = freshWorld manualMining ∧
      (newRPCNode manualMining ω {}).pendingTxs = [] ∧
      (newRPCNode manualMining ω {}).blocks.length = 1 := by
  obtain ⟨ω₁, l, timestamp, hfresh, -⟩ := newRPCNode_fresh manualMining ω
  rw [hfresh]
  exact ⟨rfl, rfl, rfl⟩

/-- The only balance is that of the default account. -/
theorem onlySpelling_freshWorld (a : String) (h : normalizeAddress a = a) :
    World.OnlySpelling (freshWorld manualMining).balances a := by
  intro k hk heq
  rw [freshWorld_manualMining] at hk
  rcases FinMap.mem_keys_insert.mp hk with rfl | hk
  · rwa [normalizeAddress_defaultAccount, h] at heq
  · cases hk

theorem balancesAlike_wholeTransfer {r : TxRecord} (hsender : r.sender = defaultAccount)
    (hrecipient : r.recipient = "0x00000000000000000000000000000000000000aa") :
    (freshWorld manualMining).BalancesAlike r := by
  refine ⟨?_, ?_, ?_⟩
  · rw [hsender]
    exact onlySpelling_freshWorld _ normalizeAddress_defaultAccount
  · rw [hrecipient]
    exact onlySpelling_freshWorld _ normalizeAddress_aa
  · rw [hsender, hrecipient, normalizeAddress_defaultAccount, normalizeAddress_aa]
    exact id

theorem covers_wholeTransfer {r : TxRecord} (hsender : r.sender = defaultAccount)
    (hvalue : parseQuantity r.value = 1000 * 10 ^ 18) : (freshWorld manualMining).Covers r := by
  intro _ _
  rw [hsender, hvalue, balance_freshWorld_manualMining]
  exact .inl le_rfl

/-- A payment of one that calls `store` of its recipient. -/
def storePayment : Object :=
  object [("from", .str defaultAccount), ("to", .str "0x00000000000000000000000000000000000000aa"),
    ("value", .str "0x1"), ("data", .str "0x6057361d")]

omit [Platform] in
theorem parseQuantity_one : parseQuantity "0x1" = 1 := by decide +kernel

theorem text_storePayment : text storePayment "from" = defaultAccount ∧
    text storePayment "to" = "0x00000000000000000000000000000000000000aa" ∧
    text storePayment "value" = "0x1" ∧ text storePayment "data" = "0x6057361d" :=
  ⟨text_of_str rfl, text_of_str rfl, text_of_str rfl, text_of_str rfl⟩

/-- A node that can pay accepts the payment. -/
theorem validate_storePayment {n : RpcNode} (h : 1 ≤ n.world.balance defaultAccount) :
    n.validateTransaction manualMining storePayment = .ok () := by
  obtain ⟨hfrom, hto, hvalue, -⟩ := text_storePayment
  exact RpcNode.validateTransaction_of_covered (hfrom ▸ normalizeAddress_defaultAccount)
    (hto ▸ normalizeAddress_aa) (hvalue ▸ parseQuantity_one) rfl (by decide) rfl
    isHexAddress_defaultAccount (.inr isHexAddress_aa) h

/-- The record of the payment, as far as execution reads it. -/
structure IsStorePayment (r : TxRecord) : Prop where
  sender : r.sender = defaultAccount
  recipient : r.recipient = "0x00000000000000000000000000000000000000aa"
  value : r.value = "0x1"
  input : r.input = "0x6057361d"

/-- It is the same whatever the node and the clock. -/
theorem storePayment_record (n : RpcNode) (ω : Choices) :
    IsStorePayment (n.txOfObject ω storePayment "") := by
  obtain ⟨hfrom, hto, hvalue, hdata⟩ := text_storePayment
  have hone : hexText 1 = "0x1" := by decide +kernel
  rw [RpcNode.txOfObject, hfrom, hto, hvalue, hdata, normalizeAddress_defaultAccount,
    normalizeAddress_aa, parseQuantity_one, hone]
  exact ⟨rfl, rfl, rfl, rfl⟩

/-- The balances after the payment on fresh accounts. -/
theorem IsStorePayment.balances {r : TxRecord} (h : IsStorePayment r) :
    ((freshWorld manualMining).transfer r).balances =
      ((freshWorld manualMining).balances.insert defaultAccount (hexText (1000 * 10 ^ 18 - 1))).insert
        "0x00000000000000000000000000000000000000aa" (hexText 1) := by
  obtain ⟨hsender, hrecipient, hvalue, -⟩ := h
  rw [World.balances_transfer, hsender, hrecipient, hvalue, parseQuantity_one,
    balance_freshWorld_manualMining, balance_freshWorld_aa, zero_add]
  · rw [hsender]
    decide
  · rw [hrecipient]
    decide
  · rw [hsender, hrecipient]
    decide
  · rw [hsender, hvalue, parseQuantity_one, balance_freshWorld_manualMining]
    decide

/-- Sent twice and then mined, the transfer doubles the supply. -/
theorem supply_wholeTransfer_twice (ω : Choices) :
    let n₁ := (newRPCNode manualMining ω {}).next manualMining ω (.sendTransaction wholeTransfer)
    let n₂ := n₁.next manualMining ω (.sendTransaction wholeTransfer)
    n₁.world = freshWorld manualMining ∧
      (n₂.next manualMining ω .mineBlock).world.supply = 2 * (1000 * 10 ^ 18) := by
  intro n₁ n₂
  obtain ⟨hworld, hempty, -⟩ := fresh_manualMining ω
  obtain ⟨hworld₁, -, hpending₁⟩ := send_wholeTransfer hworld ω
  obtain ⟨hworld₂, -, hpending₂⟩ := send_wholeTransfer (n := n₁) hworld₁ ω
  refine ⟨hworld₁, ?_⟩
  obtain ⟨hsender, hrecipient, hvalue⟩ :=
    wholeTransfer_record (newRPCNode manualMining ω {}) (ω.call 0)
  obtain ⟨hsender', hrecipient', hvalue'⟩ := wholeTransfer_record n₁ (ω.call 0)
  rw [RpcNode.next, RpcNode.minePendingBlock_world, hpending₂, hpending₁, hempty, hworld₂]
  generalize (newRPCNode manualMining ω {}).txOfObject (ω.call 0) wholeTransfer "" = r at *
  generalize n₁.txOfObject (ω.call 0) wholeTransfer "" = r' at *
  -- the first transfer takes the balance to zero, so the second one is credited but not debited
  have hdrained : ((freshWorld manualMining).apply manualMining.bridgeAddress r).balance
      defaultAccount = 0 := by
    have hcover : (1000 * 10 ^ 18 : ℤ) ≤ (freshWorld manualMining).balance defaultAccount := by
      rw [balance_freshWorld_manualMining]
    rw [World.balance_eq (by decide), World.balances_apply, World.transfer, hsender, hrecipient,
      hvalue, if_pos ⟨by decide, by decide⟩]
    dsimp only
    rw [World.debit, if_pos hcover]
    show (Option.map parseQuantity (FinMap.get? (FinMap.insert (FinMap.insert _ _ _) _ _) _)).getD 0 = 0
    rw [FinMap.get?_insert_of_ne _ _ (by decide), FinMap.get?_insert_self, Option.map_some,
      parseQuantity_hexText, balance_freshWorld_manualMining]
    rfl
  show (((freshWorld manualMining).apply manualMining.bridgeAddress r).apply
    manualMining.bridgeAddress r').supply = _
  rw [World.supply_apply_of_not_covers, World.supply_apply, supply_freshWorld_manualMining, hvalue']
  · rfl
  · exact covers_wholeTransfer hsender hvalue
  · rw [hsender']; decide
  · rw [hrecipient']; decide
  · rw [hsender', hvalue', hdrained]; decide

omit [Platform] in
/-- **Minting by overdraft.** A strict node accepts two transfers of one whole balance, mines
them and ends with twice the supply. -/
theorem supply_overdraft :
    letI := Platform.checksums
    let n₁ := (newRPCNode manualMining default {}).next manualMining default
      (.sendTransaction wholeTransfer)
    let n₂ := n₁.next manualMining default (.sendTransaction wholeTransfer)
    manualMining.strictMode = true ∧
      (newRPCNode manualMining default {}).validateTransaction manualMining wholeTransfer = .ok () ∧
      n₁.validateTransaction manualMining wholeTransfer = .ok () ∧
      (freshWorld manualMining).supply = 1000 * 10 ^ 18 ∧
      (n₂.next manualMining default .mineBlock).world.supply = 2 * (1000 * 10 ^ 18) := by
  obtain ⟨hfresh, -⟩ := @fresh_manualMining Platform.checksums default
  obtain ⟨hworld, hsupply⟩ := @supply_wholeTransfer_twice Platform.checksums default
  exact ⟨rfl, @validate_wholeTransfer Platform.checksums _ hfresh,
    @validate_wholeTransfer Platform.checksums _ hworld,
    @supply_freshWorld_manualMining Platform.checksums, hsupply⟩

/-- Sent once and mined, it is in the second block. -/
theorem length_wholeTransfer (ω : Choices) :
    (((newRPCNode manualMining ω {}).next manualMining ω (.sendTransaction wholeTransfer)).next
      manualMining ω .mineBlock).blocks.length = 2 := by
  obtain ⟨hworld, -, hblocks⟩ := fresh_manualMining ω
  obtain ⟨-, hblocks₁, -⟩ := send_wholeTransfer hworld ω
  obtain ⟨block, hmined⟩ := ((newRPCNode manualMining ω {}).next manualMining ω
    (.sendTransaction wholeTransfer)).minePendingBlock_blocks manualMining ω
  refine (congrArg List.length hmined).trans ?_
  rw [List.length_append, hblocks₁, hblocks]
  rfl

/-- Sent once and mined, nothing waits and the recipient has the whole balance. -/
theorem mined_wholeTransfer (ω : Choices) :
    let n := ((newRPCNode manualMining ω {}).next manualMining ω (.sendTransaction wholeTransfer)).next
      manualMining ω .mineBlock
    n.pendingTxs = [] ∧
      n.world.balance "0x00000000000000000000000000000000000000aa" = 1000 * 10 ^ 18 := by
  intro n
  refine ⟨RpcNode.minePendingBlock_pendingTxs _ _ _, ?_⟩
  obtain ⟨hworld, hempty, -⟩ := fresh_manualMining ω
  obtain ⟨hworld₁, -, hpending₁⟩ := send_wholeTransfer hworld ω
  obtain ⟨hsender, hrecipient, hvalue⟩ :=
    wholeTransfer_record (newRPCNode manualMining ω {}) (ω.call 0)
  have hmined : n.world = (freshWorld manualMining).apply manualMining.bridgeAddress
      ((newRPCNode manualMining ω {}).txOfObject (ω.call 0) wholeTransfer "") := by
    refine (RpcNode.minePendingBlock_world _ _ _).trans ?_
    rw [hpending₁, hempty, hworld₁]
    rfl
  rw [hmined]
  generalize (newRPCNode manualMining ω {}).txOfObject (ω.call 0) wholeTransfer "" = r at *
  rw [World.balance_eq (by decide), World.balances_apply, World.balances_transfer, hrecipient,
    FinMap.get?_insert_self, Option.map_some, parseQuantity_hexText,
    balance_freshWorld_aa, hvalue, zero_add]
  · rfl
  · rw [hsender]
    decide
  · rw [hrecipient]
    decide
  · rw [hrecipient, hsender]
    decide
  · rw [hsender, hvalue, balance_freshWorld_manualMining]

/-- Sent once and mined, whatever the two calls are asked to meet. -/
theorem run_wholeTransfer {ok : RpcNode → Choices → Event → Prop} (ω : Choices)
    (hsend : ok (newRPCNode manualMining ω {}) ω (.sendTransaction wholeTransfer))
    (hmine : ok ((newRPCNode manualMining ω {}).next manualMining ω
      (.sendTransaction wholeTransfer)) ω .mineBlock) :
    ReachableBy manualMining ok
      (((newRPCNode manualMining ω {}).next manualMining ω (.sendTransaction wholeTransfer)).next
        manualMining ω .mineBlock) := by
  obtain ⟨hworld, -, hblocks⟩ := fresh_manualMining ω
  obtain ⟨-, hblocks₁, -⟩ := send_wholeTransfer hworld ω
  refine ⟨ω, .tail (.single ⟨ω, .sendTransaction wholeTransfer, hsend, rfl, ?_⟩)
    ⟨ω, .mineBlock, hmine, rfl, ?_⟩⟩
  · rw [hblocks₁, hblocks]
    decide
  · rw [length_wholeTransfer]
    decide

/-- Sent once and mined, the transfer is covered. -/
theorem reachable_wholeTransfer (ω : Choices) :
    ReachableBy manualMining (ConservingStep manualMining)
      (((newRPCNode manualMining ω {}).next manualMining ω (.sendTransaction wholeTransfer)).next
        manualMining ω .mineBlock) := by
  obtain ⟨hworld, hempty, -⟩ := fresh_manualMining ω
  obtain ⟨hworld₁, -, hpending₁⟩ := send_wholeTransfer hworld ω
  obtain ⟨hsender, hrecipient, hvalue⟩ :=
    wholeTransfer_record (newRPCNode manualMining ω {}) (ω.call 0)
  refine run_wholeTransfer ω ?_ ?_
  · rw [ConservingStep, RpcNode.executed, if_neg fun h => Bool.false_ne_true h.1]
    trivial
  · show TransfersCovered _ _ _
    rw [hworld₁, RpcNode.executed, hpending₁, hempty]
    exact ⟨covers_wholeTransfer hsender hvalue,
      fun _ _ => balancesAlike_wholeTransfer hsender hrecipient, trivial⟩

omit [Platform] in
theorem supply_of_wholeTransfer :
    (@RpcNode.next Platform.checksums (@RpcNode.next Platform.checksums
      (@newRPCNode Platform.checksums manualMining default {}) manualMining default
      (.sendTransaction wholeTransfer)) manualMining default .mineBlock).world.supply =
        (@freshWorld Platform.checksums manualMining).supply :=
  @supply_of_covered Platform.checksums _ _ (@reachable_wholeTransfer Platform.checksums default)

end BhtBhte.Node
