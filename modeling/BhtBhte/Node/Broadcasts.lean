import BhtBhte.Node.Chain

/-!
# Withdrawals paid out on the BHT chain

A withdrawal is paid when `broadcastBHTWithdrawal` succeeds for it.  The node keeps no list of what
it paid: the flag of the record is the only guard, and the record goes away with a reorganisation
and is overwritten by the next request with its id.  The runs here carry the list of paid ids beside
the node.  Where no paid id is started again, every id is paid once (`paid_of_unpaidStarts`).
-/
namespace BhtBhte.Node
open BhtBhte.Lib
variable [Platform]

/-- The record once it is paid. -/
def WithdrawalRecord.paid (w : WithdrawalRecord) (bhtTxHash : String) : WithdrawalRecord :=
  { w with processed := true, bhtTxHash := bhtTxHash }

namespace RpcNode

/-! ## What a call starts and what it pays -/

/-- A transaction whose execution starts a withdrawal. -/
def startsWithdrawal (cfg : Config) (tx : TxRecord) : Bool :=
  tx.recipient ≠ "" && tx.recipient = cfg.bridgeAddress && isWithdrawalCall tx && tx.sender ≠ ""

/-- The ids of the withdrawals that executing a list of transactions starts. -/
def txsStartedIds (cfg : Config) : Choices → List TxRecord → List String
  | _, [] => []
  | ω, tx :: txs =>
      let started := if startsWithdrawal cfg tx then
        [(withdrawalOf cfg ((ω.call 0).call 0) (withdrawalRequest tx)).id] else []
      started ++ txsStartedIds cfg (ω.call 1) txs

/-- The ids of the withdrawals that a call starts. -/
def startedIds (n : RpcNode) (cfg : Config) (ω : Choices) : Event → List String
  | .sendTransaction tx =>
      if cfg.autoMine ∧ n.validateTransaction cfg tx = .ok () then
        txsStartedIds cfg ((ω.call 1).call 1) (n.pendingTxs ++ [n.txOfObject (ω.call 0) tx ""])
      else []
  | .sendRawTransaction rawTx =>
      if cfg.autoMine then
        txsStartedIds cfg ((ω.call 1).call 1) (n.pendingTxs ++ [txOfRaw (ω.call 0) rawTx])
      else []
  | .mineBlock => txsStartedIds cfg (ω.call 1) n.pendingTxs
  | .syncBlock block => txsStartedIds cfg ((ω.call 0).call 1) block.record.transactions
  | .initiateWithdrawal request => [(withdrawalOf cfg ω request).id]
  | _ => []

/-- The id of the withdrawal that a call pays: the one whose broadcast succeeds. -/
def broadcastId (n : RpcNode) (cfg : Config) (ω : Choices) : Event → Option String
  | .processWithdrawal id answer =>
      match n.dueWithdrawal cfg ω id with
      | .ok (w, true) =>
          match broadcastBHTWithdrawal cfg w answer with
          | .ok _ => some w.id
          | .error _ => none
      | _ => none
  | _ => none

end RpcNode

/-! ## Records started by a call -/

/-- Every record of `m'` is one of `m` or was started under one of `ids`. -/
def StartsOnly (ids : List String) (m m' : FinMap String WithdrawalRecord) : Prop :=
  ∀ k w, m'.get? k = some w → m.get? k = some w ∨ (k ∈ ids ∧ w.id = k)

namespace StartsOnly
variable {ids ids' : List String} {m m' m'' : FinMap String WithdrawalRecord}

omit [Platform] in
theorem of_eq (h : m' = m) : StartsOnly ids m m' := fun _ _ hw => .inl (h ▸ hw)

omit [Platform] in
theorem trans (h : StartsOnly ids m m') (h' : StartsOnly ids' m' m'') :
    StartsOnly (ids ++ ids') m m'' := by
  intro k w hw
  rcases h' k w hw with hw | ⟨hk, hid⟩
  · rcases h k w hw with hw | ⟨hk, hid⟩
    · exact .inl hw
    · exact .inr ⟨List.mem_append_left _ hk, hid⟩
  · exact .inr ⟨List.mem_append_right _ hk, hid⟩

omit [Platform] in
theorem insert (m : FinMap String WithdrawalRecord) (w : WithdrawalRecord) :
    StartsOnly [w.id] m (m.insert w.id w) := by
  intro k w' hw'
  rw [FinMap.get?_insert] at hw'
  split at hw'
  · next hk =>
      cases hw'
      exact .inr ⟨List.mem_singleton.mpr hk, hk.symm⟩
  · exact .inl hw'

end StartsOnly

namespace RpcNode
variable {cfg : Config} {ω : Choices} {n : RpcNode} {tx : TxRecord} {blockHash : String}
  {blockNumber index : ℕ}

theorem initiateWithdrawal_withdrawals (request : Object) :
    (n.initiateWithdrawal cfg ω request).2.withdrawals =
      n.withdrawals.insert (withdrawalOf cfg ω request).id (withdrawalOf cfg ω request) := by
  rw [initiateWithdrawal]
  split <;> rfl

theorem bridgeAnchor_withdrawals :
    (n.bridgeAnchor ω tx blockHash blockNumber).withdrawals = n.withdrawals := by
  have hsubmit : ∀ (m : RpcNode) (ω : Choices) anchor,
      (m.submitAnchor ω anchor).2.withdrawals = m.withdrawals := by
    intro m ω anchor
    rw [submitAnchor]
    dsimp only
    split <;> rfl
  rw [bridgeAnchor]
  split
  · obtain ⟨l, hl, -⟩ := n.computeStateTrieRoot_eq (ω.call 0)
    rw [hsubmit, hl]
    rfl
  · rfl

theorem executeTransaction_withdrawals :
    (n.executeTransaction cfg ω tx blockHash blockNumber index).2.2.withdrawals =
      if startsWithdrawal cfg tx then
        n.withdrawals.insert (withdrawalOf cfg (ω.call 0) (withdrawalRequest tx)).id
          (withdrawalOf cfg (ω.call 0) (withdrawalRequest tx))
      else n.withdrawals := by
  have hstarts : startsWithdrawal cfg tx = true ↔
      (tx.recipient ≠ "" ∧ tx.recipient = cfg.bridgeAddress) ∧
        isWithdrawalCall tx = true ∧ tx.sender ≠ "" := by
    simp only [startsWithdrawal, Bool.and_eq_true, decide_eq_true_eq, and_assoc]
  rcases n.executeTransaction_cases cfg ω tx blockHash blockNumber index with
    ⟨hne, hbridge, heq⟩ | ⟨hnot, heq⟩
  · rw [heq, bridgeAnchor_withdrawals, bridgeWithdrawal]
    by_cases hcall : isWithdrawalCall tx = true ∧ tx.sender ≠ ""
    · rw [if_pos hcall, if_pos (hstarts.mpr ⟨⟨hne, hbridge⟩, hcall⟩),
        initiateWithdrawal_withdrawals]
    · rw [if_neg hcall, if_neg fun h => hcall (hstarts.mp h).2]
  · rw [heq, if_neg fun h => hnot (hstarts.mp h).1]

/-- One transaction starts at most the withdrawal of its own hash. -/
theorem applyMinedTransaction_withdrawals :
    (n.applyMinedTransaction cfg ω tx blockHash blockNumber index).2.2.withdrawals =
      if startsWithdrawal cfg tx then
        n.withdrawals.insert (withdrawalOf cfg (ω.call 0) (withdrawalRequest tx)).id
          (withdrawalOf cfg (ω.call 0) (withdrawalRequest tx))
      else n.withdrawals :=
  executeTransaction_withdrawals

theorem applyMinedTransaction_startsOnly :
    StartsOnly (if startsWithdrawal cfg tx then
        [(withdrawalOf cfg (ω.call 0) (withdrawalRequest tx)).id] else []) n.withdrawals
      (n.applyMinedTransaction cfg ω tx blockHash blockNumber index).2.2.withdrawals := by
  rw [applyMinedTransaction_withdrawals]
  split
  · exact .insert _ _
  · exact .of_eq rfl

theorem applyTxs_startsOnly (txs : List TxRecord) :
    StartsOnly (txsStartedIds cfg ω txs) n.withdrawals
      (applyTxs cfg blockHash blockNumber n ω index txs).2.2.withdrawals := by
  induction txs generalizing n ω index with
  | nil => exact .of_eq rfl
  | cons tx txs ih => exact applyMinedTransaction_startsOnly.trans ih

theorem mineTxs_startsOnly (txs : List TxRecord) :
    StartsOnly (txsStartedIds cfg ω txs) n.withdrawals
      (mineTxs cfg blockHash blockNumber n ω index txs).2.2.withdrawals := by
  induction txs generalizing n ω index with
  | nil => exact .of_eq rfl
  | cons tx txs ih =>
      rw [mineTxs, txsStartedIds]
      exact applyMinedTransaction_startsOnly.trans ih

theorem minePendingBlock_startsOnly :
    StartsOnly (txsStartedIds cfg (ω.call 1) n.pendingTxs) n.withdrawals
      (n.minePendingBlock cfg ω).2.withdrawals := by
  obtain ⟨block, l, heq, -⟩ := n.minePendingBlock_eq cfg ω
  rw [heq]
  exact mineTxs_startsOnly (n := { n with pendingTxs := [] }) n.pendingTxs

theorem recordImported_withdrawals (n : RpcNode) (txs : List TxRecord)
    (receipts : List ReceiptRecord) : (n.recordImported txs receipts).withdrawals = n.withdrawals := by
  induction txs generalizing n receipts with
  | nil => rfl
  | cons tx txs ih =>
      cases receipts with
      | nil => rfl
      | cons receipt receipts =>
          rw [recordImported, ih]
          split <;> rfl

theorem syncBlock_startsOnly {height : ℕ} {block : PeerBlock} :
    StartsOnly (txsStartedIds cfg ((ω.call 0).call 1) block.record.transactions) n.withdrawals
      (n.syncBlock cfg ω height block).2.withdrawals := by
  rcases n.syncBlock_cases cfg ω height block with ⟨heq, -⟩ | ⟨e, ω₁, ω₂, disk, heq⟩ |
    ⟨ω₂, l, heq, -⟩
  · rw [heq]; exact .of_eq rfl
  · rw [heq]; exact .of_eq rfl
  · rw [heq, afterImport, recordImported_withdrawals]
    exact applyTxs_startsOnly (n := { n with
      height := quantity64 block.record.number, replayMode := true }) block.record.transactions

theorem enqueue_startsOnly {record : TxRecord} :
    StartsOnly (if cfg.autoMine then txsStartedIds cfg (ω.call 1) (n.pendingTxs ++ [record])
      else []) n.withdrawals (n.enqueue cfg ω record).withdrawals := by
  rw [enqueue]
  by_cases hauto : cfg.autoMine = true
  · rw [if_pos hauto, if_pos hauto]
    exact minePendingBlock_startsOnly
  · rw [if_neg hauto, if_neg hauto]
    exact .of_eq rfl

/-- A record that passes every check is due. -/
theorem dueWithdrawal_eq {id : String} {w : WithdrawalRecord}
    (hw : n.withdrawals.get? (toLower id) = some w) (hid : w.id ≠ "")
    (hchallenged : w.challenged = false) (hprocessed : w.processed = false)
    (hlate : ¬ (cfg.strictMode = true ∧ ω.unix < w.challengeDeadline)) :
    n.dueWithdrawal cfg ω id = .ok (w, true) := by
  rw [dueWithdrawal, hw, Option.getD_some, if_neg hid, if_neg (by simp [hchallenged]),
    if_neg (by simp [hprocessed]), if_neg hlate]

/-- **A payout request** changes nothing and pays nothing, or pays the unprocessed record
under the key and marks it. -/
theorem processWithdrawal_cases (n : RpcNode) (cfg : Config) (ω : Choices) (id : String)
    (answer : Except String String) :
    ((n.processWithdrawal cfg ω id answer).2 = n ∧
      n.broadcastId cfg ω (.processWithdrawal id answer) = none) ∨
    ∃ w hash, n.withdrawals.get? (toLower id) = some w ∧ w.processed = false ∧
      n.broadcastId cfg ω (.processWithdrawal id answer) = some w.id ∧
      (n.processWithdrawal cfg ω id answer).2 =
        (({ n with withdrawals := n.withdrawals.insert (toLower id) (w.paid hash) } :
          RpcNode).appendLog cfg [.ofText (topicHash "WithdrawalProcessed"), paddedTopic w.recipient] w.amount
          w.l2TxHash).save := by
  rw [processWithdrawal, broadcastId]
  cases hdue : n.dueWithdrawal cfg ω id with
  | error e => exact .inl ⟨rfl, rfl⟩
  | ok r =>
      obtain ⟨w, due⟩ := r
      cases due with
      | false => exact .inl ⟨rfl, rfl⟩
      | true =>
          have hget : n.withdrawals.get? (toLower id) = some w ∧ w.processed = false := by
            rw [dueWithdrawal] at hdue
            split_ifs at hdue with h₁ h₂ h₃ h₄
            · simp at hdue
            · have hrecord : (n.withdrawals.get? (toLower id)).getD {} = w := by simpa using hdue
              cases hw : n.withdrawals.get? (toLower id) with
              | none =>
                  rw [hw] at h₁
                  exact absurd rfl h₁
              | some w' =>
                  rw [hw] at hrecord h₃
                  exact ⟨congrArg some hrecord, hrecord ▸ Bool.eq_false_iff.mpr h₃⟩
          cases hpay : broadcastBHTWithdrawal cfg w answer with
          | error e => exact .inl ⟨by simp [hpay], by simp [hpay]⟩
          | ok hash =>
              exact .inr ⟨w, hash, hget.1, hget.2, by simp [hpay],
                by simp [hpay, WithdrawalRecord.paid]⟩

/-- Every call but a payout leaves records as they are, drops them or starts new ones. -/
theorem next_startsOnly (h : ChainOk n) {e : Event} (hpay : n.broadcastId cfg ω e = none) :
    StartsOnly (n.startedIds cfg ω e) n.withdrawals (n.next cfg ω e).withdrawals := by
  cases e with
  | sendTransaction tx =>
      rw [next, startedIds]
      rcases n.sendTransaction_cases cfg ω tx with heq | ⟨hvalid, heq⟩
      · rw [heq]; exact .of_eq rfl
      · rw [heq]
        simp only [hvalid, and_true]
        exact enqueue_startsOnly
  | sendRawTransaction rawTx => exact enqueue_startsOnly
  | mineBlock => exact minePendingBlock_startsOnly
  | handleReorg height newHash =>
      rcases n.handleReorg_cases ω height newHash with heq | ⟨snapshot, -, -, heq⟩
      · rw [next, heq]; exact .of_eq rfl
      · rw [next, heq]
        intro k w hw
        have hw' := (FinMap.get?_filter _ _ k).symm.trans hw
        exact .inl (Option.filter_eq_some_iff.mp hw').1
  | syncBlock block => exact syncBlock_startsOnly
  | setPeer peer => exact .of_eq rfl
  | submitBridgeEvent event => exact .of_eq rfl
  | initiateWithdrawal request =>
      rw [next, initiateWithdrawal_withdrawals]
      exact .insert _ _
  | processWithdrawal id answer =>
      rcases n.processWithdrawal_cases cfg ω id answer with ⟨heq, -⟩ | ⟨w, hash, -, -, hsome, -⟩
      · rw [next, heq]; exact .of_eq rfl
      · rw [hsome] at hpay
        cases hpay
  | submitAnchor anchor =>
      rw [next, submitAnchor]
      dsimp only
      split <;> exact .of_eq rfl
  | replayChain =>
      rcases n.replayChain_cases cfg ω with heq | ⟨ω₁, ω₂, disk, heq⟩
      · rw [next, heq]; exact .of_eq rfl
      · rw [next, heq]; exact .of_eq rfl
  | validateBlock block =>
      rcases n.validateBlockRecord_cases cfg ω block with heq | ⟨ω₁, ω₂, disk, heq⟩
      · rw [next, heq]; exact .of_eq rfl
      · rw [next, heq]; exact .of_eq rfl
  | restart =>
      obtain ⟨index, disk, heq, -⟩ := h.restart cfg ω
      rw [next, heq]
      exact .of_eq rfl

end RpcNode

/-! ## Runs with their payouts -/

/-- One call, with the id that it pays added to the list. -/
def PaidStep (cfg : Config) (ok : RpcNode → List String → Choices → Event → Prop)
    (s s' : RpcNode × List String) : Prop :=
  ∃ ω e, ok s.1 s.2 ω e ∧ s'.1 = s.1.next cfg ω e ∧
    s'.2 = s.2 ++ (s.1.broadcastId cfg ω e).toList ∧ s'.1.blocks.length < 2 ^ 63

/-- Reached from a fresh node by calls that all meet `ok`, with the ids paid on the way. -/
def PaidBy (cfg : Config) (ok : RpcNode → List String → Choices → Event → Prop) (n : RpcNode)
    (paid : List String) : Prop :=
  ∃ ω, Relation.ReflTransGen (PaidStep cfg ok) (newRPCNode cfg ω {}, []) (n, paid)

/-- A call that starts no withdrawal under an id that was paid before. -/
def UnpaidStarts (cfg : Config) (n : RpcNode) (paid : List String) (ω : Choices) (e : Event) :
    Prop :=
  ∀ id ∈ n.startedIds cfg ω e, id ∉ paid

/-- Records are kept under their ids, no id is paid twice, and the record of a paid id is
gone or marked. -/
structure PaidOk (n : RpcNode) (paid : List String) : Prop where
  ids : ∀ k w, n.withdrawals.get? k = some w → w.id = k
  nodup : paid.Nodup
  processed : ∀ id ∈ paid, ∀ w, n.withdrawals.get? id = some w → w.processed = true

theorem PaidOk.next {n : RpcNode} {paid : List String} (h : PaidOk n paid) (hchain : ChainOk n)
    {cfg : Config} {ω : Choices} {e : Event} (hok : UnpaidStarts cfg n paid ω e) :
    PaidOk (n.next cfg ω e) (paid ++ (n.broadcastId cfg ω e).toList) := by
  cases hpay : n.broadcastId cfg ω e with
  | none =>
      have hstarts := RpcNode.next_startsOnly hchain hpay
      rw [Option.toList_none, List.append_nil]
      refine ⟨fun k w hw => ?_, h.nodup, fun id hid w hw => ?_⟩
      · rcases hstarts k w hw with hw | ⟨-, hk⟩
        · exact h.ids k w hw
        · exact hk
      · rcases hstarts id w hw with hw | ⟨hstart, -⟩
        · exact h.processed id hid w hw
        · exact absurd hid (hok id hstart)
  | some paidId =>
      cases e with
      | processWithdrawal id answer =>
          rcases n.processWithdrawal_cases cfg ω id answer with ⟨-, hnone⟩ |
            ⟨w, hash, hget, hunprocessed, hsome, heq⟩
          · rw [hnone] at hpay
            cases hpay
          · rw [hsome] at hpay
            cases hpay
            have hset : (n.processWithdrawal cfg ω id answer).2.withdrawals =
                n.withdrawals.insert (toLower id) (w.paid hash) := by rw [heq]; rfl
            have hkey : w.id = toLower id := h.ids _ w hget
            -- the record was not marked, so its id is not among the paid ones
            have hnew : w.id ∉ paid := by
              intro hmem
              rw [h.processed w.id hmem w (hkey ▸ hget)] at hunprocessed
              cases hunprocessed
            rw [RpcNode.next]
            refine ⟨fun k w' hw' => ?_, ?_, fun id' hid' w' hw' => ?_⟩
            · rw [hset, FinMap.get?_insert] at hw'
              split at hw'
              · next hk =>
                  cases hw'
                  exact hkey.trans hk.symm
              · exact h.ids k w' hw'
            · rw [Option.toList_some, List.nodup_append']
              exact ⟨h.nodup, List.nodup_singleton _,
                List.disjoint_singleton.mpr hnew⟩
            · rw [hset, FinMap.get?_insert] at hw'
              split at hw'
              · cases hw'
                rfl
              · next hne =>
                  rw [Option.toList_some] at hid'
                  rcases List.mem_append.mp hid' with hid' | hid'
                  · exact h.processed id' hid' w' hw'
                  · exact absurd ((List.mem_singleton.mp hid').trans hkey) hne
      | _ => cases hpay

/-- **Paid once.** In a run that never starts a withdrawal under an id already paid, every
id is paid at most once. -/
theorem paid_of_unpaidStarts {cfg : Config} {n : RpcNode} {paid : List String}
    (h : PaidBy cfg (UnpaidStarts cfg) n paid) : paid.Nodup := by
  obtain ⟨ω, hrun⟩ := h
  have hfresh : PaidOk (newRPCNode cfg ω {}) [] := by
    obtain ⟨ω₁, l, timestamp, heq, -⟩ := newRPCNode_fresh cfg ω
    rw [heq]
    refine ⟨fun k w hw => ?_, List.nodup_nil, fun id hid => ?_⟩
    · cases hw
    · cases hid
  have hinv : ∀ s, Relation.ReflTransGen (PaidStep cfg (UnpaidStarts cfg))
      (newRPCNode cfg ω {}, []) s → ChainOk s.1 ∧ PaidOk s.1 s.2 := by
    intro s hs
    induction hs with
    | refl => exact ⟨chainOk_fresh cfg ω, hfresh⟩
    | tail _ hstep ih =>
        obtain ⟨ω', e, hok, hnext, hpaid, hlen⟩ := hstep
        rw [hnext] at hlen ⊢
        rw [hpaid]
        exact ⟨ih.1.next hlen, ih.2.next ih.1 hok⟩
  exact (hinv _ hrun).2.nodup

/-! ## A withdrawal started again -/

/-- A request with a hash of its own. -/
def sampleWithdrawal (l2TxHash : String) : Object :=
  object [("recipient", .str "0x00000000000000000000000000000000000000aa"), ("amount", .str "0x1"),
    ("l2TxHash", .str l2TxHash)]

/-- A clock that stands at the given second. -/
def atSecond (t : ℕ) : Choices := fun _ => ⟨t * 1000000000, fun _ => Equiv.refl _⟩

omit [Platform] in
theorem unix_atSecond (t : ℕ) : (atSecond t).unix = t := by
  show (t * 1000000000 : ℤ) / 1000000000 = t
  omega

/-- A text that is an identifier as it stands. -/
def IsId (id : String) : Prop := toLower id = id ∧ id ≠ "" ∧ id ≠ "<nil>"

theorem isId_ab : IsId "0xab" := ⟨toLower_of_ascii (by decide), by decide, by decide⟩

theorem isId_cd : IsId "0xcd" := ⟨toLower_of_ascii (by decide), by decide, by decide⟩

theorem withdrawalOf_sample {id : String} (hid : IsId id) (cfg : Config) (ω : Choices) :
    (RpcNode.withdrawalOf cfg ω (sampleWithdrawal id)).id = id ∧
    (RpcNode.withdrawalOf cfg ω (sampleWithdrawal id)).challenged = false ∧
    (RpcNode.withdrawalOf cfg ω (sampleWithdrawal id)).processed = false ∧
    (RpcNode.withdrawalOf cfg ω (sampleWithdrawal id)).challengeDeadline =
      ω.unix + cfg.challengeSeconds := by
  obtain ⟨hlower, hempty, hnil⟩ := hid
  have hget : (sampleWithdrawal id).get? "l2TxHash" = some (.str id) :=
    FinMap.get?_insert_self _ _ _
  have hhash : text (sampleWithdrawal id) "l2TxHash" = id := text_of_str (by rw [field, hget]; rfl)
  refine ⟨?_, rfl, rfl, rfl⟩
  show toLower (stringOrDefault (text (sampleWithdrawal id) "l2TxHash") _) = _
  rw [hhash, stringOrDefault, if_neg (not_or.mpr ⟨hempty, hnil⟩), hlower]

/-- Started and then processed after its deadline, the withdrawal is paid, whatever the node
did before. -/
theorem broadcastId_started {id : String} (hid : IsId id) (n : RpcNode) {ω ω' : Choices}
    (h : ω.unix + 7 * 24 * 60 * 60 ≤ ω'.unix) :
    (n.next {} ω (.initiateWithdrawal (sampleWithdrawal id))).broadcastId {} ω'
      (.processWithdrawal id (.ok "0x01")) = some id := by
  obtain ⟨hsame, hchallenged, hprocessed, hdeadline⟩ := withdrawalOf_sample hid {} ω
  have hget : (n.next {} ω (.initiateWithdrawal (sampleWithdrawal id))).withdrawals.get?
      (toLower id) = some (RpcNode.withdrawalOf {} ω (sampleWithdrawal id)) := by
    rw [RpcNode.next, RpcNode.initiateWithdrawal_withdrawals, hsame, hid.1,
      FinMap.get?_insert_self]
  have hdue : (n.next {} ω (.initiateWithdrawal (sampleWithdrawal id))).dueWithdrawal {} ω' id =
      .ok (RpcNode.withdrawalOf {} ω (sampleWithdrawal id), true) := by
    apply RpcNode.dueWithdrawal_eq hget
    · rw [hsame]
      exact hid.2.1
    · exact hchallenged
    · exact hprocessed
    · rw [hdeadline]
      exact fun hlate => absurd hlate.2 (not_lt.mpr h)
  rw [RpcNode.broadcastId, hdue]
  show some (RpcNode.withdrawalOf {} ω (sampleWithdrawal id)).id = _
  rw [hsame]

/-- Neither call moves the chain. -/
theorem blocks_withdrawal (id : String) (n : RpcNode) (ω ω' : Choices) :
    (n.next {} ω (.initiateWithdrawal (sampleWithdrawal id))).blocks = n.blocks ∧
    (n.next {} ω' (.processWithdrawal id (.ok "0x01"))).blocks = n.blocks := by
  refine ⟨(RpcNode.initiateWithdrawal_sameChain (sampleWithdrawal id)).blocks, ?_⟩
  rw [RpcNode.next, RpcNode.processWithdrawal]
  split
  · rfl
  · rfl
  · split <;> rfl

/-- Start the withdrawal at one second and process it at another. -/
def RpcNode.startAndPay (n : RpcNode) (id : String) (start pay : ℕ) : RpcNode :=
  (n.next {} (atSecond start) (.initiateWithdrawal (sampleWithdrawal id))).next {} (atSecond pay)
    (.processWithdrawal id (.ok "0x01"))

theorem blocks_startAndPay (n : RpcNode) (id : String) (start pay : ℕ) :
    (n.startAndPay id start pay).blocks = n.blocks := by
  rw [RpcNode.startAndPay, (blocks_withdrawal id _ (atSecond pay) (atSecond pay)).2,
    (blocks_withdrawal id n (atSecond start) (atSecond pay)).1]

/-- Starting the withdrawal and paying it, as two steps of a run. -/
theorem paidStep_startAndPay {id : String} (hid : IsId id) {n : RpcNode}
    (hlen : n.blocks.length < 2 ^ 63) (paid : List String)
    {ok : RpcNode → List String → Choices → Event → Prop} {start pay : ℕ}
    (h : start + 7 * 24 * 60 * 60 ≤ pay)
    (hstart : ok n paid (atSecond start) (.initiateWithdrawal (sampleWithdrawal id)))
    (hpay : ok (n.next {} (atSecond start) (.initiateWithdrawal (sampleWithdrawal id))) paid
      (atSecond pay) (.processWithdrawal id (.ok "0x01"))) :
    Relation.ReflTransGen (PaidStep {} ok) (n, paid)
      (n.startAndPay id start pay, paid ++ [id]) := by
  have hblocks := (blocks_withdrawal id n (atSecond start) (atSecond pay)).1
  have hlate : (atSecond start).unix + 7 * 24 * 60 * 60 ≤ (atSecond pay).unix := by
    rw [unix_atSecond, unix_atSecond]
    exact_mod_cast h
  have hfirst : PaidStep {} ok (n, paid)
      (n.next {} (atSecond start) (.initiateWithdrawal (sampleWithdrawal id)), paid) :=
    ⟨_, _, hstart, rfl, (List.append_nil paid).symm, by rwa [hblocks]⟩
  refine .tail (.single hfirst) ⟨_, _, hpay, rfl, ?_, ?_⟩
  · rw [broadcastId_started hid n hlate]
    rfl
  · show (n.startAndPay id start pay).blocks.length < _
    rwa [blocks_startAndPay]

theorem length_fresh (cfg : Config) (ω : Choices) :
    (newRPCNode cfg ω {}).blocks.length < 2 ^ 63 := by
  have hlen : (newRPCNode cfg ω {}).blocks.length = 1 := by
    obtain ⟨ω₁, l, timestamp, heq, -⟩ := newRPCNode_fresh cfg ω
    rw [heq]
    rfl
  rw [hlen]
  decide

/-- Two withdrawals started and paid one after the other, where the condition holds at each of the
four calls. -/
theorem paidBy_startAndPay {ok : RpcNode → List String → Choices → Event → Prop} {id id' : String}
    (hid : IsId id) (hid' : IsId id')
    (hstart : ok (newRPCNode {} default {}) [] (atSecond 0)
      (.initiateWithdrawal (sampleWithdrawal id)))
    (hstart' : ok ((newRPCNode {} default {}).startAndPay id 0 604800) [id] (atSecond 604800)
      (.initiateWithdrawal (sampleWithdrawal id')))
    (hpay : ∀ n paid t id'', ok n paid (atSecond t) (.processWithdrawal id'' (.ok "0x01"))) :
    PaidBy {} ok (((newRPCNode {} default {}).startAndPay id 0 604800).startAndPay id' 604800
      1209600) [id, id'] := by
  have hlen := length_fresh {} default
  refine ⟨default, (paidStep_startAndPay hid hlen [] le_rfl hstart (hpay _ _ _ _)).trans
    (paidStep_startAndPay hid' ?_ [id] (by decide) hstart' (hpay _ _ _ _))⟩
  rwa [blocks_startAndPay]

omit [Platform] in
/-- **Paid twice.** A withdrawal requested again after its payout is paid a second time. -/
theorem broadcast_twice :
    letI := Platform.checksums
    PaidBy {} (fun _ _ _ _ => True)
      (((newRPCNode {} default {}).startAndPay "0xab" 0 604800).startAndPay "0xab" 604800 1209600)
      ["0xab", "0xab"] ∧ ¬ ["0xab", "0xab"].Nodup := by
  let _ := Platform.checksums
  exact ⟨paidBy_startAndPay isId_ab isId_ab trivial trivial fun _ _ _ _ => trivial, by decide⟩

/-- A withdrawal of another identifier may be started after a payout. -/
theorem unpaidStarts_sample {id : String} (hid : IsId id) {n : RpcNode} {paid : List String}
    (hpaid : id ∉ paid) (ω : Choices) :
    UnpaidStarts {} n paid ω (.initiateWithdrawal (sampleWithdrawal id)) := by
  intro started hstarted
  have hone : started ∈ [(RpcNode.withdrawalOf {} ω (sampleWithdrawal id)).id] := hstarted
  rw [(withdrawalOf_sample hid {} ω).1, List.mem_singleton] at hone
  rwa [hone]

omit [Platform] in
/-- Two withdrawals are paid, each of them once. -/
theorem paid_of_startAndPay :
    letI := Platform.checksums
    PaidBy {} (UnpaidStarts {})
      (((newRPCNode {} default {}).startAndPay "0xab" 0 604800).startAndPay "0xcd" 604800 1209600)
      ["0xab", "0xcd"] ∧ ["0xab", "0xcd"].Nodup := by
  let _ := Platform.checksums
  have hpaid : PaidBy {} (UnpaidStarts {})
      (((newRPCNode {} default {}).startAndPay "0xab" 0 604800).startAndPay "0xcd" 604800 1209600)
      ["0xab", "0xcd"] := by
    refine paidBy_startAndPay isId_ab isId_cd (unpaidStarts_sample isId_ab List.not_mem_nil _)
      (unpaidStarts_sample isId_cd (by decide) _) ?_
    intro n paid t id'' started hstarted
    cases hstarted
  exact ⟨hpaid, paid_of_unpaidStarts hpaid⟩

end BhtBhte.Node
