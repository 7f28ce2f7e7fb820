import BhtBhte.Node.Replayable
import BhtBhte.Node.Supply

/-!
# Mining again after a reorganisation

A reorganisation puts the accounts back to a snapshot and the removed transactions on the pending
list.  Execution reads the order of the transactions and the accounts, nothing of the block they
stand in, so one block with all of them leads to the same accounts.  That is `reorg_remine`.
-/
namespace BhtBhte.Node
open BhtBhte.Lib
variable [Platform]

/-- A transaction sent over RPC, or a mined block. -/
def SubmitStep : Event → Prop
  | .sendTransaction _ => True
  | .sendRawTransaction _ => True
  | .mineBlock => True
  | _ => False

/-! ## Accounts without their code -/

/-- The same balances, nonces and storage. -/
structure World.SameAccounts (w w' : World) : Prop where
  balances : w'.balances = w.balances
  nonces : w'.nonces = w.nonces
  storage : w'.storage = w.storage

namespace World
variable {cfg : Config} {w w' w'' : World}

omit [Platform] in
theorem SameAccounts.refl (w : World) : w.SameAccounts w := ⟨rfl, rfl, rfl⟩

omit [Platform] in
theorem SameAccounts.symm (h : w.SameAccounts w') : w'.SameAccounts w :=
  ⟨h.balances.symm, h.nonces.symm, h.storage.symm⟩

omit [Platform] in
theorem SameAccounts.trans (h : w.SameAccounts w') (h' : w'.SameAccounts w'') : w.SameAccounts w'' :=
  ⟨h'.balances.trans h.balances, h'.nonces.trans h.nonces, h'.storage.trans h.storage⟩

/-- Plain accounts that agree differ in their code only. -/
theorem Agree.sameAccounts (h : w.Agree w') (hw : w.Plain) (hw' : w'.Plain) : w.SameAccounts w' :=
  ⟨(h.balances.eq_of_fixed hw.balances hw'.balances).symm,
    (h.nonces.eq_of_fixed hw.nonces hw'.nonces).symm,
    (h.storage.eq_of_fixed hw.storage hw'.storage).symm⟩

theorem SameAccounts.apply (h : w.SameAccounts w') (bridgeAddress : String) (tx : TxRecord) :
    (w.apply bridgeAddress tx).SameAccounts (w'.apply bridgeAddress tx) := by
  have heq : w' = { w with code := w'.code } := by
    obtain ⟨hbalances, hnonces, hstorage⟩ := h
    cases w
    cases w'
    simp_all
  have happly := w.apply_code w'.code bridgeAddress tx
  rw [← heq] at happly
  exact ⟨happly.1, happly.2.1, happly.2.2⟩

theorem SameAccounts.applyAll (h : w.SameAccounts w') (cfg : Config) (txs : List TxRecord) :
    (w.applyAll cfg txs).SameAccounts (w'.applyAll cfg txs) := by
  induction txs generalizing w w' with
  | nil => exact h
  | cons tx txs ih => exact ih (h.apply cfg.bridgeAddress tx)

/-! ## Block boundaries -/

theorem applyAll_append (w : World) (txs txs' : List TxRecord) :
    w.applyAll cfg (txs ++ txs') = (w.applyAll cfg txs).applyAll cfg txs' :=
  List.foldl_append

/-- A requeued transaction executes as the mined one did. -/
theorem applyAll_requeued (w : World) (txs : List TxRecord) :
    w.applyAll cfg (txs.map RpcNode.requeuedTx) = w.applyAll cfg txs := by
  rw [applyAll, List.foldl_map]
  rfl

/-- **Merging blocks.** The requeued transactions of some blocks, executed as one list, lead to
the accounts that the blocks lead to. -/
theorem applyAll_flatMap_requeued (w : World) (blocks : List BlockRecord) :
    w.applyAll cfg (blocks.flatMap fun b => b.transactions.map RpcNode.requeuedTx) =
      w.replay cfg blocks := by
  induction blocks generalizing w with
  | nil => rfl
  | cons b blocks ih =>
      rw [List.flatMap_cons, applyAll_append, applyAll_requeued, ih]
      rfl

theorem replay_take_drop (w : World) (blocks : List BlockRecord) (k : ℕ) :
    (w.replay cfg (blocks.take k)).replay cfg (blocks.drop k) = w.replay cfg blocks := by
  rw [replay, replay, replay, ← List.foldl_append, List.take_append_drop]

end World

/-! ## Runs of sends and mined blocks -/

theorem World.Created.creationsAlike {cfg : Config} {w : World} {txs : List TxRecord} (h : w.Created)
    (htxs : ∀ tx ∈ txs, tx.Normal) : CreationsAlike cfg w txs := by
  induction txs generalizing w with
  | nil => trivial
  | cons tx txs ih =>
      exact ⟨h.creationAlike tx, ih (h.apply (htxs tx List.mem_cons_self) _) fun tx' htx' =>
        htxs tx' (List.mem_cons_of_mem _ htx')⟩

/-- What a send or a mined block executes is all it does to the accounts. -/
theorem RpcNode.next_world {n : RpcNode} {cfg : Config} {ω : Choices} {e : Event}
    (he : SubmitStep e) : (n.next cfg ω e).world = n.world.applyAll cfg (n.executed cfg ω e) := by
  have henqueue : ∀ (ω : Choices) (record : TxRecord), (n.enqueue cfg ω record).world =
      n.world.applyAll cfg (if cfg.autoMine then n.pendingTxs ++ [record] else []) := by
    intro ω record
    rw [RpcNode.enqueue]
    by_cases hauto : cfg.autoMine = true
    · rw [if_pos hauto, if_pos hauto]
      exact RpcNode.minePendingBlock_world _ _ _
    · rw [if_neg hauto, if_neg hauto]
      rfl
  cases e with
  | sendTransaction tx =>
      show (n.sendTransaction cfg ω tx).2.world = _
      rw [RpcNode.sendTransaction, RpcNode.executed]
      cases n.validateTransaction cfg tx with
      | error message =>
          rw [if_neg (by rintro ⟨-, hvalid⟩; cases hvalid)]
          rfl
      | ok u =>
          simp only [and_true]
          exact henqueue (ω.call 1) (n.txOfObject (ω.call 0) tx "")
  | sendRawTransaction rawTx => exact henqueue _ _
  | mineBlock => exact RpcNode.minePendingBlock_world _ _ _
  | _ => exact he.elim

/-- Sends and mined blocks are honest, and they keep the code under the created addresses. -/
theorem ReachableBy.honest_of_submit {cfg : Config} {n : RpcNode}
    (h : ReachableBy cfg (fun _ _ e => SubmitStep e) n) :
    ReachableBy cfg (HonestStep cfg) n ∧ n.world.Created := by
  refine h.induct (P := fun n => ReachableBy cfg (HonestStep cfg) n ∧ n.world.Created)
    (fun ω => ⟨⟨ω, .refl⟩, ?_⟩) ?_
  · obtain ⟨ω₁, l, timestamp, heq, -⟩ := newRPCNode_fresh cfg ω
    rw [heq]
    exact (replayOk_fresh cfg ω).created
  · intro n ω e ⟨hreach, hcreated⟩ he hlen
    have hlocal : ∀ block, e ≠ .syncBlock block := by
      rintro block rfl
      exact he
    obtain ⟨-, -, -, htidy, -⟩ := hreach.replayOk
    have htxs : ∀ tx ∈ n.executed cfg ω e, tx.Normal := fun tx htx =>
      (RpcNode.mem_or_normal_of_mem_executed hlocal htx).elim (htidy.pending tx) id
    refine ⟨hreach.next ⟨hlocal, hcreated.creationsAlike htxs⟩ hlen, ?_⟩
    rw [RpcNode.next_world he]
    exact hcreated.applyAll htxs

/-- **Nothing is lost.** In a node that was only sent transactions and mined, a reorganisation at
any height and one mined block give the balances, nonces and storage from before. -/
theorem reorg_remine {cfg : Config} {n : RpcNode}
    (h : ReachableBy cfg (fun _ _ e => SubmitStep e) n) (hpending : n.pendingTxs = [])
    (height : ℕ) (x : String) (ω ω' : Choices) :
    n.world.SameAccounts ((n.handleReorg ω height x).2.minePendingBlock cfg ω').2.world := by
  obtain ⟨hchain, -, hspell, htidy, hreplay⟩ := h.honest_of_submit.1.replayOk
  rw [RpcNode.minePendingBlock_world]
  rcases n.handleReorg_cases ω height x with heq | ⟨s, ⟨hone, -⟩, hs, heq⟩
  · rw [heq, hpending]
    exact .refl _
  · have hblocks : ∀ b ∈ n.blocks.tail, ∀ tx ∈ b.transactions, tx.Normal :=
      fun b hb => htidy.blocks b (List.mem_of_mem_tail hb)
    have hremoved : (n.rollback ω height s).save.pendingTxs =
        (n.blocks.tail.drop (height - 2)).flatMap fun b => b.transactions.map RpcNode.requeuedTx := by
      show n.pendingTxs ++ n.removedTxs height = _
      rw [hpending, List.nil_append, RpcNode.removedTxs, RpcNode.blocksFrom,
        filter_le_eq_drop hchain.numbers, ← List.drop_one, List.drop_drop,
        show 1 + (height - 2) = height - 1 by omega]
    have hworld : (n.rollback ω height s).save.world = s.world :=
      (hspell.snapshots _ _ hs).copy_eq ω
    -- both sides are the replay of the whole chain from genesis
    have hsnapshot := hreplay.snapshots _ s hs
    rw [Nat.sub_sub] at hsnapshot
    have hstart := (hsnapshot.sameAccounts (hspell.snapshots _ _ hs).plain
      (hreplay.created.replay fun b hb => hblocks b (List.mem_of_mem_take hb)).toPlain).symm
    have hend := hreplay.world.sameAccounts htidy.world (hreplay.created.replay hblocks).toPlain
    rw [heq, hremoved, hworld]
    have hmined := hstart.applyAll cfg ((n.blocks.tail.drop (height - 2)).flatMap fun b =>
      b.transactions.map RpcNode.requeuedTx)
    rw [World.applyAll_flatMap_requeued, World.replay_take_drop] at hmined
    exact hend.trans hmined

/-- A reorganisation of a node of two blocks at its head leaves genesis. -/
theorem length_handleReorg_two {cfg : Config} {n : RpcNode} (h : Reachable cfg n)
    (hlength : n.blocks.length = 2) (ω : Choices) : (n.handleReorg ω 2 "").2.blocks.length = 1 := by
  obtain ⟨b, b', hblocks⟩ := List.length_eq_two.mp hlength
  rw [(@handleReorg_last _ n h.chainOk [b] b' hblocks 2 one_lt_two rfl ω).1]
  rfl

omit [Platform] in
/-- A node that mined a transfer of the whole balance, reorganised to genesis and mined again. -/
theorem reorg_remine_wholeTransfer :
    letI := Platform.checksums
    let n := ((newRPCNode manualMining default {}).next manualMining default
      (.sendTransaction wholeTransfer)).next manualMining default .mineBlock
    n.world.balance "0x00000000000000000000000000000000000000aa" = 1000 * 10 ^ 18 ∧
      (n.handleReorg default 2 "").2.blocks.length = 1 ∧
      n.world.SameAccounts
        ((n.handleReorg default 2 "").2.minePendingBlock manualMining default).2.world := by
  have hlength := @length_wholeTransfer Platform.checksums default
  have hreach := @run_wholeTransfer Platform.checksums (fun _ _ e => SubmitStep e) default trivial
    trivial
  obtain ⟨hpending, hbalance⟩ := @mined_wholeTransfer Platform.checksums default
  exact ⟨hbalance, @length_handleReorg_two Platform.checksums _ _
    (@ReachableBy.reachable Platform.checksums _ _ _ hreach) hlength default,
    @reorg_remine Platform.checksums _ _ hreach hpending 2 "" default default⟩

end BhtBhte.Node
