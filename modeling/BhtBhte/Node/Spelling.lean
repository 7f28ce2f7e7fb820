import BhtBhte.Node.Chain

/-!
# Spellings of one address

The account maps are keyed by text.  Copies of them are written under normalised keys, so two
spellings of one address fall together in a copy, and the order of the range decides which
value stays.  A map without such a clash agrees with each of its copies.
-/
namespace BhtBhte.Node
open BhtBhte.Lib
variable [Platform]

namespace World

/-- No two spellings of one address hold different values. -/
structure WellSpelled (w : World) : Prop where
  balances : w.balances.NoClash normalizeAddress
  nonces : w.nonces.NoClash normalizeAddress
  code : w.code.Consistent normalizeAddress
  storage : w.storage.NoClash normalizeAddress
  slots : ∀ a s, w.storage.get? a = some s → ∀ k ∈ s.keys, normalizeStorageKey k = k

/-- Every key is in its normal form. -/
structure Normal (w : World) : Prop where
  balances : ∀ a ∈ w.balances.keys, normalizeAddress a = a
  nonces : ∀ a ∈ w.nonces.keys, normalizeAddress a = a
  code : ∀ a ∈ w.code.keys, normalizeAddress a = a
  storage : ∀ a ∈ w.storage.keys, normalizeAddress a = a
  slots : ∀ a s, w.storage.get? a = some s → ∀ k ∈ s.keys, normalizeStorageKey k = k

/-- The same accounts, up to the spelling of their addresses. -/
structure Agree (w w' : World) : Prop where
  balances : w.balances.Agree normalizeAddress w'.balances
  nonces : w.nonces.Agree normalizeAddress w'.nonces
  code : w.code.Agree normalizeAddress w'.code
  storage : w.storage.Agree normalizeAddress w'.storage

theorem Agree.refl (w : World) : w.Agree w := ⟨.refl _ _, .refl _ _, .refl _ _, .refl _ _⟩

theorem Agree.symm {w w' : World} (h : w.Agree w') : w'.Agree w :=
  ⟨h.balances.symm, h.nonces.symm, h.code.symm, h.storage.symm⟩

theorem Agree.trans {w₁ w₂ w₃ : World} (h : w₁.Agree w₂) (h' : w₂.Agree w₃) : w₁.Agree w₃ :=
  ⟨h.balances.trans h'.balances, h.nonces.trans h'.nonces, h.code.trans h'.code,
    h.storage.trans h'.storage⟩

theorem Normal.wellSpelled {w : World} (h : w.Normal) : w.WellSpelled :=
  ⟨FinMap.noClash_of_fixed h.balances, FinMap.noClash_of_fixed h.nonces,
    (FinMap.noClash_of_fixed h.code).consistent, FinMap.noClash_of_fixed h.storage, h.slots⟩

/-! ## Copies -/

/-- With normal slot keys, the nested copy rewrites the addresses only. -/
theorem copyNestedStringMap_eq {m : FinMap String (FinMap String String)}
    (h : ∀ a s, m.get? a = some s → ∀ k ∈ s.keys, normalizeStorageKey k = k) (ω : Choices) :
    copyNestedStringMap ω m = FinMap.rekey normalizeAddress (m.range ω.order) := by
  rw [copyNestedStringMap]
  congr 1
  apply List.ext_getElem (by simp)
  intro i h₁ h₂
  have hmem : ((m.range ω.order)[i].1, (m.range ω.order)[i].2) ∈ m.entries :=
    FinMap.mem_range.mp (List.getElem_mem h₂)
  rw [List.getElem_mapIdx, copySlots, FinMap.rekey_eq_self (FinMap.range_perm _ _)
    (h _ _ (FinMap.get?_eq_some.mpr hmem))]

theorem WellSpelled.copy_normal {w : World} (h : w.WellSpelled) (ω : Choices) :
    (w.copy ω).Normal := by
  have hstorage : (w.copy ω).storage = FinMap.rekey normalizeAddress
      (w.storage.range (ω.call 3).order) := copyNestedStringMap_eq h.slots _
  refine ⟨fun a => ?_, fun a => ?_, fun a => ?_, fun a => ?_, fun a s hs => ?_⟩
  · exact FinMap.fixed_of_mem_keys_rekey normalizeAddress_normalizeAddress
  · exact FinMap.fixed_of_mem_keys_rekey normalizeAddress_normalizeAddress
  · exact FinMap.fixed_of_mem_keys_rekey normalizeAddress_normalizeAddress
  · rw [hstorage]
    exact FinMap.fixed_of_mem_keys_rekey normalizeAddress_normalizeAddress
  · rw [hstorage, FinMap.get?_rekey_eq_some (FinMap.range_perm _ _) h.storage.consistent] at hs
    obtain ⟨k, -, hk⟩ := hs
    exact h.slots k s hk

/-- Well-spelled accounts agree with their copy. -/
theorem WellSpelled.agree_copy {w : World} (h : w.WellSpelled) (ω : Choices) :
    w.Agree (w.copy ω) := by
  refine ⟨?_, ?_, ?_, ?_⟩
  · exact h.balances.consistent.agree_rekey normalizeAddress_normalizeAddress
      (FinMap.range_perm _ _)
  · exact h.nonces.consistent.agree_rekey normalizeAddress_normalizeAddress
      (FinMap.range_perm _ _)
  · exact h.code.agree_rekey normalizeAddress_normalizeAddress (FinMap.range_perm _ _)
  · show w.storage.Agree _ (copyNestedStringMap _ _)
    rw [copyNestedStringMap_eq h.slots]
    exact h.storage.consistent.agree_rekey normalizeAddress_normalizeAddress
      (FinMap.range_perm _ _)

/-- Normal accounts that agree are equal. -/
theorem Agree.eq_of_normal {w w' : World} (h : w.Agree w') (hw : w.Normal) (hw' : w'.Normal) :
    w = w' := by
  have hbalances := h.balances.eq_of_fixed hw.balances hw'.balances
  have hnonces := h.nonces.eq_of_fixed hw.nonces hw'.nonces
  have hcode := h.code.eq_of_fixed hw.code hw'.code
  have hstorage := h.storage.eq_of_fixed hw.storage hw'.storage
  cases w
  cases w'
  simp_all

/-- A copy of normal accounts is equal to them. -/
theorem Normal.copy_eq {w : World} (h : w.Normal) (ω : Choices) : w.copy ω = w :=
  ((h.wellSpelled.agree_copy ω).eq_of_normal h (h.wellSpelled.copy_normal ω)).symm

/-- **Order of the range.** Well-spelled accounts that agree have the same copy, whatever the
orders in which the maps are ranged over. -/
theorem copy_eq_of_agree {w w' : World} (h : w.WellSpelled) (h' : w'.WellSpelled)
    (hagree : w.Agree w') (ω ω' : Choices) : w.copy ω = w'.copy ω' :=
  (((h.agree_copy ω).symm.trans hagree).trans (h'.agree_copy ω')).eq_of_normal
    (h.copy_normal ω) (h'.copy_normal ω')

/-! ## Transactions -/

/-- No other spelling of the address is a key of the map. -/
def OnlySpelling {V : Type} (m : FinMap String V) (a : String) : Prop :=
  ∀ k ∈ m.keys, normalizeAddress k = normalizeAddress a → k = a

/-- Both ends of a transfer are spelled as the balances and each other spell them. -/
structure BalancesAlike (w : World) (tx : TxRecord) : Prop where
  sender : OnlySpelling w.balances tx.sender
  recipient : OnlySpelling w.balances tx.recipient
  ends : normalizeAddress tx.sender = normalizeAddress tx.recipient → tx.sender = tx.recipient

/-- A transaction that brings no second spelling of an address in; a creation may do so when
the code under the other spelling is its own. -/
structure SpelledAlike (w : World) (tx : TxRecord) : Prop where
  balances : tx.sender ≠ "" → tx.recipient ≠ "" → w.BalancesAlike tx
  nonces : tx.sender ≠ "" → tx.recipient ≠ "" → OnlySpelling w.nonces tx.sender
  storage : tx.recipient ≠ "" → OnlySpelling w.storage tx.recipient
  code : tx.recipient = "" → ∀ k v, w.code.get? k = some v →
    normalizeAddress k = normalizeAddress (contractAddress tx.sender tx.nonce) →
    k = contractAddress tx.sender tx.nonce ∨ v = tx.input

/-- After a transfer between ends that are spelled alike no two spellings clash. -/
theorem noClash_balances_transfer {w : World} {tx : TxRecord}
    (h : w.balances.NoClash normalizeAddress)
    (halike : tx.sender ≠ "" → tx.recipient ≠ "" → w.BalancesAlike tx) :
    (w.transfer tx).balances.NoClash normalizeAddress := by
  rw [transfer]
  split
  · next hne =>
      have hends := halike hne.1 hne.2
      show ((w.debit tx.sender (parseQuantity tx.value)).balances.insert tx.recipient _).NoClash _
      rw [debit]
      split
      · refine (h.insert hends.sender _).insert (fun k hk heq => ?_) _
        rcases FinMap.mem_keys_insert.mp hk with rfl | hk
        · exact hends.ends heq
        · exact hends.recipient k hk heq
      · exact h.insert hends.recipient _
  · exact h

omit [Platform] in
/-- A debit changes balances only. -/
theorem debit_frame (w : World) (addr : String) (v : ℤ) :
    (w.debit addr v).nonces = w.nonces ∧ (w.debit addr v).code = w.code ∧
      (w.debit addr v).storage = w.storage := by
  rw [debit]
  split <;> exact ⟨rfl, rfl, rfl⟩

omit [Platform] in
theorem transfer_frame (w : World) (tx : TxRecord) :
    (w.transfer tx).code = w.code ∧ (w.transfer tx).storage = w.storage := by
  rw [transfer]
  split
  · exact (w.debit_frame tx.sender _).2
  · exact ⟨rfl, rfl⟩

/-- After the transfer no balance and no nonce changes. -/
theorem execute_frame (w : World) (bridgeAddress : String) (tx : TxRecord) :
    (w.execute bridgeAddress tx).balances = w.balances ∧
      (w.execute bridgeAddress tx).nonces = w.nonces := by
  rw [execute]
  split
  · exact ⟨rfl, rfl⟩
  · split
    · exact ⟨rfl, rfl⟩
    · split
      · rw [executeSimpleStorageCall]
        split <;> exact ⟨rfl, rfl⟩
      · exact ⟨rfl, rfl⟩

/-- Execution writes code at most at the created address. -/
theorem code_apply (w : World) (bridgeAddress : String) (tx : TxRecord) :
    (w.apply bridgeAddress tx).code =
      if tx.recipient = "" then w.code.insert (contractAddress tx.sender tx.nonce) tx.input
      else w.code := by
  have htransfer := (w.transfer_frame tx).1
  rw [apply, execute]
  split
  · rw [htransfer]
  · split
    · exact htransfer
    · split
      · rw [executeSimpleStorageCall]
        split <;> exact htransfer
      · exact htransfer

/-- Execution writes storage at most at the recipient of a store call, in the slot zero. -/
theorem storage_apply (w : World) (bridgeAddress : String) (tx : TxRecord) :
    (w.apply bridgeAddress tx).storage = w.storage ∨
    ((tx.recipient ≠ "" ∧ tx.recipient ≠ bridgeAddress ∧ abiSelector tx.input = "0x6057361d") ∧
      (w.apply bridgeAddress tx).storage = w.storage.insert tx.recipient
        (((w.storage.get? tx.recipient).getD ∅).insert zeroHash tx.value)) := by
  have htransfer := (w.transfer_frame tx).2
  rw [apply, execute]
  split
  · exact .inl htransfer
  · next hne =>
      split
      · exact .inl htransfer
      · next hbridge =>
          split
          · rw [executeSimpleStorageCall]
            split
            · exact .inl htransfer
            · next hselector =>
                exact .inr ⟨⟨hne, hbridge, not_not.mp hselector⟩, by rw [htransfer]⟩
          · exact .inl htransfer

omit [Platform] in
/-- A write under a fixed key keeps every key fixed. -/
theorem fixed_insert {V : Type} {f : String → String} {m : FinMap String V} {a : String} (v : V)
    (hm : ∀ k ∈ m.keys, f k = k) (ha : f a = a) : ∀ k ∈ (m.insert a v).keys, f k = k := by
  intro k hk
  rcases FinMap.mem_keys_insert.mp hk with rfl | hk
  · exact ha
  · exact hm k hk

/-- A transfer between normal ends keeps the keys of the balances normal. -/
theorem fixed_balances_apply {w : World} {tx : TxRecord}
    (h : ∀ a ∈ w.balances.keys, normalizeAddress a = a)
    (htx : tx.sender ≠ "" → tx.recipient ≠ "" → tx.Normal) (bridgeAddress : String) :
    ∀ a ∈ (w.apply bridgeAddress tx).balances.keys, normalizeAddress a = a := by
  rw [World.apply, (execute_frame _ _ _).1, transfer]
  split
  · next hne =>
      refine fixed_insert _ ?_ (htx hne.1 hne.2).recipient
      rw [debit]
      split
      · exact fixed_insert _ h (htx hne.1 hne.2).sender
      · exact h
  · exact h

theorem fixed_nonces_apply {w : World} {tx : TxRecord}
    (h : ∀ a ∈ w.nonces.keys, normalizeAddress a = a)
    (htx : tx.sender ≠ "" → tx.recipient ≠ "" → tx.Normal) (bridgeAddress : String) :
    ∀ a ∈ (w.apply bridgeAddress tx).nonces.keys, normalizeAddress a = a := by
  rw [World.apply, (execute_frame _ _ _).2, transfer]
  split
  · next hne =>
      refine fixed_insert _ ?_ (htx hne.1 hne.2).sender
      show ∀ k ∈ (w.debit tx.sender (parseQuantity tx.value)).nonces.keys, _
      rw [(w.debit_frame tx.sender _).1]
      exact h
  · exact h

/-- Execution writes no slot under a key that is not normal. -/
theorem slots_apply {w : World}
    (h : ∀ a s, w.storage.get? a = some s → ∀ k ∈ s.keys, normalizeStorageKey k = k)
    (bridgeAddress : String) (tx : TxRecord) :
    ∀ a s, (w.apply bridgeAddress tx).storage.get? a = some s →
      ∀ k ∈ s.keys, normalizeStorageKey k = k := by
  intro a s hs k hk
  rcases w.storage_apply bridgeAddress tx with heq | ⟨-, heq⟩
  · exact h a s (heq ▸ hs) k hk
  · rw [heq, FinMap.get?_insert] at hs
    split at hs
    · cases hs
      rcases FinMap.mem_keys_insert.mp hk with rfl | hk
      · exact normalizeStorageKey_zeroHash
      · cases hslots : w.storage.get? tx.recipient with
        | none =>
            rw [hslots] at hk
            cases hk
        | some slots =>
            rw [hslots] at hk
            exact h _ slots hslots k hk
    · exact h a s hs k hk

/-- **One transaction.** Well-spelled accounts stay so when the transaction is spelled
alike. -/
theorem WellSpelled.apply {w : World} (h : w.WellSpelled) {bridgeAddress : String} {tx : TxRecord}
    (htx : w.SpelledAlike tx) : (w.apply bridgeAddress tx).WellSpelled := by
  refine ⟨?_, ?_, ?_, ?_, ?_⟩
  · rw [World.apply, (execute_frame _ _ _).1]
    exact noClash_balances_transfer h.balances htx.balances
  · rw [World.apply, (execute_frame _ _ _).2, transfer]
    split
    · next hne =>
        have hdebit := (w.debit_frame tx.sender (parseQuantity tx.value)).1
        show FinMap.NoClash _ (FinMap.insert (w.debit tx.sender (parseQuantity tx.value)).nonces _ _)
        rw [hdebit]
        exact h.nonces.insert (htx.nonces hne.1 hne.2) _
    · exact h.nonces
  · rw [code_apply]
    split
    · next hcreate => exact h.code.insert (htx.code hcreate)
    · exact h.code
  · rcases w.storage_apply bridgeAddress tx with heq | ⟨⟨hne, -⟩, heq⟩
    · rw [heq]; exact h.storage
    · rw [heq]; exact h.storage.insert (htx.storage hne) _
  · exact slots_apply h.slots bridgeAddress tx

end World

/-- Every transaction of the list is spelled alike at the moment it is executed. -/
def AllSpelledAlike (bridgeAddress : String) : World → List TxRecord → Prop
  | _, [] => True
  | w, tx :: txs => w.SpelledAlike tx ∧ AllSpelledAlike bridgeAddress (w.apply bridgeAddress tx) txs

theorem World.WellSpelled.foldl {bridgeAddress : String} {w : World} {txs : List TxRecord}
    (h : w.WellSpelled) (htxs : AllSpelledAlike bridgeAddress w txs) :
    (txs.foldl (World.apply · bridgeAddress ·) w).WellSpelled := by
  induction txs generalizing w with
  | nil => exact h
  | cons tx txs ih => exact ih (h.apply htxs.1) htxs.2

/-! ## Listed accounts -/

/-- Every listed account has a balance. -/
def World.Funds (w : World) (accounts : List String) : Prop :=
  ∀ a ∈ accounts, normalizeAddress a ∈ w.balances.keys

theorem World.Funds.copy {w : World} {accounts : List String} (h : w.Funds accounts)
    (ω : Choices) : (w.copy ω).Funds accounts := by
  intro a ha
  have hmem := FinMap.mem_keys_rekey normalizeAddress
    (w.balances.range_perm (ω.call 0).order) (h a ha)
  rwa [normalizeAddress_normalizeAddress] at hmem

/-- Transactions remove no balance. -/
theorem World.Funds.foldl {w : World} {accounts : List String} (h : w.Funds accounts)
    (bridgeAddress : String) (txs : List TxRecord) :
    (txs.foldl (World.apply · bridgeAddress ·) w).Funds accounts := by
  have hstep : ∀ (w : World) (tx : TxRecord) k, k ∈ w.balances.keys →
      k ∈ (w.apply bridgeAddress tx).balances.keys := by
    intro w tx k hk
    rw [World.apply, (World.execute_frame _ _ _).1, World.transfer]
    split
    · refine FinMap.mem_keys_insert.mpr (.inr ?_)
      rw [World.debit]
      split
      · exact FinMap.mem_keys_insert.mpr (.inr hk)
      · exact hk
    · exact hk
  induction txs generalizing w with
  | nil => exact h
  | cons tx txs ih => exact ih fun a ha => hstep w tx _ (h a ha)

/-- Funded accounts are not given the initial balance again. -/
theorem World.Funds.foldl_ensureBalance {w : World} {accounts : List String}
    (h : w.Funds accounts) (hne : accounts ≠ []) :
    (RpcNode.ensureAccounts accounts).foldl RpcNode.ensureBalance w.balances = w.balances := by
  have hfold : ∀ l : List String, (∀ a ∈ l, a ∈ w.balances.keys) →
      l.foldl RpcNode.ensureBalance w.balances = w.balances := by
    intro l hl
    induction l with
    | nil => rfl
    | cons a l ih =>
        obtain ⟨v, hv⟩ := FinMap.mem_keys.mp (hl a List.mem_cons_self)
        rw [List.foldl_cons, RpcNode.ensureBalance, if_pos (by rw [hv]; rfl)]
        exact ih fun b hb => hl b (List.mem_cons_of_mem _ hb)
  refine hfold _ fun a ha => ?_
  rw [RpcNode.ensureAccounts, if_neg hne] at ha
  obtain ⟨b, hb, rfl⟩ := List.mem_map.mp ha
  exact h b hb

/-- Every listed account has a balance, now and in every snapshot. -/
structure FundedOk (n : RpcNode) : Prop where
  world : n.world.Funds n.accounts
  snapshots : ∀ k s, n.stateSnapshots.get? k = some s → s.world.Funds n.accounts

theorem FundedOk.restarted_world {n : RpcNode} (h : FundedOk n) (hchain : ChainOk n)
    (index : FinMap String BlockIndexRecord) (disk : List Files) :
    (n.restarted index disk).world = n.world := by
  rw [RpcNode.restarted, h.world.foldl_ensureBalance hchain.accounts]

theorem FundedOk.move {n n' : RpcNode} (h : FundedOk n) (hchain : ChainOk n) {cfg : Config}
    {txs : List TxRecord} (hmove : Move cfg txs n n') : FundedOk n' := by
  cases hmove with
  | kept hkept =>
      refine ⟨?_, ?_⟩
      · rw [hkept.world, hkept.accounts]; exact h.world
      · rw [hkept.stateSnapshots, hkept.accounts]; exact h.snapshots
  | recopied ω₁ ω₂ disk => exact ⟨(h.world.copy ω₁).copy ω₂, h.snapshots⟩
  | appended happ =>
      have hworld : n'.world.Funds n'.accounts := by
        rw [happ.world, happ.accounts]
        exact h.world.foldl _ _
      refine ⟨hworld, fun k s hs => ?_⟩
      obtain ⟨s', ω, hsnapshots, hcopy⟩ := happ.stateSnapshots
      rw [hsnapshots, FinMap.get?_insert] at hs
      split at hs
      · cases hs
        rw [hcopy]
        exact hworld.copy ω
      · rw [happ.accounts]
        exact h.snapshots k s hs
  | rolledBack hone hle hs =>
      refine ⟨(h.snapshots _ _ hs).copy _, fun k s' hs' => ?_⟩
      exact h.snapshots k s' (RpcNode.snapshot_rollback_iff.mp hs').1
  | restarted index disk =>
      have haccounts : ∀ w : World, w.Funds n.accounts → w.Funds (n.restarted index disk).accounts := by
        intro w hw a ha
        have ha : a ∈ RpcNode.ensureAccounts n.accounts := ha
        rw [RpcNode.ensureAccounts, if_neg hchain.accounts] at ha
        obtain ⟨b, hb, rfl⟩ := List.mem_map.mp ha
        rw [normalizeAddress_normalizeAddress]
        exact hw b hb
      refine ⟨?_, fun k s hs => haccounts _ (h.snapshots k s hs)⟩
      rw [h.restarted_world hchain]
      exact haccounts _ h.world

/-! ## What copies and execution keep -/

/-- `P` holds of the live accounts with the whole chain, and of every snapshot with the blocks
up to it. -/
structure Along (P : List BlockRecord → World → Prop) (n : RpcNode) : Prop where
  world : P n.blocks n.world
  snapshots : ∀ k s, n.stateSnapshots.get? k = some s → P (n.blocks.take k) s.world

/-- A property that copies keep and that a mined block keeps holds along the chain after the
call. -/
theorem Along.move {P : List BlockRecord → World → Prop} {n n' : RpcNode} (h : Along P n)
    (hchain : ChainOk n) (hfunded : FundedOk n)
    (hcopy : ∀ blocks w ω, P blocks w → P blocks (w.copy ω)) {cfg : Config} {txs : List TxRecord}
    (hmined : ∀ block hash,
      block.transactions =
        txs.mapIdx (fun i tx => RpcNode.minedTx tx hash (n.height + 1) (0 + i)) →
      P (n.blocks ++ [block]) (txs.foldl (World.apply · cfg.bridgeAddress ·) n.world))
    (hmove : Move cfg txs n n') : Along P n' := by
  cases hmove with
  | kept hkept =>
      refine ⟨?_, ?_⟩
      · rw [hkept.blocks, hkept.world]; exact h.world
      · rw [hkept.stateSnapshots, hkept.blocks]; exact h.snapshots
  | recopied ω₁ ω₂ disk => exact ⟨hcopy _ _ ω₂ (hcopy _ _ ω₁ h.world), h.snapshots⟩
  | appended happ =>
      obtain ⟨block, hash, hblocks, htxs⟩ := happ.blocks
      obtain ⟨s', ω, hsnapshots, hworld'⟩ := happ.stateSnapshots
      have hworld : P n'.blocks n'.world := by
        rw [hblocks, happ.world]
        exact hmined block hash htxs
      refine ⟨hworld, fun k s hs => ?_⟩
      rw [hsnapshots, FinMap.get?_insert] at hs
      split at hs
      · next hk =>
          cases hs
          have hlength : n'.blocks.length ≤ k := by
            rw [hblocks, List.length_append, hchain.length, List.length_singleton, hk]
          rw [List.take_of_length_le hlength, hworld']
          exact hcopy _ _ ω hworld
      · -- an old snapshot, whose part of the chain is unchanged
        have hle : k ≤ n.height := hchain.le_of_snapshot hs
        rw [hblocks, List.take_append_of_le_length (by rw [hchain.length]; exact hle)]
        exact h.snapshots k s hs
  | @rolledBack ω height s hone hle hs =>
      have hblocks : (n.rollback ω height s).save.blocks = n.blocks.take (height - 1) :=
        hchain.blocks_rollback ω height s
      refine ⟨?_, fun k s' hs' => ?_⟩
      · rw [hblocks]
        exact hcopy _ _ _ (h.snapshots _ s hs)
      · obtain ⟨hkept, hlt⟩ := RpcNode.snapshot_rollback_iff.mp hs'
        rw [hblocks, List.take_take, Nat.min_eq_left (by omega)]
        exact h.snapshots k s' hkept
  | restarted index disk =>
      refine ⟨?_, h.snapshots⟩
      rw [hfunded.restarted_world hchain index disk]
      exact h.world

theorem along_fresh {P : List BlockRecord → World → Prop}
    (hcopy : ∀ blocks w ω, P blocks w → P blocks (w.copy ω)) {cfg : Config}
    (h : ∀ block : BlockRecord, block.transactions = [] → P [block] (freshWorld cfg))
    (ω : Choices) : Along P (newRPCNode cfg ω {}) := by
  obtain ⟨ω₁, l, timestamp, heq, -⟩ := newRPCNode_fresh cfg ω
  rw [heq]
  refine ⟨h _ rfl, fun k s hs => ?_⟩
  rw [FinMap.get?_insert] at hs
  split at hs
  · next hk =>
      cases hs
      rw [hk]
      exact hcopy _ _ ω₁ (h _ rfl)
  · cases hs

/-- The live accounts and those of every snapshot satisfy `P`. -/
structure Everywhere (P : World → Prop) (n : RpcNode) : Prop where
  world : P n.world
  snapshots : ∀ k s, n.stateSnapshots.get? k = some s → P s.world

/-- A property that copies keep and that the executed transactions keep holds everywhere after
the call. -/
theorem Everywhere.move {P : World → Prop} {n n' : RpcNode} (h : Everywhere P n)
    (hchain : ChainOk n) (hfunded : FundedOk n) (hcopy : ∀ w ω, P w → P (w.copy ω)) {cfg : Config}
    {txs : List TxRecord} (htxs : P (txs.foldl (World.apply · cfg.bridgeAddress ·) n.world))
    (hmove : Move cfg txs n n') : Everywhere P n' := by
  have halong : Along (fun _ => P) n' :=
    Along.move ⟨h.world, h.snapshots⟩ hchain hfunded (fun _ => hcopy) (fun _ _ _ => htxs) hmove
  exact ⟨halong.world, halong.snapshots⟩

theorem everywhere_fresh {P : World → Prop} (hcopy : ∀ w ω, P w → P (w.copy ω)) {cfg : Config}
    (h : P (freshWorld cfg)) (ω : Choices) : Everywhere P (newRPCNode cfg ω {}) := by
  have halong : Along (fun _ => P) (newRPCNode cfg ω {}) :=
    along_fresh (fun _ => hcopy) (fun _ _ => h) ω
  exact ⟨halong.world, halong.snapshots⟩

/-! ## The head and its snapshot -/

/-- The live accounts are well spelled and agree with the snapshot of the head; snapshots
are in normal form. -/
structure SpellOk (n : RpcNode) : Prop where
  world : n.world.WellSpelled
  head : ∀ s, n.stateSnapshots.get? n.height = some s → n.world.Agree s.world
  snapshots : ∀ k s, n.stateSnapshots.get? k = some s → s.world.Normal

theorem SpellOk.move {n n' : RpcNode} (h : SpellOk n) (hchain : ChainOk n) (hfunded : FundedOk n)
    {cfg : Config} {txs : List TxRecord} (htxs : AllSpelledAlike cfg.bridgeAddress n.world txs)
    (hmove : Move cfg txs n n') : SpellOk n' := by
  cases hmove with
  | kept hkept =>
      refine ⟨?_, ?_, ?_⟩
      · rw [hkept.world]; exact h.world
      · rw [hkept.world, hkept.stateSnapshots, hkept.height]; exact h.head
      · rw [hkept.stateSnapshots]; exact h.snapshots
  | recopied ω₁ ω₂ disk =>
      have hfirst := (h.world.copy_normal ω₁).wellSpelled
      refine ⟨(hfirst.copy_normal ω₂).wellSpelled, fun s hs => ?_, h.snapshots⟩
      have hcopy := (h.world.agree_copy ω₁).trans (hfirst.agree_copy ω₂)
      exact hcopy.symm.trans (h.head s hs)
  | appended happ =>
      have hworld : n'.world.WellSpelled := by
        rw [happ.world]
        exact h.world.foldl htxs
      obtain ⟨s', ω, hsnapshots, hcopy⟩ := happ.stateSnapshots
      refine ⟨hworld, fun s hs => ?_, fun k s hs => ?_⟩
      · rw [hsnapshots, happ.height, FinMap.get?_insert_self] at hs
        cases hs
        rw [hcopy]
        exact hworld.agree_copy ω
      · rw [hsnapshots, FinMap.get?_insert] at hs
        split at hs
        · cases hs
          rw [hcopy]
          exact hworld.copy_normal ω
        · exact h.snapshots k s hs
  | @rolledBack ω height s hone hle hs =>
      have hnormal := h.snapshots _ _ hs
      have hheight := hchain.snapshot_height hone hle hs
      have hkept : ∀ k s', (n.rollback ω height s).stateSnapshots.get? k = some s' →
          n.stateSnapshots.get? k = some s' :=
        fun k s' hs' => (RpcNode.snapshot_rollback_iff.mp hs').1
      have hworld : (n.rollback ω height s).save.world = s.world := hnormal.copy_eq ω
      refine ⟨?_, fun s' hs' => ?_, fun k s' hs' => h.snapshots k s' (hkept k s' hs')⟩
      · rw [hworld]
        exact hnormal.wellSpelled
      · have hs'' : n.stateSnapshots.get? s.height = some s' := hkept _ s' hs'
        rw [hheight, hs] at hs''
        cases hs''
        rw [hworld]
        exact .refl _
  | restarted index disk =>
      have hworld := hfunded.restarted_world hchain index disk
      refine ⟨?_, fun s hs => ?_, h.snapshots⟩
      · rw [hworld]; exact h.world
      · rw [hworld]; exact h.head s hs

/-! ## Fresh nodes -/

theorem normalizeAddress_defaultAccount : normalizeAddress defaultAccount = defaultAccount := by
  rw [normalizeAddress, toLower_of_ascii (by decide)]
  decide

omit [Platform] in
theorem isHexAddress_defaultAccount : isHexAddress defaultAccount = true := by decide +kernel

omit [Platform] in
theorem parseQuantity_nil : parseQuantity "<nil>" = 0 := by decide +kernel

/-- A fresh node has a balance for each account and for the default one. -/
theorem mem_keys_freshWorld {cfg : Config} {k : String} :
    k ∈ (freshWorld cfg).balances.keys ↔
      k ∈ RpcNode.ensureAccounts cfg.accounts ∨ k = defaultAccount := by
  have hkeys : ∀ (m : FinMap String String) (b k : String),
      k ∈ (RpcNode.ensureBalance m b).keys ↔ k = b ∨ k ∈ m.keys := by
    intro m b k
    rw [RpcNode.ensureBalance]
    split
    · next hsome =>
        refine ⟨.inr, ?_⟩
        rintro (rfl | hk)
        · exact FinMap.mem_keys.mpr (Option.isSome_iff_exists.mp hsome)
        · exact hk
    · exact FinMap.mem_keys_insert
  have hfold : ∀ (l : List String) (m : FinMap String String) k,
      k ∈ (l.foldl RpcNode.ensureBalance m).keys ↔ k ∈ l ∨ k ∈ m.keys := by
    intro l
    induction l with
    | nil => simp
    | cons b l ih =>
        intro m k
        rw [List.foldl_cons, ih, hkeys, List.mem_cons]
        tauto
  have hempty : k ∉ (∅ : FinMap String String).keys := List.not_mem_nil
  rw [freshWorld, hfold, FinMap.mem_keys_insert]
  simp only [hempty, or_false]

/-- The balances of a fresh node are kept under normal addresses, one for each account. -/
theorem freshWorld_balances (cfg : Config) :
    (∀ a ∈ (freshWorld cfg).balances.keys, normalizeAddress a = a) ∧
      (freshWorld cfg).Funds (RpcNode.ensureAccounts cfg.accounts) := by
  have hnormal : ∀ a ∈ RpcNode.ensureAccounts cfg.accounts, normalizeAddress a = a := by
    intro a ha
    obtain ⟨b, -, rfl⟩ := List.mem_map.mp ha
    exact normalizeAddress_normalizeAddress b
  constructor
  · intro a ha
    rcases mem_keys_freshWorld.mp ha with ha | rfl
    · exact hnormal a ha
    · exact normalizeAddress_defaultAccount
  · intro a ha
    rw [hnormal a ha]
    exact mem_keys_freshWorld.mpr (.inl ha)

/-- With the default account alone, there is one balance. -/
theorem freshWorld_eq {cfg : Config} (h : cfg.accounts = [defaultAccount]) :
    freshWorld cfg =
      { balances := (∅ : FinMap String String).insert defaultAccount initialBalance } := by
  have haccounts : RpcNode.ensureAccounts cfg.accounts = [defaultAccount] := by
    rw [h]
    show [normalizeAddress defaultAccount] = _
    rw [normalizeAddress_defaultAccount]
  rw [freshWorld, haccounts, List.foldl_cons, List.foldl_nil, RpcNode.ensureBalance, if_pos]
  rw [FinMap.get?_insert_self]
  rfl

theorem freshWorld_default : freshWorld {} =
    { balances := (∅ : FinMap String String).insert defaultAccount initialBalance } :=
  freshWorld_eq rfl

/-- A fresh node that mines what it is sent, after the first accepted transaction. -/
theorem sendTransaction_fresh {ok : RpcNode → Choices → Event → Prop} {n : RpcNode} {ω : Choices}
    {tx : Object} (hn : n = newRPCNode {} ω {}) (hvalid : n.validateTransaction {} tx = .ok ())
    (hok : ok n ω (.sendTransaction tx)) :
    ReachableBy {} ok (n.next {} ω (.sendTransaction tx)) ∧
    n.executed {} ω (.sendTransaction tx) = [n.txOfObject (ω.call 0) tx ""] ∧
    (n.next {} ω (.sendTransaction tx)).world =
      (freshWorld {}).apply ({} : Config).bridgeAddress (n.txOfObject (ω.call 0) tx "") := by
  have hchain : ChainOk n := hn ▸ chainOk_fresh {} ω
  have hreach : ReachableBy {} ok n := hn ▸ ⟨ω, .refl⟩
  obtain ⟨ω₁, l, timestamp, hfresh, -⟩ := newRPCNode_fresh {} ω
  rw [hfresh] at hn
  have hempty : n.pendingTxs = [] := by rw [hn]
  have hworld : n.world = freshWorld {} := by rw [hn]
  have hheight : n.height = 1 := by rw [hn]
  have hlt : n.height + 1 < 2 ^ 63 := by
    rw [hheight]
    decide
  have hsend : n.next {} ω (.sendTransaction tx) =
      (RpcNode.minePendingBlock
        { n with pendingTxs := n.pendingTxs ++ [n.txOfObject (ω.call 0) tx ""] } {} (ω.call 1)).2 := by
    rw [RpcNode.next, RpcNode.sendTransaction, hvalid]
    rfl
  have hqueued : ChainOk
      { n with pendingTxs := n.pendingTxs ++ [n.txOfObject (ω.call 0) tx ""] } :=
    hchain.of_eq rfl rfl rfl rfl rfl
  refine ⟨hreach.next hok ?_, ?_, ?_⟩
  · rw [hsend]
    exact (mined_of_height_lt hqueued hlt {} (ω.call 1)).1
  · rw [RpcNode.executed, if_pos ⟨rfl, hvalid⟩, hempty]
    rfl
  · rw [hsend, RpcNode.minePendingBlock_world]
    show (n.pendingTxs ++ _).foldl _ n.world = _
    rw [hempty, hworld]
    rfl

theorem freshWorld_normal (cfg : Config) : (freshWorld cfg).Normal := by
  refine ⟨(freshWorld_balances cfg).1, fun a ha => ?_, fun a ha => ?_, fun a ha => ?_,
    fun a s hs => ?_⟩
  · cases ha
  · cases ha
  · cases ha
  · cases hs

/-- The genesis root is that of the default world. -/
theorem stateRoot_freshGenesis (ω : Choices) :
    (freshGenesis ω).stateRoot = stateTrieRoot (freshWorld {}) := by
  have hcopy := (freshWorld_normal {}).copy_eq ((((ω.call 0).call 0).call 1).call 0)
  rw [freshWorld_default] at hcopy ⊢
  exact congrArg stateTrieRoot hcopy

theorem fundedOk_fresh (cfg : Config) (ω : Choices) : FundedOk (newRPCNode cfg ω {}) := by
  obtain ⟨ω₁, l, timestamp, heq, -⟩ := newRPCNode_fresh cfg ω
  have hfunds := (freshWorld_balances cfg).2
  rw [heq]
  refine ⟨hfunds, fun k s hs => ?_⟩
  rw [FinMap.get?_insert] at hs
  split at hs
  · cases hs
    exact hfunds.copy ω₁
  · cases hs

theorem spellOk_fresh (cfg : Config) (ω : Choices) : SpellOk (newRPCNode cfg ω {}) := by
  obtain ⟨ω₁, l, timestamp, heq, -⟩ := newRPCNode_fresh cfg ω
  have hnormal := freshWorld_normal cfg
  rw [heq]
  refine ⟨hnormal.wellSpelled, fun s hs => ?_, fun k s hs => ?_⟩
  · rw [FinMap.get?_insert_self] at hs
    cases hs
    rw [hnormal.copy_eq]
    exact .refl _
  · rw [FinMap.get?_insert] at hs
    split at hs
    · cases hs
      rw [hnormal.copy_eq]
      exact hnormal
    · cases hs

/-- A call that executes only transactions that are spelled alike. -/
def AlikeStep (cfg : Config) (n : RpcNode) (ω : Choices) (e : Event) : Prop :=
  AllSpelledAlike cfg.bridgeAddress n.world (n.executed cfg ω e)

/-- In runs of such calls the accounts agree with the snapshot of the head. -/
theorem ReachableBy.spellOk {cfg : Config} {ok : RpcNode → Choices → Event → Prop}
    (hok : ∀ n ω e, ok n ω e → AlikeStep cfg n ω e) {n : RpcNode} (h : ReachableBy cfg ok n) :
    ChainOk n ∧ FundedOk n ∧ SpellOk n := by
  refine h.induct (P := fun n => ChainOk n ∧ FundedOk n ∧ SpellOk n)
    (fun ω => ⟨chainOk_fresh cfg ω, fundedOk_fresh cfg ω, spellOk_fresh cfg ω⟩) ?_
  intro n ω e ⟨hchain, hfunded, hspell⟩ hstep hlen
  have hmove := RpcNode.next_move hchain hlen
  exact ⟨hchain.next hlen, hfunded.move hchain hmove,
    hspell.move hchain hfunded (hok n ω e hstep) hmove⟩

end BhtBhte.Node
