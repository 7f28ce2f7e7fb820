import BhtBhte.Node.Supply

/-!
# Balances below zero

A value is a signed number.  The debit of a negative value always passes and raises the sender's
balance; the credit then lowers the recipient's, with no check.  So a balance falls below zero
exactly when a transfer takes more from its recipient than the recipient has.  In runs of transfers
whose recipient has what they take no balance is ever negative (`solvent_of_afforded`).
-/
namespace BhtBhte.Node
open BhtBhte.Lib

namespace World

/-- No entry of the balance map is negative. -/
def Solvent (w : World) : Prop := ∀ a v, w.balances.get? a = some v → 0 ≤ parseQuantity v

theorem Solvent.balance_nonneg {w : World} (h : w.Solvent) (addr : String) :
    0 ≤ w.balance addr := by
  rw [balance]
  split
  · exact le_rfl
  · cases hv : w.balances.get? addr with
    | none => exact parseQuantity_empty.ge
    | some v => exact h addr v hv

/-- Setting a balance keeps the others. -/
theorem Solvent.set_iff {w : World} (h : w.Solvent) (addr : String) (v : ℤ) :
    Solvent { w with balances := w.balances.insert addr (hexText v) } ↔ 0 ≤ v := by
  constructor
  · intro hset
    have hv := hset addr (hexText v) (FinMap.get?_insert_self _ _ _)
    rwa [parseQuantity_hexText] at hv
  · intro hv a t ht
    have ht : (w.balances.insert addr (hexText v)).get? a = some t := ht
    rw [FinMap.get?_insert] at ht
    split at ht
    · cases ht
      rwa [parseQuantity_hexText]
    · exact h a t ht

theorem Solvent.debit {w : World} (h : w.Solvent) (addr : String) (v : ℤ) :
    (w.debit addr v).Solvent := by
  rw [World.debit]
  split
  · exact (h.set_iff _ _).mpr (by omega)
  · exact h

theorem Solvent.credit_iff {w : World} (h : w.Solvent) (addr : String) (v : ℤ) :
    (w.credit addr v).Solvent ↔ 0 ≤ w.balance addr + v :=
  h.set_iff _ _

/-- A debit followed by the credit of the same account leaves nothing negative. -/
theorem balance_debit_add_nonneg {w : World} (h : w.Solvent) {addr : String} (hne : addr ≠ "")
    (v : ℤ) : 0 ≤ (w.debit addr v).balance addr + v := by
  have hbalance := h.balance_nonneg addr
  rw [debit]
  split
  · have hset : World.balance
        { w with balances := w.balances.insert addr (hexText (w.balance addr - v)) } addr =
          w.balance addr - v := by
      rw [balance_eq hne, FinMap.get?_insert_self, Option.map_some, parseQuantity_hexText]
      rfl
    rw [hset]
    omega
  · omega

variable [Platform]

/-- A copy holds entries of the original. -/
theorem Solvent.copy {w : World} (h : w.Solvent) (ω : Choices) : (w.copy ω).Solvent := by
  intro a v hv
  obtain ⟨e, he, -, rfl⟩ := FinMap.exists_of_get?_rekey hv
  exact h e.1 e.2 (FinMap.get?_eq_some.mpr ((w.balances.range_perm _).subset he))

/-- The transfer does not take from its recipient more than the recipient has; a transfer to
the sender itself takes nothing. -/
def Affords (w : World) (tx : TxRecord) : Prop :=
  tx.sender ≠ "" → tx.recipient ≠ "" → tx.sender ≠ tx.recipient →
    0 ≤ w.balance tx.recipient + parseQuantity tx.value

/-- **One transaction.** It keeps balances from falling below zero exactly when it is
afforded. -/
theorem solvent_apply_iff {w : World} (h : w.Solvent) (bridgeAddress : String) (tx : TxRecord) :
    (w.apply bridgeAddress tx).Solvent ↔ w.Affords tx := by
  have happly : (w.apply bridgeAddress tx).Solvent ↔ (w.transfer tx).Solvent := by
    rw [Solvent, balances_apply, Solvent]
  rw [happly, transfer, Affords]
  by_cases hne : tx.sender ≠ "" ∧ tx.recipient ≠ ""
  · rw [if_pos hne]
    have hcredit := (h.debit tx.sender (parseQuantity tx.value)).credit_iff tx.recipient
      (parseQuantity tx.value)
    refine Iff.trans (Iff.of_eq rfl) (hcredit.trans ?_)
    by_cases hself : tx.sender = tx.recipient
    · rw [← hself]
      have hnonneg := balance_debit_add_nonneg h hne.1 (parseQuantity tx.value)
      exact ⟨fun _ _ _ hne' => absurd rfl hne', fun _ => hnonneg⟩
    · rw [balance_debit_of_ne (Ne.symm hself)]
      exact ⟨fun hv _ _ _ => hv, fun hv => hv hne.1 hne.2 hself⟩
  · rw [if_neg hne]
    exact ⟨fun _ hs hr => absurd ⟨hs, hr⟩ hne, fun _ => h⟩

end World

variable [Platform]

/-- Every transfer of the list is afforded at the moment it is executed. -/
def AllAfforded (bridgeAddress : String) : World → List TxRecord → Prop
  | _, [] => True
  | w, tx :: txs => w.Affords tx ∧ AllAfforded bridgeAddress (w.apply bridgeAddress tx) txs

/-- The transfers of a list are afforded exactly when no balance is negative after any of
them. -/
theorem allAfforded_iff {w : World} (h : w.Solvent) (bridgeAddress : String)
    (txs : List TxRecord) :
    AllAfforded bridgeAddress w txs ↔
      ∀ k, ((txs.take k).foldl (World.apply · bridgeAddress ·) w).Solvent := by
  induction txs generalizing w with
  | nil => exact ⟨fun _ k => by rw [List.take_nil]; exact h, fun _ => trivial⟩
  | cons tx txs ih =>
      rw [AllAfforded, ← World.solvent_apply_iff h bridgeAddress tx]
      constructor
      · rintro ⟨hfirst, hrest⟩ k
        cases k with
        | zero => exact h
        | succ k =>
            rw [List.take_succ_cons, List.foldl_cons]
            exact (ih hfirst).mp hrest k
      · intro hall
        have hfirst : (w.apply bridgeAddress tx).Solvent := by
          have := hall 1
          rwa [List.take_succ_cons, List.take_zero] at this
        refine ⟨hfirst, (ih hfirst).mpr fun k => ?_⟩
        have := hall (k + 1)
        rwa [List.take_succ_cons, List.foldl_cons] at this

theorem World.Solvent.foldl {w : World} (h : w.Solvent) {bridgeAddress : String}
    {txs : List TxRecord} (htxs : AllAfforded bridgeAddress w txs) :
    (txs.foldl (World.apply · bridgeAddress ·) w).Solvent := by
  have hall := (allAfforded_iff h bridgeAddress txs).mp htxs txs.length
  rwa [List.take_length] at hall

/-! ## Runs -/

/-- A call whose executed transfers are afforded. -/
def AffordedStep (cfg : Config) (n : RpcNode) (ω : Choices) (e : Event) : Prop :=
  AllAfforded cfg.bridgeAddress n.world (n.executed cfg ω e)

theorem solvent_freshWorld (cfg : Config) : (freshWorld cfg).Solvent := by
  have hinitial : 0 ≤ parseQuantity initialBalance := by
    rw [parseQuantity_initialBalance]
    decide
  have hinsert : ∀ (m : FinMap String String) (b : String),
      (∀ a v, m.get? a = some v → 0 ≤ parseQuantity v) →
      ∀ a v, (m.insert b initialBalance).get? a = some v → 0 ≤ parseQuantity v := by
    intro m b hm a v hv
    rw [FinMap.get?_insert] at hv
    split at hv
    · cases hv
      exact hinitial
    · exact hm a v hv
  have hfold : ∀ (l : List String) (m : FinMap String String),
      (∀ a v, m.get? a = some v → 0 ≤ parseQuantity v) →
      ∀ a v, (l.foldl RpcNode.ensureBalance m).get? a = some v → 0 ≤ parseQuantity v := by
    intro l
    induction l with
    | nil => exact fun m hm => hm
    | cons b l ih =>
        intro m hm
        refine ih _ ?_
        rw [RpcNode.ensureBalance]
        split
        · exact hm
        · exact hinsert m b hm
  exact hfold _ _ (hinsert ∅ defaultAccount fun a v hv => by cases hv)

/-- **No balance below zero.** In a run whose executed transfers are all afforded, no balance
is negative in any state reached; and there a call is afforded exactly when no transaction it
executes leaves a negative balance. -/
theorem solvent_of_afforded {cfg : Config} {n : RpcNode}
    (h : ReachableBy cfg (AffordedStep cfg) n) :
    (∀ a v, n.world.balances.get? a = some v → 0 ≤ parseQuantity v) ∧
    ∀ ω e, AffordedStep cfg n ω e ↔
      ∀ k, (((n.executed cfg ω e).take k).foldl (World.apply · cfg.bridgeAddress ·)
        n.world).Solvent := by
  have hcopy : ∀ (w : World) (ω : Choices), w.Solvent → (w.copy ω).Solvent :=
    fun w ω hw => hw.copy ω
  have hinv : ChainOk n ∧ FundedOk n ∧ Everywhere World.Solvent n := by
    refine h.induct (P := fun n => ChainOk n ∧ FundedOk n ∧ Everywhere World.Solvent n)
      (fun ω => ⟨chainOk_fresh cfg ω, fundedOk_fresh cfg ω,
        everywhere_fresh hcopy (solvent_freshWorld cfg) ω⟩) ?_
    intro n ω e ⟨hchain, hfunded, hsolvent⟩ hok hlen
    have hmove := RpcNode.next_move hchain hlen
    exact ⟨hchain.next hlen, hfunded.move hchain hmove,
      hsolvent.move hchain hfunded hcopy (hsolvent.world.foldl hok) hmove⟩
  exact ⟨hinv.2.2.world, fun ω e => allAfforded_iff hinv.2.2.world _ _⟩

/-- A transfer of a whole balance is afforded. -/
theorem afforded_wholeTransfer (ω : Choices) :
    ReachableBy manualMining (AffordedStep manualMining)
      (((newRPCNode manualMining ω {}).next manualMining ω (.sendTransaction wholeTransfer)).next
        manualMining ω .mineBlock) := by
  obtain ⟨hworld, hempty, -⟩ := fresh_manualMining ω
  obtain ⟨hworld₁, -, hpending₁⟩ := send_wholeTransfer hworld ω
  obtain ⟨-, -, hvalue⟩ := wholeTransfer_record (newRPCNode manualMining ω {}) (ω.call 0)
  refine run_wholeTransfer ω ?_ ?_
  · rw [AffordedStep, RpcNode.executed, if_neg fun h => Bool.false_ne_true h.1]
    trivial
  · show AllAfforded _ _ _
    rw [hworld₁, RpcNode.executed, hpending₁, hempty]
    refine ⟨fun _ _ _ => ?_, trivial⟩
    have hbalance := (solvent_freshWorld manualMining).balance_nonneg
      ((newRPCNode manualMining ω {}).txOfObject (ω.call 0) wholeTransfer "").recipient
    rw [hvalue]
    omega

omit [Platform] in
theorem solvent_of_wholeTransfer :
    letI := Platform.checksums
    let n := ((newRPCNode manualMining default {}).next manualMining default
      (.sendTransaction wholeTransfer)).next manualMining default .mineBlock
    ∀ a v, n.world.balances.get? a = some v → 0 ≤ parseQuantity v :=
  (@solvent_of_afforded Platform.checksums _ _
    (@afforded_wholeTransfer Platform.checksums default)).1

/-! ## A transfer of minus one -/

/-- A transfer of minus one. -/
def negativeTransfer : Object :=
  object [("from", .str defaultAccount), ("to", .str "0x00000000000000000000000000000000000000aa"),
    ("value", .str "-1")]

theorem text_negativeTransfer : text negativeTransfer "from" = defaultAccount ∧
    text negativeTransfer "to" = "0x00000000000000000000000000000000000000aa" ∧
    text negativeTransfer "value" = "-1" :=
  ⟨text_of_str rfl, text_of_str rfl, text_of_str rfl⟩

omit [Platform] in
theorem parseQuantity_minus_one : parseQuantity "-1" = -1 := by decide +kernel

/-- A fresh strict node accepts it. -/
theorem validate_negativeTransfer {n : RpcNode} (h : n.world = freshWorld {}) :
    n.validateTransaction {} negativeTransfer = .ok () := by
  obtain ⟨hfrom, hto, hvalue⟩ := text_negativeTransfer
  have hbalance := (solvent_freshWorld {}).balance_nonneg defaultAccount
  refine RpcNode.validateTransaction_of_covered (hfrom ▸ normalizeAddress_defaultAccount)
    (hto ▸ normalizeAddress_aa) (hvalue ▸ parseQuantity_minus_one) rfl (by decide) rfl
    isHexAddress_defaultAccount (.inr isHexAddress_aa) ?_
  rw [h]
  omega

/-- Sent and mined, it leaves its recipient with minus one. -/
theorem balance_negativeTransfer {n : RpcNode} {ω : Choices} (hn : n = newRPCNode {} ω {}) :
    n.validateTransaction {} negativeTransfer = .ok () ∧
    Reachable {} (n.next {} ω (.sendTransaction negativeTransfer)) ∧
    (n.next {} ω (.sendTransaction negativeTransfer)).world.balances.get?
      "0x00000000000000000000000000000000000000aa" = some (hexText (-1)) := by
  have hfresh : n.world = freshWorld {} := by
    obtain ⟨ω₁, l, timestamp, hfresh, -⟩ := newRPCNode_fresh {} ω
    rw [hn, hfresh]
  have hvalid := validate_negativeTransfer hfresh
  obtain ⟨hreach, -, hworld⟩ :=
    @sendTransaction_fresh _ (fun _ _ _ => True) _ _ _ hn hvalid trivial
  refine ⟨hvalid, hreach, ?_⟩
  obtain ⟨hfrom, hto, hvalue⟩ := text_negativeTransfer
  have hrecord : (n.txOfObject (ω.call 0) negativeTransfer "").sender = defaultAccount ∧
      (n.txOfObject (ω.call 0) negativeTransfer "").recipient =
        "0x00000000000000000000000000000000000000aa" ∧
      parseQuantity (n.txOfObject (ω.call 0) negativeTransfer "").value = -1 := by
    rw [RpcNode.txOfObject, hfrom, hto, hvalue, normalizeAddress_defaultAccount,
      normalizeAddress_aa]
    refine ⟨rfl, rfl, ?_⟩
    rw [parseQuantity_hexText, parseQuantity_minus_one]
  rw [hworld, World.balances_apply]
  generalize n.txOfObject (ω.call 0) negativeTransfer "" = r at hrecord ⊢
  obtain ⟨hsender, hrecipient, hminus⟩ := hrecord
  -- the recipient has no balance, so the credit of minus one is all it gets
  have hzero : ((freshWorld {}).debit defaultAccount (-1)).balance
      "0x00000000000000000000000000000000000000aa" = 0 := by
    rw [World.balance_debit_of_ne (by decide), freshWorld_default, World.balance_eq (by decide),
      FinMap.get?_insert_of_ne _ _ (by decide)]
    rfl
  rw [World.transfer, hsender, hrecipient, hminus, if_pos ⟨by decide, by decide⟩]
  refine (FinMap.get?_insert_self _ _ _).trans ?_
  rw [hzero]
  rfl

omit [Platform] in
/-- **A negative balance.** A strict node accepts a transfer of minus one, and mining it
leaves the recipient with a balance of minus one. -/
theorem negativeTransfer_overdraws :
    letI := Platform.checksums
    let fresh := newRPCNode {} default {}
    let n := fresh.next {} default (.sendTransaction negativeTransfer)
    ({} : Config).strictMode = true ∧ fresh.validateTransaction {} negativeTransfer = .ok () ∧
      Reachable {} n ∧
      n.world.balances.get? "0x00000000000000000000000000000000000000aa" = some (hexText (-1)) ∧
      parseQuantity (hexText (-1)) < 0 := by
  obtain ⟨hvalid, hreach, hbalance⟩ :=
    @balance_negativeTransfer Platform.checksums _ default rfl
  exact ⟨rfl, hvalid, hreach, hbalance, by rw [parseQuantity_hexText]; decide⟩

end BhtBhte.Node
