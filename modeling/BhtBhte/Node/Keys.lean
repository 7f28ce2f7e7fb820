import BhtBhte.Node.Replayable
import BhtBhte.Node.Supply

/-!
# Keys in normal form

The calls that read an account look it up under its normalised address, and the copies that undo a
replay are written under normalised keys.  Both are exact as long as every key that execution writes
is in normal form; a contract address is not.  `leaves_no_trace_iff` says this of a replay, and
`reads_of_writesNormal` of the reads.
-/
namespace BhtBhte.Node
open BhtBhte.Lib
variable [Platform]

namespace RpcNode

/-- `eth_getBalance`. -/
def getBalance (n : RpcNode) (addr : String) : String :=
  hexText (n.world.balance (normalizeAddress addr))

/-- `eth_getTransactionCount`. -/
def getTransactionCount (n : RpcNode) (addr : String) : String :=
  toHex ((n.world.nonces.get? (normalizeAddress addr)).getD 0)

/-- `eth_getCode`. -/
def getCode (n : RpcNode) (addr : String) : String :=
  stringOrDefault ((n.world.code.get? (normalizeAddress addr)).getD "") "0x"

/-- `eth_getStorageAt`. -/
def getStorageAt (n : RpcNode) (addr key : String) : String :=
  match n.world.storage.get? (normalizeAddress addr) with
  | none => zeroHash
  | some slots => stringOrDefault ((slots.get? (normalizeStorageKey key)).getD "") zeroHash

end RpcNode

/-! ## Slots -/

/-- Every slot key is in normal form. -/
def World.SlotsNormal (w : World) : Prop :=
  ∀ a s, w.storage.get? a = some s → ∀ k ∈ s.keys, normalizeStorageKey k = k

theorem World.SlotsNormal.copy {w : World} (h : w.SlotsNormal) (ω : Choices) :
    (w.copy ω).SlotsNormal := by
  intro a s hs
  have hstorage : (w.copy ω).storage = FinMap.rekey normalizeAddress
      (w.storage.range (ω.call 3).order) := copyNestedStringMap_eq h _
  rw [hstorage] at hs
  obtain ⟨e, he, -, rfl⟩ := FinMap.exists_of_get?_rekey hs
  exact h e.1 e.2 (FinMap.get?_eq_some.mpr (FinMap.mem_range.mp he))

theorem World.SlotsNormal.applyAll {w : World} (h : w.SlotsNormal) (cfg : Config)
    (txs : List TxRecord) : (w.applyAll cfg txs).SlotsNormal := by
  induction txs generalizing w with
  | nil => exact h
  | cons tx txs ih => exact ih (World.slots_apply h cfg.bridgeAddress tx)

/-- The slot keys of the accounts and of the snapshots are in normal form. -/
structure SlotsOk (n : RpcNode) : Prop where
  world : n.world.SlotsNormal
  snapshots : ∀ k s, n.stateSnapshots.get? k = some s → s.world.SlotsNormal

theorem SlotsOk.move {n n' : RpcNode} (h : SlotsOk n) (hchain : ChainOk n)
    (hfunded : FundedOk n) {cfg : Config} {txs : List TxRecord} (hmove : Move cfg txs n n') :
    SlotsOk n' := by
  have hkept : Everywhere World.SlotsNormal n' :=
    Everywhere.move ⟨h.world, h.snapshots⟩ hchain hfunded (fun w ω hw => hw.copy ω)
      (h.world.applyAll cfg txs) hmove
  exact ⟨hkept.world, hkept.snapshots⟩

theorem ReachableBy.slotsOk {cfg : Config} {ok : RpcNode → Choices → Event → Prop} {n : RpcNode}
    (h : ReachableBy cfg ok n) : SlotsOk n := by
  have hinv : ChainOk n ∧ FundedOk n ∧ SlotsOk n := by
    refine h.induct (P := fun n => ChainOk n ∧ FundedOk n ∧ SlotsOk n)
      (fun ω => ⟨chainOk_fresh cfg ω, fundedOk_fresh cfg ω, ?_⟩) ?_
    · have hspell := spellOk_fresh cfg ω
      exact ⟨hspell.world.slots, fun k s hs => (hspell.snapshots k s hs).slots⟩
    · intro n ω e ⟨hchain, hfunded, hslots⟩ _ hlen
      have hmove := RpcNode.next_move hchain hlen
      exact ⟨hchain.next hlen, hfunded.move hchain hmove, hslots.move hchain hfunded hmove⟩
  exact hinv.2.2

/-! ## Validation -/

/-- The state of the node and its trie commits agree. -/
def SameState (n n' : RpcNode) : Prop :=
  n'.toNodeState = n.toNodeState ∧ n'.trieCommits = n.trieCommits

/-- Copying the accounts out and in changes nothing exactly when their keys are normal. -/
theorem sameState_recopied_iff {n : RpcNode} (h : n.world.SlotsNormal) (ω₁ ω₂ : Choices)
    (disk : List Files) : SameState n (n.recopied ω₁ ω₂ disk) ↔ n.world.Normal := by
  constructor
  · rintro ⟨hstate, -⟩
    have hworld : (n.world.copy ω₁).copy ω₂ = n.world := congrArg NodeState.world hstate
    have hfixed : ∀ {V : Type} {l : List (String × V)} {a : String},
        a ∈ (FinMap.rekey normalizeAddress l).keys → normalizeAddress a = a :=
      FinMap.fixed_of_mem_keys_rekey normalizeAddress_normalizeAddress
    rw [← hworld]
    refine ⟨fun a => hfixed, fun a => hfixed, fun a => hfixed, fun a => hfixed, ?_⟩
    exact (h.copy ω₁).copy ω₂
  · intro hnormal
    rw [RpcNode.recopied, hnormal.copy_eq, hnormal.copy_eq]
    exact ⟨rfl, rfl⟩

/-- **Validation leaves no trace** exactly when every key of the accounts is in normal form. -/
theorem leaves_no_trace_iff {cfg : Config} {n : RpcNode} (h : Reachable cfg n) :
    ((∀ ω, SameState n (n.replayChain cfg ω).2) ∧
      (∀ ω block, SameState n (n.validateBlockRecord cfg ω block).2) ∧
      (∀ ω block e, (n.replayPeerBlock cfg ω block).1 = .error e →
        SameState n (n.replayPeerBlock cfg ω block).2) ∧
      (∀ ω block e, (n.importPeerBlock cfg ω block).1 = .error e →
        SameState n (n.importPeerBlock cfg ω block).2)) ↔ n.world.Normal := by
  have hslots := h.slotsOk.world
  constructor
  · rintro ⟨hreplay, -⟩
    obtain ⟨ω₁, ω₂, disk, heq⟩ := n.replayChain_recopied h.chainOk.ne_nil cfg default
    have hsame := hreplay default
    rw [heq] at hsame
    exact (sameState_recopied_iff hslots ω₁ ω₂ disk).mp hsame
  · intro hnormal
    have hcopied : ∀ ω₁ ω₂ disk, SameState n (n.recopied ω₁ ω₂ disk) :=
      fun ω₁ ω₂ disk => (sameState_recopied_iff hslots ω₁ ω₂ disk).mpr hnormal
    refine ⟨fun ω => ?_, fun ω block => ?_, fun ω block e he => ?_, fun ω block e he => ?_⟩
    · obtain ⟨ω₁, ω₂, disk, heq⟩ := n.replayChain_recopied h.chainOk.ne_nil cfg ω
      rw [heq]
      exact hcopied ω₁ ω₂ disk
    · rcases n.validateBlockRecord_cases cfg ω block with heq | ⟨ω₁, ω₂, disk, heq⟩
      · rw [heq]; exact ⟨rfl, rfl⟩
      · rw [heq]; exact hcopied ω₁ ω₂ disk
    · rcases n.replayPeerBlock_cases cfg ω block with ⟨e', ω₁, ω₂, disk, heq⟩ | ⟨-, heq⟩
      · rw [heq]; exact hcopied ω₁ ω₂ disk
      · rw [heq] at he
        cases he
    · rcases n.importPeerBlock_cases cfg ω block with ⟨heq, -⟩ | ⟨e', ω₁, ω₂, disk, heq⟩ |
        ⟨ω₂, l, heq, -⟩
      · rw [heq] at he
        cases he
      · rw [heq]; exact hcopied ω₁ ω₂ disk
      · rw [heq] at he
        cases he

/-- The code of a fresh contract is found only after a copy. -/
theorem getCode_withCode {n : RpcNode} {w : World} {address : String} (code : String)
    (hne : normalizeAddress address ≠ address) (hworld : n.world = w.withCode address code) :
    n.getCode address = "0x" := by
  rw [RpcNode.getCode, hworld]
  show stringOrDefault ((FinMap.get? (FinMap.insert ∅ address code) (normalizeAddress address)).getD
    "") "0x" = "0x"
  rw [FinMap.get?_insert_of_ne _ _ hne]
  rfl

theorem getCode_normal {n : RpcNode} {w : World} {address : String} {code : String}
    (hcode : code ≠ "" ∧ code ≠ "<nil>")
    (hworld : n.world = w.withCode (normalizeAddress address) code) : n.getCode address = code := by
  rw [RpcNode.getCode, hworld]
  show stringOrDefault ((FinMap.get? (FinMap.insert ∅ (normalizeAddress address) code)
    (normalizeAddress address)).getD "") "0x" = code
  rw [FinMap.get?_insert_self, stringOrDefault, if_neg (by simpa using hcode)]
  rfl

/-- A replay makes the code of a created contract appear. -/
theorem replayChain_reveals {n fresh : RpcNode} {ω : Choices}
    (hne : normalizeAddress (contractAddress "" "0x0") ≠ contractAddress "" "0x0")
    (hfresh : fresh = newRPCNode {} ω {}) (hn : n = fresh.next {} ω (.sendRawTransaction "0x01")) :
    Reachable {} n ∧ n.getCode (contractAddress "" "0x0") = "0x" ∧
      (n.replayChain {} ω).2.getCode (contractAddress "" "0x0") = "0x01" ∧
      ¬ SameState n (n.replayChain {} ω).2 := by
  have hreach : ReachableBy {} (HonestStep {}) n := hn ▸ (honest_sendRaw hfresh "0x01").1
  obtain ⟨-, -, hworld, -⟩ := fresh_creation hfresh "0x01" hn
  have hnormal := freshWorld_normal {}
  obtain ⟨ω₁, ω₂, disk, heq⟩ := n.replayChain_recopied hreach.chainOk.ne_nil {} ω
  have hbefore := getCode_withCode "0x01" hne hworld
  have hafter : (n.replayChain {} ω).2.getCode (contractAddress "" "0x0") = "0x01" := by
    refine getCode_normal (by decide) (w := freshWorld {}) ?_
    rw [heq]
    show (n.world.copy ω₁).copy ω₂ = _
    rw [hworld, World.copy_withCode hnormal, World.copy_withCode hnormal,
      normalizeAddress_normalizeAddress]
  refine ⟨hreach.reachable, hbefore, hafter, fun hsame => ?_⟩
  have hworlds : (n.replayChain {} ω).2.world = n.world := congrArg NodeState.world hsame.1
  rw [RpcNode.getCode, hworlds] at hafter
  rw [RpcNode.getCode, hafter] at hbefore
  revert hbefore
  decide

omit [Platform] in
/-- **A trace.** After a replay `eth_getCode` answers for a contract that it did not know before. -/
theorem replayChain_leaves_trace :
    letI := Platform.checksums
    let n := (newRPCNode {} default {}).next {} default (.sendRawTransaction "0x01")
    Reachable {} n ∧ n.getCode (contractAddress "" "0x0") = "0x" ∧
      (n.replayChain {} default).2.getCode (contractAddress "" "0x0") = "0x01" ∧
      ¬ SameState n (n.replayChain {} default).2 :=
  @replayChain_reveals Platform.checksums _ _ default checksums_contractAddress.2.ne' rfl rfl

/-! ## Writes under normal keys -/

/-- A transaction that writes under normal keys only; a creation also meets no other code at
its address and brings one that reads back. -/
structure World.WritesNormal (cfg : Config) (w : World) (tx : TxRecord) : Prop where
  ends : tx.sender ≠ "" → tx.recipient ≠ "" → tx.Normal
  storage : tx.recipient ≠ "" → tx.recipient ≠ cfg.bridgeAddress →
    abiSelector tx.input = "0x6057361d" → normalizeAddress tx.recipient = tx.recipient
  address : tx.recipient = "" →
    normalizeAddress (contractAddress tx.sender tx.nonce) = contractAddress tx.sender tx.nonce
  input : tx.recipient = "" → tx.input ≠ "" ∧ tx.input ≠ "<nil>"
  code : tx.recipient = "" → ∀ v, w.code.get? (contractAddress tx.sender tx.nonce) = some v →
    v = tx.input

namespace World
variable {cfg : Config} {w : World} {tx : TxRecord}

theorem Normal.apply (h : w.Normal) (htx : w.WritesNormal cfg tx) :
    (w.apply cfg.bridgeAddress tx).Normal := by
  refine ⟨fixed_balances_apply h.balances htx.ends _, fixed_nonces_apply h.nonces htx.ends _, ?_, ?_,
    slots_apply h.slots cfg.bridgeAddress tx⟩
  · rw [code_apply]
    split
    · next hempty => exact fixed_insert _ h.code (htx.address hempty)
    · exact h.code
  · rcases w.storage_apply cfg.bridgeAddress tx with heq | ⟨⟨hne, hbridge, hselector⟩, heq⟩
    · rw [heq]; exact h.storage
    · rw [heq]; exact fixed_insert _ h.storage (htx.storage hne hbridge hselector)

/-- The code that is there stays, and a creation adds its input. -/
theorem WritesNormal.code_apply (htx : w.WritesNormal cfg tx) :
    (∀ a v, w.code.get? a = some v → (w.apply cfg.bridgeAddress tx).code.get? a = some v) ∧
      (tx.recipient = "" → (w.apply cfg.bridgeAddress tx).code.get?
        (contractAddress tx.sender tx.nonce) = some tx.input) := by
  rw [World.code_apply]
  split
  · next hempty =>
      refine ⟨fun a v hv => ?_, fun _ => FinMap.get?_insert_self _ _ _⟩
      rw [FinMap.get?_insert]
      split
      · next ha =>
          rw [ha] at hv
          rw [htx.code hempty v hv]
      · exact hv
  · next hne => exact ⟨fun a v hv => hv, fun hempty => absurd hempty hne⟩

end World

/-- Every transaction of the list writes under normal keys at the moment it is executed. -/
def AllWriteNormal (cfg : Config) : World → List TxRecord → Prop
  | _, [] => True
  | w, tx :: txs => w.WritesNormal cfg tx ∧ AllWriteNormal cfg (w.apply cfg.bridgeAddress tx) txs

/-- A call whose executed transactions write under normal keys. -/
def NormalWritesStep (cfg : Config) (n : RpcNode) (ω : Choices) (e : Event) : Prop :=
  AllWriteNormal cfg n.world (n.executed cfg ω e)

/-- The code holds the input of a creation, and the input reads back. -/
def World.HoldsCreation (w : World) (tx : TxRecord) : Prop :=
  tx.recipient = "" → w.code.get? (contractAddress tx.sender tx.nonce) = some tx.input ∧
    tx.input ≠ "" ∧ tx.input ≠ "<nil>"

section Lists
variable {cfg : Config} {w : World} {txs : List TxRecord}

theorem World.Normal.applyAll (h : w.Normal) (htxs : AllWriteNormal cfg w txs) :
    (w.applyAll cfg txs).Normal := by
  induction txs generalizing w with
  | nil => exact h
  | cons tx txs ih => exact ih (h.apply htxs.1) htxs.2

/-- The creations of before and those of the list are held after it. -/
theorem AllWriteNormal.holds (htxs : AllWriteNormal cfg w txs) :
    (∀ tx, w.HoldsCreation tx → (w.applyAll cfg txs).HoldsCreation tx) ∧
      ∀ tx ∈ txs, (w.applyAll cfg txs).HoldsCreation tx := by
  induction txs generalizing w with
  | nil => exact ⟨fun tx h => h, fun tx htx => absurd htx List.not_mem_nil⟩
  | cons tx₀ txs ih =>
      obtain ⟨hkept, hnew⟩ := htxs.1.code_apply
      obtain ⟨hkeptAll, hnewAll⟩ := ih htxs.2
      refine ⟨fun tx h => hkeptAll tx fun hempty => ?_, fun tx htx => ?_⟩
      · exact ⟨hkept _ _ (h hempty).1, (h hempty).2⟩
      · rcases List.mem_cons.mp htx with rfl | htx
        · exact hkeptAll tx fun hempty => ⟨hnew hempty, htxs.1.input hempty⟩
        · exact hnewAll tx htx

end Lists

/-- The keys are normal, and the code holds every creation on the chain, now and in every
snapshot for its part of the chain. -/
structure KeysOk (n : RpcNode) : Prop where
  world : n.world.Normal
  snapshots : ∀ k s, n.stateSnapshots.get? k = some s → s.world.Normal
  code : ∀ b ∈ n.blocks, ∀ tx ∈ b.transactions, n.world.HoldsCreation tx
  snapshotCode : ∀ k s, n.stateSnapshots.get? k = some s →
    ∀ b ∈ n.blocks.take k, ∀ tx ∈ b.transactions, s.world.HoldsCreation tx

/-- Normal keys, under which the code of every contract created in the blocks is found. -/
def HoldsCode (blocks : List BlockRecord) (w : World) : Prop :=
  w.Normal ∧ ∀ b ∈ blocks, ∀ tx ∈ b.transactions, w.HoldsCreation tx

theorem HoldsCode.copy {blocks : List BlockRecord} {w : World} (h : HoldsCode blocks w)
    (ω : Choices) : HoldsCode blocks (w.copy ω) := by
  rw [h.1.copy_eq]
  exact h

theorem keysOk_iff_along {n : RpcNode} : KeysOk n ↔ Along HoldsCode n :=
  ⟨fun h => ⟨⟨h.world, h.code⟩, fun k s hs => ⟨h.snapshots k s hs, h.snapshotCode k s hs⟩⟩,
    fun h => ⟨h.world.1, fun k s hs => (h.snapshots k s hs).1, h.world.2,
      fun k s hs => (h.snapshots k s hs).2⟩⟩

theorem KeysOk.move {n n' : RpcNode} (h : KeysOk n) (hchain : ChainOk n) (hfunded : FundedOk n)
    {cfg : Config} {txs : List TxRecord} (htxs : AllWriteNormal cfg n.world txs)
    (hmove : Move cfg txs n n') : KeysOk n' := by
  obtain ⟨hkept, hnew⟩ := htxs.holds
  refine keysOk_iff_along.mpr ((keysOk_iff_along.mp h).move hchain hfunded
    (fun _ _ ω hw => hw.copy ω) (fun block hash hblock => ⟨h.world.applyAll htxs, ?_⟩) hmove)
  intro b hb tx htx
  rcases List.mem_append.mp hb with hb | hb
  · exact hkept tx (h.code b hb tx htx)
  · rw [List.mem_singleton.mp hb, hblock] at htx
    obtain ⟨i, hi, rfl⟩ := List.mem_mapIdx.mp htx
    exact hnew txs[i] (List.getElem_mem hi)

theorem keysOk_fresh (cfg : Config) (ω : Choices) : KeysOk (newRPCNode cfg ω {}) := by
  refine keysOk_iff_along.mpr (along_fresh (fun _ _ ω hw => hw.copy ω) (fun block hblock => ?_) ω)
  refine ⟨freshWorld_normal cfg, fun b hb tx htx => ?_⟩
  rw [List.mem_singleton.mp hb, hblock] at htx
  cases htx

theorem ReachableBy.keysOk {cfg : Config} {n : RpcNode}
    (h : ReachableBy cfg (NormalWritesStep cfg) n) : KeysOk n := by
  have hinv : ChainOk n ∧ FundedOk n ∧ KeysOk n := by
    refine h.induct (P := fun n => ChainOk n ∧ FundedOk n ∧ KeysOk n)
      (fun ω => ⟨chainOk_fresh cfg ω, fundedOk_fresh cfg ω, keysOk_fresh cfg ω⟩) ?_
    intro n ω e ⟨hchain, hfunded, hkeys⟩ hstep hlen
    have hmove := RpcNode.next_move hchain hlen
    exact ⟨hchain.next hlen, hfunded.move hchain hmove, hkeys.move hchain hfunded hstep hmove⟩
  exact hinv.2.2

/-- **Reads.** Where execution writes under normal keys, every key is normal, the account reads
return what is stored, and the code of every contract created on the chain is found. -/
theorem reads_of_writesNormal {cfg : Config} {n : RpcNode}
    (h : ReachableBy cfg (NormalWritesStep cfg) n) :
    n.world.Normal ∧
    (∀ a v, a ≠ "" → n.world.balances.get? a = some v → n.getBalance a = hexText (parseQuantity v)) ∧
    (∀ a v, n.world.nonces.get? a = some v → n.getTransactionCount a = toHex v) ∧
    (∀ a v, n.world.code.get? a = some v → n.getCode a = stringOrDefault v "0x") ∧
    (∀ a slots k v, n.world.storage.get? a = some slots → slots.get? k = some v →
      n.getStorageAt a k = stringOrDefault v zeroHash) ∧
    (∀ b ∈ n.blocks, ∀ tx ∈ b.transactions, tx.recipient = "" →
      n.getCode (contractAddress tx.sender tx.nonce) = tx.input) := by
  have hkeys := h.keysOk
  have hnormal := hkeys.world
  have hcode : ∀ a v, n.world.code.get? a = some v → n.getCode a = stringOrDefault v "0x" := by
    intro a v hv
    rw [RpcNode.getCode, hnormal.code a (FinMap.mem_keys.mpr ⟨v, hv⟩), hv]
    rfl
  refine ⟨hnormal, fun a v hne hv => ?_, fun a v hv => ?_, hcode, fun a slots k v hs hv => ?_,
    fun b hb tx htx hempty => ?_⟩
  · rw [RpcNode.getBalance, hnormal.balances a (FinMap.mem_keys.mpr ⟨v, hv⟩), World.balance,
      if_neg hne, hv]
    rfl
  · rw [RpcNode.getTransactionCount, hnormal.nonces a (FinMap.mem_keys.mpr ⟨v, hv⟩), hv]
    rfl
  · rw [RpcNode.getStorageAt, hnormal.storage a (FinMap.mem_keys.mpr ⟨slots, hs⟩), hs]
    dsimp only
    rw [hnormal.slots a slots hs k (FinMap.mem_keys.mpr ⟨v, hv⟩), hv]
    rfl
  · obtain ⟨hheld, hinput⟩ := hkeys.code b hb tx htx hempty
    rw [hcode _ _ hheld, stringOrDefault, if_neg (by tauto)]

/-! ## A block that writes a balance, a slot and a contract -/

/-- The creation of a contract by an account without a balance. -/
def smallCreation : Object :=
  object [("from", .str "0x0000000000000000000000000000000000000015"), ("data", .str "0x6000")]

theorem normalizeAddress_creator : normalizeAddress "0x0000000000000000000000000000000000000015" =
    "0x0000000000000000000000000000000000000015" := by
  rw [normalizeAddress, toLower_of_ascii (by decide)]
  decide

theorem text_smallCreation :
    text smallCreation "from" = "0x0000000000000000000000000000000000000015" ∧
    text smallCreation "to" = "<nil>" ∧ text smallCreation "value" = "<nil>" ∧
    text smallCreation "data" = "0x6000" :=
  ⟨text_of_str rfl, text_of_null rfl, text_of_null rfl, text_of_str rfl⟩

/-- A creation needs no balance. -/
theorem validate_smallCreation {n : RpcNode}
    (h : 0 ≤ n.world.balance "0x0000000000000000000000000000000000000015") :
    n.validateTransaction manualMining smallCreation = .ok () := by
  obtain ⟨hfrom, hto, hvalue, -⟩ := text_smallCreation
  exact RpcNode.validateTransaction_of_covered (hfrom ▸ normalizeAddress_creator)
    (hto ▸ normalizeAddress_nil) (hvalue ▸ parseQuantity_nil) rfl (by decide) rfl
    (by decide +kernel) (.inl rfl) h

/-- The record of the creation before anything was executed. -/
structure IsSmallCreation (r : TxRecord) : Prop where
  sender : r.sender = "0x0000000000000000000000000000000000000015"
  recipient : r.recipient = ""
  nonce : r.nonce = toHex 0
  input : r.input = "0x6000"

theorem smallCreation_record {n : RpcNode} (h : n.world.nonces = ∅) (ω : Choices) :
    IsSmallCreation (n.txOfObject ω smallCreation "") := by
  obtain ⟨hfrom, hto, hvalue, hdata⟩ := text_smallCreation
  rw [RpcNode.txOfObject, hfrom, hto, hvalue, hdata, normalizeAddress_creator,
    normalizeAddress_nil, h]
  exact ⟨rfl, rfl, rfl, rfl⟩

/-- Both are sent to a node with fresh accounts, and wait for the block. -/
theorem queued_storeAndCreate {fresh paid n : RpcNode} {ω : Choices}
    (hworld : fresh.world = freshWorld manualMining) (hempty : fresh.pendingTxs = [])
    (hpaid : paid = fresh.next manualMining ω (.sendTransaction storePayment))
    (hn : n = paid.next manualMining ω (.sendTransaction smallCreation)) :
    paid.blocks = fresh.blocks ∧ n.blocks = fresh.blocks ∧ n.world = freshWorld manualMining ∧
      ∃ r r', n.pendingTxs = [r, r'] ∧ IsStorePayment r ∧ IsSmallCreation r' := by
  have hqueue := queue_sendTransaction (validate_storePayment (n := fresh) (by
    rw [hworld, balance_freshWorld_manualMining]
    decide)) ω
  rw [← hpaid] at hqueue
  have hworld₁ : paid.world = freshWorld manualMining := by rw [hqueue]; exact hworld
  have hqueue₁ := queue_sendTransaction (validate_smallCreation (n := paid) (by
    rw [hworld₁, freshWorld_manualMining]
    decide +kernel)) ω
  rw [← hn] at hqueue₁
  have hblocks : paid.blocks = fresh.blocks := by rw [hqueue]; rfl
  refine ⟨hblocks, ?_, ?_, _, _, ?_, storePayment_record fresh (ω.call 0),
    smallCreation_record (n := paid) (by rw [hworld₁, freshWorld_manualMining]) (ω.call 0)⟩
  · rw [hqueue₁]
    exact hblocks
  · rw [hqueue₁]
    exact hworld₁
  · rw [hqueue₁]
    show paid.pendingTxs ++ _ = _
    rw [hqueue]
    show (fresh.pendingTxs ++ _) ++ _ = _
    rw [hempty]
    rfl

/-- On fresh accounts both write under normal keys when the address of the contract is one. -/
theorem allWriteNormal_storeAndCreate {r r' : TxRecord} (hr : IsStorePayment r)
    (hr' : IsSmallCreation r')
    (hnormal : normalizeAddress (contractAddress "0x0000000000000000000000000000000000000015"
      (toHex 0)) = contractAddress "0x0000000000000000000000000000000000000015" (toHex 0)) :
    AllWriteNormal manualMining (freshWorld manualMining) [r, r'] := by
  have hne : r.recipient ≠ "" := by rw [hr.recipient]; decide
  have hends : r.Normal := by
    refine ⟨?_, ?_⟩
    · rw [hr.sender, normalizeAddress_defaultAccount]
    · rw [hr.recipient, normalizeAddress_aa]
  refine ⟨⟨fun _ _ => hends, fun _ _ _ => hends.recipient, fun h => absurd h hne,
    fun h => absurd h hne, fun h => absurd h hne⟩, ⟨fun _ h => absurd hr'.recipient h,
    fun h => absurd hr'.recipient h, fun _ => ?_, fun _ => ?_, fun _ v hv => ?_⟩, trivial⟩
  · rw [hr'.sender, hr'.nonce, hnormal]
  · rw [hr'.input]
    decide
  · rw [World.code_apply, if_neg hne] at hv
    cases hv

/-- Mined in one block, they are executed on the fresh accounts. -/
theorem normalWrites_storeAndCreate (ω : Choices)
    (hnormal : normalizeAddress (contractAddress "0x0000000000000000000000000000000000000015"
      (toHex 0)) = contractAddress "0x0000000000000000000000000000000000000015" (toHex 0)) :
    let n := ((newRPCNode manualMining ω {}).next manualMining ω (.sendTransaction storePayment)).next
      manualMining ω (.sendTransaction smallCreation)
    ReachableBy manualMining (NormalWritesStep manualMining) (n.next manualMining ω .mineBlock) ∧
    ∃ r r' : TxRecord, (n.next manualMining ω .mineBlock).world =
        ((freshWorld manualMining).apply manualMining.bridgeAddress r).apply
          manualMining.bridgeAddress r' ∧ IsStorePayment r ∧ IsSmallCreation r' := by
  intro n
  obtain ⟨hworld, hempty, hblocks⟩ := fresh_manualMining ω
  obtain ⟨paid, hpaid⟩ : ∃ paid, paid = (newRPCNode manualMining ω {}).next manualMining ω
    (.sendTransaction storePayment) := ⟨_, rfl⟩
  have hn : n = paid.next manualMining ω (.sendTransaction smallCreation) := by rw [hpaid]
  clear_value n
  obtain ⟨hblocks₁, hblocks₂, hworld₂, r, r', hpending, hr, hr'⟩ :=
    queued_storeAndCreate hworld hempty hpaid hn
  have hlength := (congrArg List.length hblocks₂).trans hblocks
  have hnone : ∀ (m : RpcNode) tx, NormalWritesStep manualMining m ω (.sendTransaction tx) := by
    intro m tx
    rw [NormalWritesStep, RpcNode.executed, if_neg fun h => Bool.false_ne_true h.1]
    trivial
  have hreach₁ : ReachableBy manualMining (NormalWritesStep manualMining) paid := by
    rw [hpaid] at hblocks₁ ⊢
    exact ReachableBy.next ⟨ω, .refl⟩ (hnone _ _) (by rw [hblocks₁, hblocks]; decide)
  have hreach₂ : ReachableBy manualMining (NormalWritesStep manualMining) n := by
    rw [hn] at hlength ⊢
    exact hreach₁.next (hnone _ _) (by rw [hlength]; decide)
  refine ⟨hreach₂.next ?_ ?_, r, r', ?_, hr, hr'⟩
  · rw [NormalWritesStep, RpcNode.executed, hpending, hworld₂]
    exact allWriteNormal_storeAndCreate hr hr' hnormal
  · obtain ⟨block, hmined⟩ := n.minePendingBlock_blocks manualMining ω
    refine (congrArg List.length hmined).trans_lt ?_
    rw [List.length_append, hlength, List.length_singleton]
    decide
  · rw [RpcNode.next, RpcNode.minePendingBlock_world, hpending, hworld₂]
    rfl

/-- The payment calls `store` of its recipient, which keeps the value in its first slot. -/
theorem apply_storePayment {r : TxRecord} (hr : IsStorePayment r) :
    (freshWorld manualMining).apply manualMining.bridgeAddress r =
      { (freshWorld manualMining).transfer r with
        storage := ((freshWorld manualMining).transfer r).storage.insert r.recipient
          (((((freshWorld manualMining).transfer r).storage.get? r.recipient).getD ∅).insert zeroHash
            r.value) } := by
  have hselector : abiSelector "0x6057361d" = "0x6057361d" := by
    have htrim : trimSpace "0x6057361d" = "0x6057361d" := by decide
    refine abiSelector_eq_self ?_ (by decide)
    rw [htrim, toLower_of_ascii (by decide)]
    decide
  rw [World.apply, World.execute, hr.recipient, if_neg (by decide), if_neg (by decide), hr.input,
    if_pos (by decide), World.executeSimpleStorageCall, hr.input, hselector, hr.recipient,
    if_neg (not_not_intro rfl)]

/-- What the two leave in the accounts. -/
theorem written_storeAndCreate {r r' : TxRecord} {w : World}
    (hw : w = ((freshWorld manualMining).apply manualMining.bridgeAddress r).apply
      manualMining.bridgeAddress r') (hr : IsStorePayment r) (hr' : IsSmallCreation r') :
    w.balances.get? "0x00000000000000000000000000000000000000aa" = some (hexText 1) ∧
    w.nonces.get? defaultAccount = some 1 ∧
    (∃ slots, w.storage.get? "0x00000000000000000000000000000000000000aa" = some slots ∧
      slots.get? zeroHash = some "0x1") ∧
    w.code.get? (contractAddress "0x0000000000000000000000000000000000000015" (toHex 0)) =
      some "0x6000" := by
  have hcreate : w = { (freshWorld manualMining).apply manualMining.bridgeAddress r with
      code := ((freshWorld manualMining).apply manualMining.bridgeAddress r).code.insert
        (contractAddress r'.sender r'.nonce) r'.input } := by
    rw [hw, World.apply, World.transfer, if_neg (fun h => h.2 hr'.recipient), World.execute,
      if_pos hr'.recipient]
  rw [hcreate]
  dsimp only
  refine ⟨?_, ?_, ?_, ?_⟩
  · rw [World.balances_apply, hr.balances, FinMap.get?_insert_self]
  · rw [World.nonces_apply, hr.sender, hr.recipient, if_pos ⟨by decide, by decide⟩,
      FinMap.get?_insert_self, freshWorld_manualMining]
    rfl
  · rw [apply_storePayment hr, hr.recipient, hr.value]
    exact ⟨_, FinMap.get?_insert_self _ _ _, FinMap.get?_insert_self _ _ _⟩
  · rw [hr'.sender, hr'.nonce, hr'.input]
    exact FinMap.get?_insert_self _ _ _

omit [Platform] in
theorem checksums_created :
    letI := Platform.checksums
    contractAddress "0x0000000000000000000000000000000000000015" (toHex 0) =
        "0xfd6f27a51727e125fd6f27a51727e125fd6f27a5" ∧
      normalizeAddress "0xfd6f27a51727e125fd6f27a51727e125fd6f27a5" =
        "0xfd6f27a51727e125fd6f27a51727e125fd6f27a5" :=
  ⟨by decide +kernel, by decide +kernel⟩

omit [Platform] in
/-- After the block the reads return the credit, the nonce, the slot and the code. -/
theorem reads_of_storeAndCreate :
    letI := Platform.checksums
    let n := (((newRPCNode manualMining default {}).next manualMining default
      (.sendTransaction storePayment)).next manualMining default
      (.sendTransaction smallCreation)).next manualMining default .mineBlock
    n.getBalance "0x00000000000000000000000000000000000000aa" = "0x1" ∧
      n.getTransactionCount defaultAccount = "0x1" ∧
      n.getStorageAt "0x00000000000000000000000000000000000000aa" zeroHash = "0x1" ∧
      n.getCode "0xfd6f27a51727e125fd6f27a51727e125fd6f27a5" = "0x6000" := by
  let _ := Platform.checksums
  intro n
  obtain ⟨haddress, hnormal⟩ := checksums_created
  obtain ⟨hreach, r, r', hworld, hr, hr'⟩ := normalWrites_storeAndCreate default
    (by rw [haddress, hnormal])
  obtain ⟨hbalance, hnonce, ⟨slots, hslots, hslot⟩, hcode⟩ := written_storeAndCreate hworld hr hr'
  obtain ⟨-, hbalances, hnonces, hcodes, hstorage, -⟩ := reads_of_writesNormal hreach
  have hone : hexText (parseQuantity (hexText 1)) = "0x1" ∧ toHex 1 = "0x1" := by decide +kernel
  refine ⟨(hbalances _ _ (by decide) hbalance).trans hone.1, (hnonces _ _ hnonce).trans hone.2,
    hstorage _ _ _ _ hslots hslot, ?_⟩
  rw [← haddress]
  exact hcodes _ _ hcode

omit [Platform] in
/-- Validation leaves no trace on the node of this block. -/
theorem leaves_no_trace_storeAndCreate :
    letI := Platform.checksums
    let n := (((newRPCNode manualMining default {}).next manualMining default
      (.sendTransaction storePayment)).next manualMining default
      (.sendTransaction smallCreation)).next manualMining default .mineBlock
    n.world.Normal ∧ (∀ ω, SameState n (n.replayChain manualMining ω).2) ∧
      ∀ ω block, SameState n (n.validateBlockRecord manualMining ω block).2 := by
  let _ := Platform.checksums
  intro n
  obtain ⟨haddress, hnormal⟩ := checksums_created
  have hreach : ReachableBy manualMining (NormalWritesStep manualMining) n :=
    (normalWrites_storeAndCreate default (by rw [haddress, hnormal])).1
  clear_value n
  have hworld : n.world.Normal := hreach.keysOk.world
  obtain ⟨hreplay, hvalidate, -⟩ := (leaves_no_trace_iff hreach.reachable).mpr hworld
  exact ⟨hworld, hreplay, hvalidate⟩

/-- The address of a fresh contract is not a normal key. -/
theorem creation_not_found {n fresh : RpcNode} {ω : Choices}
    (hne : normalizeAddress (contractAddress "" "0x0") ≠ contractAddress "" "0x0")
    (hfresh : fresh = newRPCNode {} ω {}) (hn : n = fresh.next {} ω (.sendRawTransaction "0x01")) :
    Reachable {} n ∧ (∃ k ∈ n.world.code.keys, normalizeAddress k ≠ k) ∧
      ∃ b ∈ n.blocks, ∃ tx ∈ b.transactions, tx.recipient = "" ∧ tx.input = "0x01" ∧
        n.getCode (contractAddress tx.sender tx.nonce) = "0x" := by
  have hreach : ReachableBy {} (HonestStep {}) n := hn ▸ (honest_sendRaw hfresh "0x01").1
  obtain ⟨-, -, hworld, -, block, hblock, hash, number, htxs⟩ := fresh_creation hfresh "0x01" hn
  have hmissed := getCode_withCode "0x01" hne hworld
  refine ⟨hreach.reachable, ⟨contractAddress "" "0x0", ?_, hne⟩, block, hblock, _,
    htxs ▸ List.mem_cons_self, rfl, rfl, hmissed⟩
  rw [hworld]
  exact FinMap.mem_keys_insert.mpr (.inl rfl)

omit [Platform] in
/-- **A contract that is not found.** The code of a mined creation is stored under a key that
`eth_getCode` does not look up. -/
theorem getCode_misses_creation :
    letI := Platform.checksums
    let n := (newRPCNode {} default {}).next {} default (.sendRawTransaction "0x01")
    Reachable {} n ∧ (∃ k ∈ n.world.code.keys, normalizeAddress k ≠ k) ∧
      ∃ b ∈ n.blocks, ∃ tx ∈ b.transactions, tx.recipient = "" ∧ tx.input = "0x01" ∧
        n.getCode (contractAddress tx.sender tx.nonce) = "0x" :=
  @creation_not_found Platform.checksums _ _ default checksums_contractAddress.2.ne' rfl rfl

end BhtBhte.Node
