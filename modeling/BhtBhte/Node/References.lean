import BhtBhte.Node.Roots

/-!
# Block references

`accountProof` takes a block by its number or by its hash.  Both are spelled behind `0x`, and what
is behind `0x` is read as a number, of which the low 64 bits are the height.  A hash in that form is
never looked up, and a number that is too long is cut.  `referencesAgree_iff` says on which texts
the references to a block agree.
-/
namespace BhtBhte.Node
open BhtBhte.Lib
variable [Platform]

/-! ## Numbers as text -/

omit [Platform] in
theorem parseUint_toString {v : ℕ} (h : v < 2 ^ 64) : parseUint (toString v) = some v := by
  have hlist : (toString v).toList = Nat.toDigits 10 v := String.toList_ofList
  rw [parseUint, hlist, parseDigits_toDigits (by decide) (by decide), Option.filter_some,
    if_pos (decide_eq_true h)]

omit [Platform] in
/-- A text of digits and a text behind `0x` are no reference to the head. -/
theorem isHeadRef_eq_false {t : String} (htrim : trimSpace t = t) {c : Char} {l : List Char}
    (hlist : t.toList = c :: l) (hc : c ≠ 'l' ∧ c ≠ 'p') : isHeadRef t = false := by
  have hne : ∀ s : String, s.toList.head? ≠ some c → t ≠ s := by
    rintro s hs rfl
    rw [hlist] at hs
    exact hs rfl
  have hempty : t ≠ "" := hne _ fun h => by cases h
  have hlatest : t ≠ "latest" := hne _ fun h => hc.1 (Option.some.inj h).symm
  have hpending : t ≠ "pending" := hne _ fun h => hc.2 (Option.some.inj h).symm
  simp [isHeadRef, htrim, hempty, hlatest, hpending]

omit [Platform] in
theorem toList_toHex (v : ℕ) : (toHex v).toList = '0' :: 'x' :: Nat.toDigits 16 v := by
  rw [toHex, toList_hexPrefix]

omit [Platform] in
theorem trimSpace_toHex (v : ℕ) : trimSpace (toHex v) = toHex v := by
  have hplain : ∀ c ∈ (Nat.toDigits 16 v).getLast?, isSpace c = false := fun c hc =>
    (digits_plain c (List.mem_of_mem_getLast? hc)).1
  rw [toHex, trimSpace_hexPrefix hplain]

omit [Platform] in
theorem isHeadRef_toHex (v : ℕ) : isHeadRef (toHex v) = false :=
  isHeadRef_eq_false (trimSpace_toHex v) (toList_toHex v) (by decide)

omit [Platform] in
theorem isHeadRef_toString (v : ℕ) : isHeadRef (toString v) = false := by
  have hletters : ∀ d < 10, Nat.digitChar d ≠ 'l' ∧ Nat.digitChar d ≠ 'p' := by decide
  cases hlist : (toString v).toList with
  | nil =>
      have hdigits : (toString v).toList = Nat.toDigits 10 v := String.toList_ofList
      exact absurd (hdigits.symm.trans hlist) Nat.toDigits_ne_nil
  | cons c l =>
      obtain ⟨d, hd, rfl⟩ := exists_digit_of_mem_toString (v := v) (c := c)
        (hlist ▸ List.mem_cons_self)
      exact isHeadRef_eq_false (trimSpace_toString v) hlist (hletters d hd)

/-! ## What a reference reads as -/

namespace RpcNode

/-- The height of the first block with this hash, zero when there is none. -/
def hashHeight (n : RpcNode) (t : String) : ℕ :=
  ((n.blocks.find? fun b => equalFold b.hash t).map fun b => quantity64 b.number).getD 0

/-- The text reads as this height: behind `0x` by its low 64 bits, else as a hash or a number. -/
def ReadsAs (n : RpcNode) (t : String) (k : ℕ) : Prop :=
  if hasPrefix t "0x" then quantity64 t = k
  else n.hashHeight t = k ∨ n.hashHeight t = 0 ∧ parseUint t = some k

theorem refHeight_eq (n : RpcNode) (blockRef : String) :
    n.refHeight blockRef =
      if hasPrefix (trimSpace blockRef) "0x" then quantity64 (trimSpace blockRef)
      else if n.hashHeight (trimSpace blockRef) = 0 then (parseUint (trimSpace blockRef)).getD 0
      else n.hashHeight (trimSpace blockRef) := rfl

/-- Where there is a block, the reading is the height of the reference. -/
theorem readsAs_iff {n : RpcNode} {blockRef : String} {k : ℕ} (hk : k ≠ 0) :
    n.ReadsAs (trimSpace blockRef) k ↔ n.refHeight blockRef = k := by
  rw [refHeight_eq, ReadsAs]
  split_ifs with hhex hzero
  · rfl
  · simp only [hzero, hk.symm, true_and, false_or]
    cases parseUint (trimSpace blockRef) with
    | none => simp [hk.symm]
    | some v => simp
  · simp only [hzero, false_and, or_false]

end RpcNode

/-- The number that a text spells, behind `0x` or in decimal digits. -/
def spelledNumber (t : String) : Option ℤ :=
  if hasPrefix t "0x" then some (parseQuantity t) else (parseDigits 10 t.toList).map Int.ofNat

/-- The reference is the hash or the number of the block at this height. -/
def RpcNode.Names (n : RpcNode) (blockRef : String) (k : ℕ) : Prop :=
  ∃ b, n.blockAt k = some b ∧ (equalFold b.hash blockRef = true ∨
    equalFold b.hash (trimSpace blockRef) = true ∨ spelledNumber (trimSpace blockRef) = some (k : ℤ))

/-- The snapshot records no root, or its own. -/
def KeepsRoot (s : StateSnapshotRecord) : Prop :=
  s.stateRoot = "" ∨ s.stateRoot = zeroHash ∨ equalFold s.stateRoot (stateTrieRoot s.world) = true

section
variable [TrieProofs] {cfg : Config} {n : RpcNode} {k : ℕ} {b : BlockRecord} {ω : Choices}
  {s s' : StateSnapshotRecord} {addr blockRef : String} {storageKeys : List String}

/-- The number and the hash of a block get one answer, and what names no block gets an error. -/
structure ReferencesAgree (n : RpcNode) (k : ℕ) (b : BlockRecord) (blockRef : String) : Prop where
  decimal : ∀ ω addr storageKeys, n.accountProof ω addr storageKeys (toString k) =
    n.accountProof ω addr storageKeys (toHex k)
  hash : ∀ ω addr storageKeys, n.accountProof ω addr storageKeys b.hash =
    n.accountProof ω addr storageKeys (toHex k)
  absent : isHeadRef blockRef = false → (∀ j, ¬ n.Names blockRef j) → ∀ ω addr storageKeys,
    ∃ e, n.accountProof ω addr storageKeys blockRef = .error e

/-- The current accounts prove what those of the snapshot prove. -/
def ProvesCurrent (n : RpcNode) (s : StateSnapshotRecord) : Prop :=
  ∀ ω addr storageKeys,
    proofFromSnapshot (n.currentStateSnapshot ω s.blockHash "") (normalizeAddress addr) storageKeys =
      proofFromSnapshot s (normalizeAddress addr) storageKeys

/-- No other block has the digits of the height as its hash; the hash reads as the height, or it is
a word for the head and the block is the head with nothing changed since; and a number behind
`0x` that names no block is not cut to the height of one whose snapshot keeps its root. -/
structure ReferencesRead (n : RpcNode) (k : ℕ) (b : BlockRecord) (blockRef : String) : Prop where
  decimal : n.hashHeight (toString k) = k ∨ n.hashHeight (toString k) = 0
  hash : if isHeadRef b.hash then k = n.height ∧ ∀ s, n.stateSnapshots.get? k = some s →
      ProvesCurrent n s
    else n.ReadsAs (trimSpace b.hash) k
  absent : isHeadRef blockRef = false → (∀ j, ¬ n.Names blockRef j) →
    hasPrefix (trimSpace blockRef) "0x" = true →
    ∀ s, n.stateSnapshots.get? (quantity64 (trimSpace blockRef)) = some s → ¬ KeepsRoot s

/-! ## Answers -/

/-- An answer from a snapshot says the height, also when the root does not match. -/
theorem proofFromSnapshot_cases (s : StateSnapshotRecord) (addr : String)
    (storageKeys : List String) :
    (KeepsRoot s ∧ ∃ p, proofFromSnapshot s addr storageKeys = .ok p ∧
        p.blockNumber = toHex s.height) ∨
      ¬ KeepsRoot s ∧ ∃ given computed, proofFromSnapshot s addr storageKeys =
        .error (.rootMismatch (toHex s.height) given computed) := by
  rw [proofFromSnapshot, KeepsRoot]
  split_ifs with hroot
  · refine .inr ⟨?_, _, _, rfl⟩
    tauto
  · refine .inl ⟨?_, _, rfl, rfl⟩
    tauto

/-- Answers that are equal are from one height. -/
theorem height_of_proof_eq
    (h : proofFromSnapshot s addr storageKeys = proofFromSnapshot s' addr storageKeys) :
    s.height = s'.height := by
  rcases proofFromSnapshot_cases s addr storageKeys with
    ⟨-, p, hp, hheight⟩ | ⟨-, given, computed, hp⟩
  · rcases proofFromSnapshot_cases s' addr storageKeys with
      ⟨-, p', hp', hheight'⟩ | ⟨-, given', computed', hp'⟩
    · rw [hp, hp'] at h
      cases h
      exact toHex_injective (hheight.symm.trans hheight')
    · rw [hp, hp'] at h
      cases h
  · rcases proofFromSnapshot_cases s' addr storageKeys with
      ⟨-, p', hp', hheight'⟩ | ⟨-, given', computed', hp'⟩
    · rw [hp, hp'] at h
      cases h
    · rw [hp, hp'] at h
      exact toHex_injective (AccountProofError.rootMismatch.inj (Except.error.inj h)).1

/-- A reference that reads as the height of a block is answered from its snapshot. -/
theorem accountProof_of_some (h : ChainOk n) (hhead : isHeadRef blockRef = false)
    (hs : n.stateSnapshots.get? (n.refHeight blockRef) = some s) :
    n.accountProof ω addr storageKeys blockRef =
      proofFromSnapshot s (normalizeAddress addr) storageKeys := by
  have hblock : ∃ b, n.blockAt (n.refHeight blockRef) = some b := by
    cases hat : n.blockAt (n.refHeight blockRef) with
    | some b => exact ⟨b, rfl⟩
    | none => cases hs.symm.trans (h.noSnapshot _ hat)
  obtain ⟨b, hb⟩ := hblock
  obtain ⟨s', hs', hcomplete, -⟩ := h.snapshot _ b hb
  cases hs.symm.trans hs'
  have hpos : n.refHeight blockRef ≠ 0 := by
    intro hzero
    rw [hzero] at hb
    cases hb
  rw [RpcNode.accountProof, RpcNode.snapshotForBlock, hhead, if_neg Bool.false_ne_true]
  dsimp only
  rw [if_neg hpos, hs]
  dsimp only
  rw [if_neg (not_not_intro hcomplete)]

/-- Any other reference gets an error that no snapshot gives. -/
theorem accountProof_of_none (hhead : isHeadRef blockRef = false)
    (hs : n.stateSnapshots.get? (n.refHeight blockRef) = none) (ω : Choices) (addr : String)
    (storageKeys : List String) :
    ∃ e, n.accountProof ω addr storageKeys blockRef = .error e ∧
      ∀ number given computed, e ≠ .rootMismatch number given computed := by
  rw [RpcNode.accountProof, RpcNode.snapshotForBlock, hhead, if_neg Bool.false_ne_true]
  dsimp only
  split_ifs with hzero
  · exact ⟨_, rfl, fun _ _ _ h => by cases h⟩
  · rw [hs]
    exact ⟨_, rfl, fun _ _ _ h => by cases h⟩

/-- A reference to the head is answered from the current accounts. -/
theorem accountProof_of_head (h : ChainOk n) (hhead : isHeadRef blockRef = true) :
    n.accountProof ω addr storageKeys blockRef =
      proofFromSnapshot (n.currentStateSnapshot ω n.lastBlock.hash "") (normalizeAddress addr)
        storageKeys := by
  obtain ⟨s, hs, hcomplete, -⟩ := h.snapshot _ _ h.blockAt_height
  have hnumber : quantity64 n.lastBlock.number = n.height := h.number_of_blockAt h.blockAt_height
  rw [RpcNode.accountProof, RpcNode.snapshotForBlock, hhead, if_pos rfl]
  dsimp only
  rw [hnumber, hs]
  dsimp only
  rw [if_neg (not_not_intro hcomplete)]

/-- A reference gets the answer of a block exactly when it reads as its height. -/
theorem accountProof_eq_iff (h : ChainOk n) (hb : n.blockAt k = some b)
    (hs : n.stateSnapshots.get? k = some s) (hhead : isHeadRef blockRef = false) :
    (∀ ω addr storageKeys, n.accountProof ω addr storageKeys blockRef =
        proofFromSnapshot s (normalizeAddress addr) storageKeys) ↔ n.refHeight blockRef = k := by
  have hheight : ∀ {j b' s'}, n.blockAt j = some b' → n.stateSnapshots.get? j = some s' →
      s'.height = j := by
    intro j b' s' hb' hs'
    obtain ⟨s'', hs'', -, hj, -⟩ := h.snapshot j b' hb'
    cases hs'.symm.trans hs''
    exact hj
  constructor
  · intro heq
    have hanswer := heq default "" []
    cases hother : n.stateSnapshots.get? (n.refHeight blockRef) with
    | none =>
        obtain ⟨e, herror, hne⟩ := accountProof_of_none hhead hother default "" []
        rw [herror] at hanswer
        rcases proofFromSnapshot_cases s (normalizeAddress "") [] with
          ⟨-, p, hp, -⟩ | ⟨-, given, computed, hp⟩
        · cases hanswer.trans hp
        · exact absurd (Except.error.inj (hanswer.trans hp)) (hne _ _ _)
    | some s' =>
        have hblock : ∃ b', n.blockAt (n.refHeight blockRef) = some b' := by
          cases hat : n.blockAt (n.refHeight blockRef) with
          | some b' => exact ⟨b', rfl⟩
          | none => cases hother.symm.trans (h.noSnapshot _ hat)
        obtain ⟨b', hb'⟩ := hblock
        rw [accountProof_of_some h hhead hother] at hanswer
        rw [← hheight hb' hother, ← hheight hb hs]
        exact height_of_proof_eq hanswer
  · rintro rfl ω addr storageKeys
    exact accountProof_of_some h hhead hs

omit [TrieProofs] in
/-- The number of a block behind `0x` reads as its height. -/
theorem refHeight_toHex (h : ChainOk n) (hb : n.blockAt k = some b) :
    n.refHeight (toHex k) = k := by
  have hrange := h.range_of_blockAt hb
  have hbound := h.bound
  have hprefix : hasPrefix (toHex k) "0x" = true := by rw [toHex, hasPrefix_hexPrefix]
  rw [RpcNode.refHeight_eq, trimSpace_toHex, if_pos hprefix, quantity64_toHex (by omega)]

omit [TrieProofs] in
/-- Its digits do unless they are the hash of another block. -/
theorem refHeight_toString (h : ChainOk n) (hb : n.blockAt k = some b) :
    n.refHeight (toString k) = k ↔
      n.hashHeight (toString k) = k ∨ n.hashHeight (toString k) = 0 := by
  have hrange := h.range_of_blockAt hb
  have hbound := h.bound
  have hparse := parseUint_toString (v := k) (by omega)
  have hprefix : hasPrefix (toString k) "0x" = false :=
    hasPrefix_toString (c := 'x') k (by decide) (by decide)
  rw [RpcNode.refHeight_eq, trimSpace_toString, hprefix, if_neg Bool.false_ne_true, hparse]
  split_ifs with hzero
  · exact iff_of_true rfl (.inr hzero)
  · exact ⟨.inl, fun hread => hread.resolve_right hzero⟩

omit [Platform] [TrieProofs] in
theorem exists_blockAt (h : b ∈ n.blocks) : ∃ j, n.blockAt j = some b := by
  obtain ⟨i, hi⟩ := List.mem_iff_getElem?.mp h
  exact ⟨i + 1, (if_neg (Nat.succ_ne_zero i)).trans hi⟩

omit [TrieProofs] in
/-- A reference that is not behind `0x` reads as a block only when it names it. -/
theorem noSnapshot_of_absent (h : ChainOk n) (habsent : ∀ j, ¬ n.Names blockRef j)
    (hhex : ¬ hasPrefix (trimSpace blockRef) "0x" = true) :
    n.stateSnapshots.get? (n.refHeight blockRef) = none := by
  have hhash : n.hashHeight (trimSpace blockRef) = 0 := by
    rw [RpcNode.hashHeight]
    cases hfind : n.blocks.find? fun b => equalFold b.hash (trimSpace blockRef) with
    | none => rfl
    | some b =>
        obtain ⟨j, hj⟩ := exists_blockAt (List.mem_of_find?_eq_some hfind)
        have hfold : equalFold b.hash (trimSpace blockRef) = true :=
          List.find?_some (p := fun b : BlockRecord => equalFold b.hash (trimSpace blockRef)) hfind
        exact absurd ⟨b, hj, .inr (.inl hfold)⟩ (habsent j)
  rw [RpcNode.refHeight_eq, if_neg hhex, if_pos hhash]
  refine h.noSnapshot _ ?_
  rw [parseUint]
  cases hdigits : parseDigits 10 (trimSpace blockRef).toList with
  | none => rfl
  | some v =>
      rw [Option.filter_some]
      split_ifs with hfits
      · cases hat : n.blockAt v with
        | none => exact hat
        | some b =>
            have hnumber : spelledNumber (trimSpace blockRef) = some (v : ℤ) := by
              rw [spelledNumber, if_neg hhex, hdigits]
              rfl
            exact absurd ⟨b, hat, .inr (.inr hnumber)⟩ (habsent v)
      · rfl

/-- The snapshot at the height of a long number is the answer, when it keeps its root. -/
theorem absent_iff (h : ChainOk n) (hhead : isHeadRef blockRef = false)
    (habsent : ∀ j, ¬ n.Names blockRef j) :
    (∀ ω addr storageKeys, ∃ e, n.accountProof ω addr storageKeys blockRef = .error e) ↔
      (hasPrefix (trimSpace blockRef) "0x" = true →
        ∀ s, n.stateSnapshots.get? (quantity64 (trimSpace blockRef)) = some s → ¬ KeepsRoot s) := by
  by_cases hhex : hasPrefix (trimSpace blockRef) "0x" = true
  · have hread : n.refHeight blockRef = quantity64 (trimSpace blockRef) := by
      rw [RpcNode.refHeight_eq, if_pos hhex]
    rw [← hread]
    constructor
    · intro herror _ s hs hkeeps
      obtain ⟨e, he⟩ := herror default "" []
      rw [accountProof_of_some h hhead hs] at he
      rcases proofFromSnapshot_cases s (normalizeAddress "") [] with ⟨-, p, hp, -⟩ | ⟨hnot, -⟩
      · cases hp.symm.trans he
      · exact hnot hkeeps
    · intro hroot ω addr storageKeys
      cases hs : n.stateSnapshots.get? (n.refHeight blockRef) with
      | none =>
          obtain ⟨e, he, -⟩ := accountProof_of_none hhead hs ω addr storageKeys
          exact ⟨e, he⟩
      | some s =>
          rw [accountProof_of_some h hhead hs]
          rcases proofFromSnapshot_cases s (normalizeAddress addr) storageKeys with
            ⟨hkeeps, -⟩ | ⟨-, given, computed, hp⟩
          · exact absurd hkeeps (hroot hhex s hs)
          · exact ⟨_, hp⟩
  · refine iff_of_true (fun ω addr storageKeys => ?_) fun hyes => absurd hyes hhex
    obtain ⟨e, he, -⟩ := accountProof_of_none hhead (noSnapshot_of_absent h habsent hhex) ω addr
      storageKeys
    exact ⟨e, he⟩

/-- The number of a block is answered from its snapshot. -/
theorem accountProof_toHex (h : ChainOk n) (hb : n.blockAt k = some b) {s : StateSnapshotRecord}
    (hs : n.stateSnapshots.get? k = some s) (ω : Choices) (addr : String)
    (storageKeys : List String) :
    n.accountProof ω addr storageKeys (toHex k) =
      proofFromSnapshot s (normalizeAddress addr) storageKeys :=
  (accountProof_eq_iff h hb hs (isHeadRef_toHex k)).mpr (refHeight_toHex h hb) ω addr storageKeys

/-- The decimal number agrees unless it is the hash of another block. -/
theorem decimal_agrees_iff (h : ChainOk n) (hb : n.blockAt k = some b) :
    (∀ ω addr storageKeys, n.accountProof ω addr storageKeys (toString k) =
      n.accountProof ω addr storageKeys (toHex k)) ↔
      n.hashHeight (toString k) = k ∨ n.hashHeight (toString k) = 0 := by
  obtain ⟨s, hs, -⟩ := h.snapshot k b hb
  simp only [accountProof_toHex h hb hs]
  rw [accountProof_eq_iff h hb hs (isHeadRef_toString k), refHeight_toString h hb]

/-- A word for the head agrees where the current state still proves what the snapshot does. -/
theorem head_agrees_iff (h : ChainOk n) (hb : n.blockAt k = some b) {blockRef : String}
    (hhead : isHeadRef blockRef = true) :
    (∀ ω addr storageKeys, n.accountProof ω addr storageKeys blockRef =
      n.accountProof ω addr storageKeys (toHex k)) ↔
      k = n.height ∧ ∀ s, n.stateSnapshots.get? k = some s → ProvesCurrent n s := by
  obtain ⟨s, hs, -, hheight, hhash, -⟩ := h.snapshot k b hb
  simp only [accountProof_toHex h hb hs, accountProof_of_head h hhead]
  have hlast : k = n.height → n.lastBlock.hash = s.blockHash := by
    rintro rfl
    rw [h.blockAt_height] at hb
    cases hb
    exact hhash.symm
  constructor
  · intro heq
    have hheights : (n.currentStateSnapshot default n.lastBlock.hash "").height = s.height :=
      height_of_proof_eq (heq default "" [])
    have hk : k = n.height := (hheights.trans hheight).symm
    refine ⟨hk, fun s' hs' => ?_⟩
    cases hs.symm.trans hs'
    rw [hlast hk] at heq
    exact heq
  · rintro ⟨hk, hproves⟩ ω addr storageKeys
    rw [hlast hk]
    exact hproves s hs ω addr storageKeys

/-- The hash agrees where it reads as the number. -/
theorem hash_agrees_iff (h : ChainOk n) (hb : n.blockAt k = some b) :
    (∀ ω addr storageKeys, n.accountProof ω addr storageKeys b.hash =
      n.accountProof ω addr storageKeys (toHex k)) ↔
      if isHeadRef b.hash then k = n.height ∧ ∀ s, n.stateSnapshots.get? k = some s →
        ProvesCurrent n s
      else n.ReadsAs (trimSpace b.hash) k := by
  split_ifs with hhead
  · exact head_agrees_iff h hb hhead
  · obtain ⟨s, hs, -⟩ := h.snapshot k b hb
    have hpos : k ≠ 0 := by
      have hrange := h.range_of_blockAt hb
      omega
    simp only [accountProof_toHex h hb hs]
    rw [Bool.not_eq_true] at hhead
    rw [accountProof_eq_iff h hb hs hhead, RpcNode.readsAs_iff hpos]

/-- **The references to a block agree, and what names no block gets an error, exactly when their
texts read so.** -/
theorem referencesAgree_iff (h : Reachable cfg n) (hb : n.blockAt k = some b) (blockRef : String) :
    ReferencesAgree n k b blockRef ↔ ReferencesRead n k b blockRef := by
  have hchain := h.chainOk
  have hdecimal := decimal_agrees_iff hchain hb
  have hhash := hash_agrees_iff hchain hb
  constructor
  · rintro ⟨hd, hh, ha⟩
    exact ⟨hdecimal.mp hd, hhash.mp hh, fun hhead habsent =>
      (absent_iff hchain hhead habsent).mp (ha hhead habsent)⟩
  · rintro ⟨hd, hh, ha⟩
    exact ⟨hdecimal.mpr hd, hhash.mpr hh, fun hhead habsent =>
      (absent_iff hchain hhead habsent).mpr (ha hhead habsent)⟩

/-- A number behind `0x` is answered from the height of its low 64 bits. -/
theorem accountProof_of_long_number (h : ChainOk n) (hb : n.blockAt k = some b) (high : ℕ) :
    ∃ s, n.stateSnapshots.get? k = some s ∧ ∀ ω addr storageKeys,
      n.accountProof ω addr storageKeys (toHex (2 ^ 64 * high + k)) =
        proofFromSnapshot s (normalizeAddress addr) storageKeys := by
  obtain ⟨s, hs, -⟩ := h.snapshot k b hb
  have hrange := h.range_of_blockAt hb
  have hbound := h.bound
  have hprefix : hasPrefix (toHex (2 ^ 64 * high + k)) "0x" = true := by
    rw [toHex, hasPrefix_hexPrefix]
  have hread : n.refHeight (toHex (2 ^ 64 * high + k)) = k := by
    rw [RpcNode.refHeight_eq, trimSpace_toHex, if_pos hprefix, quantity64, parseQuantity_toHex,
      bigUint64, Int.natAbs_natCast, Nat.mul_add_mod, Nat.mod_eq_of_lt (by omega)]
  refine ⟨s, hs, fun ω addr storageKeys => accountProof_of_some h (isHeadRef_toHex _) ?_⟩
  rw [hread]
  exact hs

end

/-! ## A fresh node -/

theorem blockAt_newRPCNode (cfg : Config) (ω : Choices) :
    (newRPCNode cfg ω {}).blockAt 1 = some (freshGenesis ω) ∧
      ∀ j b, (newRPCNode cfg ω {}).blockAt j = some b → j = 1 ∧ b = freshGenesis ω := by
  obtain ⟨ω₁, l, timestamp, heq, -⟩ := newRPCNode_fresh cfg ω
  rw [heq]
  refine ⟨rfl, fun j b hb => ?_⟩
  match j, hb with
  | 1, hb => exact ⟨rfl, (Option.some.inj hb).symm⟩
  | 0, hb => cases hb
  | j + 2, hb => cases hb

/-- One more digit in front of the genesis block's number. -/
theorem accountProof_long_one [TrieProofs]
    (hfold : equalFold (hashHex (utf8 "bhte-genesis")) (toHex (2 ^ 64 + 1)) = false) (ω : Choices) :
    (∀ j, ¬ (newRPCNode {} ω {}).Names (toHex (2 ^ 64 + 1)) j) ∧
      ∃ p, (newRPCNode {} ω {}).accountProof ω defaultAccount [] (toHex (2 ^ 64 + 1)) = .ok p ∧
        p.blockHash = (freshGenesis ω).hash := by
  obtain ⟨hat, honly⟩ := blockAt_newRPCNode {} ω
  constructor
  · rintro j ⟨b, hb, hnames⟩
    obtain ⟨rfl, rfl⟩ := honly j b hb
    rw [trimSpace_toHex, spelledNumber, toHex, hasPrefix_hexPrefix, ← toHex, if_pos rfl,
      parseQuantity_toHex] at hnames
    have hhash : (freshGenesis ω).hash = hashHex (utf8 "bhte-genesis") := rfl
    rw [hhash, hfold] at hnames
    revert hnames
    decide
  · have hreach : Reachable {} (newRPCNode {} ω {}) := ⟨ω, .refl⟩
    obtain ⟨s, hs, hanswer⟩ := accountProof_of_long_number hreach.chainOk hat 1
    obtain ⟨s', hs', -, -, hhash, -⟩ := hreach.chainOk.snapshot 1 _ hat
    cases hs.symm.trans hs'
    obtain ⟨p, hp, -, hblock, -⟩ := proofFromSnapshot_ok (.inr (rootsOk_fresh genesisFunded_default
      ω 1 s hs)) (normalizeAddress defaultAccount) []
    exact ⟨p, (hanswer ω defaultAccount []).trans hp, hblock.trans hhash⟩

theorem hash_freshGenesis (ω : Choices) : (freshGenesis ω).hash =
    "0x" ++ String.ofList (hexEncode (Platform.sha256 (utf8 "bhte-genesis"))) := by
  have hhash : (freshGenesis ω).hash = hashHex (utf8 "bhte-genesis") := rfl
  rw [hhash, hashHex, hexString]

/-- What is behind `0x` is read as a number, so a hash gets an error there. -/
theorem accountProof_hexPrefix [TrieProofs] {l : List Char} (hplain : ∀ c ∈ l, isSpace c = false)
    (hnumber : quantity64 ("0x" ++ String.ofList l) ≠ 1) (ω : Choices) :
    ∃ e, (newRPCNode {} ω {}).accountProof ω defaultAccount [] ("0x" ++ String.ofList l) =
      .error e := by
  have hreach : Reachable {} (newRPCNode {} ω {}) := ⟨ω, .refl⟩
  have htrim : trimSpace ("0x" ++ String.ofList l) = "0x" ++ String.ofList l :=
    trimSpace_hexPrefix fun c hc => hplain c (List.mem_of_mem_getLast? hc)
  have hread : (newRPCNode {} ω {}).refHeight ("0x" ++ String.ofList l) ≠ 1 := by
    rw [RpcNode.refHeight_eq, htrim, if_pos (hasPrefix_hexPrefix _)]
    exact hnumber
  have hnone : (newRPCNode {} ω {}).blockAt ((newRPCNode {} ω {}).refHeight
      ("0x" ++ String.ofList l)) = none := by
    refine Option.eq_none_iff_forall_not_mem.mpr fun b hb => hread ?_
    exact ((blockAt_newRPCNode {} ω).2 _ b hb).1
  obtain ⟨e, he, -⟩ := accountProof_of_none
    (isHeadRef_eq_false htrim (toList_hexPrefix _) (by decide))
    (hreach.chainOk.noSnapshot _ hnone) ω defaultAccount []
  exact ⟨e, he⟩

omit [Platform] in
/-- `0x10000000000000001` is no block's number and gets the genesis block's accounts; the hash of
the genesis block gets an error. -/
theorem not_referencesAgree_long_one :
    letI := Platform.checksums
    letI := TrieProofs.oneBlob
    let n := newRPCNode {} default {}
    Reachable {} n ∧ n.blockAt 1 = some (freshGenesis default) ∧
      ¬ ReferencesAgree n 1 (freshGenesis default) "0x10000000000000001" ∧
      ∃ e, n.accountProof default defaultAccount [] (freshGenesis default).hash = .error e := by
  let _ := Platform.checksums
  let _ := TrieProofs.oneBlob
  have href : "0x10000000000000001" = toHex (2 ^ 64 + 1) := by decide +kernel
  have hfold : equalFold (hashHex (utf8 "bhte-genesis")) (toHex (2 ^ 64 + 1)) = false := by
    rw [← href]
    decide +kernel
  have hnumber : quantity64 ("0x" ++ String.ofList (hexEncode (Platform.sha256
      (utf8 "bhte-genesis")))) ≠ 1 := by decide +kernel
  refine ⟨⟨default, .refl⟩, (blockAt_newRPCNode {} default).1, fun hagree => ?_, ?_⟩
  swap
  · rw [hash_freshGenesis]
    refine accountProof_hexPrefix (fun c hc => ?_) hnumber default
    obtain ⟨d, hd, rfl⟩ := exists_digitChar_of_mem_hexEncode c hc
    exact (digitChar_plain d hd).2.2.1
  rw [href] at hagree
  obtain ⟨habsent, p, hp, -⟩ := accountProof_long_one hfold default
  obtain ⟨e, he⟩ := hagree.absent (isHeadRef_toHex _) habsent default defaultAccount []
  cases hp.symm.trans he

omit [Platform] in
/-- On the block of a transfer. -/
theorem referencesAgree_iff_wholeTransfer :
    letI := Platform.checksums
    letI := TrieProofs.oneBlob
    let n := ((newRPCNode manualMining default {}).next manualMining default
      (.sendTransaction wholeTransfer)).next manualMining default .mineBlock
    ∃ b, n.blockAt 2 = some b ∧
      ∀ blockRef, ReferencesAgree n 2 b blockRef ↔ ReferencesRead n 2 b blockRef := by
  let _ := Platform.checksums
  let _ := TrieProofs.oneBlob
  obtain ⟨b, hb⟩ := blockAt_wholeTransfer default
  have hreach := @run_wholeTransfer _ (fun _ _ _ => True) default trivial trivial
  exact ⟨b, hb, referencesAgree_iff hreach.reachable hb⟩

end BhtBhte.Node
