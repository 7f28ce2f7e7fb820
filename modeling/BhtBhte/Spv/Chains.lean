import BhtBhte.Spv.Batches

/-!
# Chains of headers

`VerifyHeaderChain` compares each header with the one before it and checks the proof of work of each
one it compares, so the first header is never checked.  Heights are compared with a sum that wraps.
`GenerateHeaderProof` verifies the chain it fetched, which may start at another height than the one
asked for and stop before the end.  `headerChain_right_iff` says which accepted chains are right all
the same.
-/
namespace BhtBhte.Spv

open BhtBhte.Lib

def spvProofValidDays : Int64 := 7

/-- A proof of a range of headers. -/
structure SPVProof where
  header : BHCHeader
  proofType : String
  targetHash : String
  proofData : List String
  chainLength : UInt64
  validFrom : Int64
  validUntil : Int64
  deriving DecidableEq

/-! ## Verification -/

/-- The error of a link that does not hold. -/
def brokenAt (height : UInt64) (what : String) : String :=
  "header chain broken at height " ++ toString height.toNat ++ ": " ++ what

/-- The loop of `VerifyHeaderChain`. -/
def verifyLinks : BHCHeader → List BHCHeader → Except String Bool
  | _, [] => .ok true
  | prevHeader, currHeader :: headers =>
    if currHeader.previousHash ≠ prevHeader.hash then
      .error (brokenAt currHeader.height "previous hash mismatch")
    else if currHeader.height ≠ prevHeader.height + 1 then
      .error (brokenAt currHeader.height "height gap")
    else if !verifyProofOfWork currHeader then
      .error (brokenAt currHeader.height "insufficient proof of work")
    else verifyLinks currHeader headers

/-- Check each header against the one before it. -/
def verifyHeaderChain : List BHCHeader → Except String Bool
  | [] => .error "header chain too short"
  | first :: headers => verifyLinks first headers

/-- The proof that is made of a chain that was verified. -/
def headerProof (headers : List BHCHeader) : SPVProof :=
  let first := headers.headD {}
  let last := headers.getLastD {}
  { header := last
    proofType := "header_chain"
    targetHash := last.hash
    proofData := headers.map fun h => h.hash
    chainLength := UInt64.ofNat headers.length
    validFrom := first.time
    validUntil := last.time + spvProofValidDays * 24 * 60 * 60 }

/-- Fetch a range of headers, verify it and make a proof of it. -/
def generateHeaderProof (rpc : Rpc) (fuel : ℕ) (startHeight endHeight : UInt64) (c : Client) :
    Option (Except String SPVProof) × Client :=
  match getHeaderChain rpc fuel startHeight endHeight c with
  | (none, c) => (none, c)
  | (some (.error e), c) => (some (.error e), c)
  | (some (.ok headers), c) =>
    match verifyHeaderChain headers with
    | .ok true => (some (.ok (headerProof headers)), c)
    | _ => (some (.error "header chain verification failed"), c)

/-! ## What acceptance checks -/

/-- The checks of one round. -/
structure LinkedTo (prev curr : BHCHeader) : Prop where
  previousHash : curr.previousHash = prev.hash
  height : curr.height = prev.height + 1
  work : verifyProofOfWork curr = true

theorem verifyLinks_eq_true {first : BHCHeader} {headers : List BHCHeader} :
    verifyLinks first headers = .ok true ↔ (first :: headers).IsChain LinkedTo := by
  induction headers generalizing first with
  | nil => simp [verifyLinks]
  | cons curr headers ih =>
      rw [verifyLinks, List.isChain_cons_cons]
      constructor
      · intro h
        split_ifs at h with hprevious hheight hwork
        refine ⟨⟨not_not.mp hprevious, not_not.mp hheight, by simpa using hwork⟩, ih.mp h⟩
      · rintro ⟨hlinked, hrest⟩
        rw [if_neg (not_not.mpr hlinked.previousHash), if_neg (not_not.mpr hlinked.height),
          hlinked.work, Bool.not_true, if_neg Bool.false_ne_true, ih.mpr hrest]

/-- A proof is made of the chain that was fetched, if that is accepted. -/
theorem generateHeaderProof_eq_ok {rpc : Rpc} {fuel : ℕ} {startHeight endHeight : UInt64}
    {c : Client} {proof : SPVProof} :
    (generateHeaderProof rpc fuel startHeight endHeight c).1 = some (.ok proof) ↔
      ∃ headers, (getHeaderChain rpc fuel startHeight endHeight c).1 = some (.ok headers) ∧
        verifyHeaderChain headers = .ok true ∧ proof = headerProof headers := by
  unfold generateHeaderProof
  generalize getHeaderChain rpc fuel startHeight endHeight c = got
  obtain ⟨_ | (e | headers), c'⟩ := got
  · simp
  · simp
  · simp only [Option.some.injEq, Except.ok.injEq, exists_eq_left']
    constructor
    · intro h
      split at h
      · next haccepted =>
        cases h
        exact ⟨haccepted, rfl⟩
      · cases h
    · rintro ⟨haccepted, rfl⟩
      rw [haccepted]

/-! ## What acceptance proves -/

/-- Every header has its proof of work, and follows the one before it. -/
structure ChainRight (headers : List BHCHeader) : Prop where
  work : ∀ header ∈ headers, verifyProofOfWork header = true
  heights : headers.IsChain fun prev curr => curr.height.toNat = prev.height.toNat + 1
  linked : headers.IsChain fun prev curr => curr.previousHash = prev.hash

/-- The chain is one of headers for exactly these heights. -/
def Covers (headers : List BHCHeader) (startHeight endHeight : UInt64) : Prop :=
  headers.map (fun h => h.height.toNat) =
    List.range' startHeight.toNat (endHeight.toNat - startHeight.toNat + 1)

section
variable {first : BHCHeader} {headers : List BHCHeader}

theorem LinkedTo.work_of_chain (h : (first :: headers).IsChain LinkedTo) :
    ∀ header ∈ headers, verifyProofOfWork header = true := by
  induction headers generalizing first with
  | nil =>
      intro header hmem
      cases hmem
  | cons curr headers ih =>
      obtain ⟨hlinked, hrest⟩ := List.isChain_cons_cons.mp h
      intro header hmem
      rcases List.mem_cons.mp hmem with rfl | hmem
      · exact hlinked.work
      · exact ih hrest header hmem

/-- The heights count up until the sum wraps. -/
theorem LinkedTo.heights_iff (h : (first :: headers).IsChain LinkedTo) :
    (first :: headers).IsChain (fun prev curr => curr.height.toNat = prev.height.toNat + 1) ↔
      first.height.toNat + headers.length < 2 ^ 64 := by
  induction headers generalizing first with
  | nil => simpa using first.height.toNat_lt
  | cons curr headers ih =>
      obtain ⟨hlinked, hrest⟩ := List.isChain_cons_cons.mp h
      have hone : (1 : UInt64).toNat = 1 := rfl
      have hheight : curr.height.toNat = (first.height.toNat + 1) % 2 ^ 64 := by
        rw [hlinked.height, UInt64.toNat_add, hone]
      have hlt := first.height.toNat_lt
      rw [List.isChain_cons_cons, ih hrest, List.length_cons]
      omega

/-- **An accepted chain is right when its first header has its proof of work and the heights do
not wrap.** -/
theorem chainRight_iff (h : verifyHeaderChain (first :: headers) = .ok true) :
    ChainRight (first :: headers) ↔ verifyProofOfWork first = true ∧
      first.height.toNat + headers.length < 2 ^ 64 := by
  have hchain : (first :: headers).IsChain LinkedTo := verifyLinks_eq_true.mp h
  constructor
  · intro hright
    exact ⟨hright.work first List.mem_cons_self,
      (LinkedTo.heights_iff hchain).mp hright.heights⟩
  · rintro ⟨hwork, hsum⟩
    refine ⟨?_, (LinkedTo.heights_iff hchain).mpr hsum, ?_⟩
    · intro header hmem
      rcases List.mem_cons.mp hmem with rfl | hmem
      · exact hwork
      · exact LinkedTo.work_of_chain hchain header hmem
    · exact hchain.imp fun _ _ hlinked => hlinked.previousHash

/-- Successive heights are a range. -/
theorem heights_eq_range' :
    (first :: headers).IsChain (fun prev curr => curr.height.toNat = prev.height.toNat + 1) →
      (first :: headers).map (fun h => h.height.toNat) =
        List.range' first.height.toNat (headers.length + 1) := by
  induction headers generalizing first with
  | nil => exact fun _ => rfl
  | cons curr headers ih =>
      intro h
      obtain ⟨hheight, hrest⟩ := List.isChain_cons_cons.mp h
      rw [List.map_cons, ih hrest, hheight]
      rfl

theorem ChainRight.covers_iff (h : ChainRight (first :: headers)) {startHeight endHeight : UInt64} :
    Covers (first :: headers) startHeight endHeight ↔ first.height = startHeight ∧
      headers.length = endHeight.toNat - startHeight.toNat := by
  rw [Covers, heights_eq_range' h.heights]
  constructor
  · intro hrange
    have hlength := congrArg List.length hrange
    rw [List.length_range', List.length_range'] at hlength
    have hfirst : first.height.toNat = startHeight.toNat := by
      rw [List.range'_succ, List.range'_succ] at hrange
      exact (List.cons.inj hrange).1
    exact ⟨UInt64.toNat_inj.mp hfirst, by omega⟩
  · rintro ⟨rfl, hlength⟩
    rw [hlength]

end

/-- An accepted chain is right when its first header has its proof of work and no height wraps. -/
theorem chainRight_head_iff {headers : List BHCHeader}
    (haccepted : verifyHeaderChain headers = .ok true) : ChainRight headers ↔
      ∃ first, headers.head? = some first ∧ verifyProofOfWork first = true ∧
        first.height.toNat + headers.length ≤ 2 ^ 64 := by
  cases headers with
  | nil => cases haccepted
  | cons first headers =>
      rw [chainRight_iff haccepted]
      simp only [List.head?_cons, Option.some.injEq, exists_eq_left', List.length_cons]
      rfl

/-- A proof is one for the heights it was asked for when the header found for the first of them is
of that height and has its proof of work, and the range is not cut. -/
theorem headerProof_covers_iff {rpc : Rpc} {fuel : ℕ} {startHeight endHeight : UInt64} {c : Client}
    {proof : SPVProof}
    (hproof : (generateHeaderProof rpc fuel startHeight endHeight c).1 = some (.ok proof)) :
    (∃ headers, (getHeaderChain rpc fuel startHeight endHeight c).1 = some (.ok headers) ∧
        proof = headerProof headers ∧ ChainRight headers ∧
        Covers headers startHeight endHeight) ↔
      ∃ first, (getBlockHeader rpc startHeight c).1 = .ok first ∧
        verifyProofOfWork first = true ∧ first.height = startHeight ∧
        endHeight.toNat - startHeight.toNat ≤ 2000 := by
  obtain ⟨headers, hchain, haccepted, rfl⟩ := generateHeaderProof_eq_ok.mp hproof
  obtain ⟨hle, hfetched, hlength⟩ := getHeaderChain_eq_ok hchain
  have hle' := UInt64.le_iff_toNat_le.mp hle
  have hlast := endHeight.toNat_lt
  cases headers with
  | nil => cases haccepted
  | cons first headers =>
      obtain ⟨hfirst, -⟩ := fetched_cons.mp hfetched
      rw [List.length_cons] at hlength
      constructor
      · rintro ⟨headers', hchain', -, hright, hcovers⟩
        rw [hchain] at hchain'
        cases hchain'
        obtain ⟨hheight, hcount⟩ := hright.covers_iff.mp hcovers
        exact ⟨first, hfirst, hright.work first List.mem_cons_self, hheight, by omega⟩
      · rintro ⟨first', hfirst', hwork, hheight, hshort⟩
        rw [hfirst] at hfirst'
        cases hfirst'
        have hright := (chainRight_iff haccepted).mpr ⟨hwork, by rw [hheight]; omega⟩
        exact ⟨first :: headers, hchain, rfl, hright,
          hright.covers_iff.mpr ⟨hheight, by omega⟩⟩

/-- **When an accepted chain is right, and when a proof covers its range.** -/
theorem headerChain_right_iff (headers : List BHCHeader) (rpc : Rpc) (fuel : ℕ)
    (startHeight endHeight : UInt64) (c : Client) (proof : SPVProof) :
    (verifyHeaderChain headers = .ok true → (ChainRight headers ↔
      ∃ first, headers.head? = some first ∧ verifyProofOfWork first = true ∧
        first.height.toNat + headers.length ≤ 2 ^ 64)) ∧
    ((generateHeaderProof rpc fuel startHeight endHeight c).1 = some (.ok proof) →
      ((∃ headers, (getHeaderChain rpc fuel startHeight endHeight c).1 = some (.ok headers) ∧
          proof = headerProof headers ∧ ChainRight headers ∧
          Covers headers startHeight endHeight) ↔
        ∃ first, (getBlockHeader rpc startHeight c).1 = .ok first ∧
          verifyProofOfWork first = true ∧ first.height = startHeight ∧
          endHeight.toNat - startHeight.toNat ≤ 2000)) :=
  ⟨chainRight_head_iff, headerProof_covers_iff⟩

/-! ## Two headers of a chain -/

/-- The header at a height of a chain whose hashes repeat the height. -/
def workedHeader (h : UInt64) : BHCHeader :=
  { height := h, hash := hashText h.toUInt8, previousHash := hashText (h - 1).toUInt8,
    merkleRoot := hashText 0x22, bits := 0x207fffff }

/-- An answer with all the members of a header. -/
def HeaderAnswer.of (header : BHCHeader) : HeaderAnswer :=
  { height := some header.height, hash := some header.hash
    previousHash := some header.previousHash, merkleRoot := some header.merkleRoot
    time := some header.time, bits := some header.bits }

/-- A node that has two blocks of it. -/
def twoBlocksRpc : Rpc where
  getBlockCount _ := .ok 6
  getBlockHash _ h := .ok (hashText h.toUInt8)
  getBlockHeader _ q := match q with
    | .verbose hash => .of (workedHeader (if hash = hashText 6 then 6 else 5))
    | _ => { err := some "not found" }
  getTxOutProof _ _ _ := {}

theorem fetched_workedHeader :
    Fetched twoBlocksRpc (5 : UInt64).toNat [workedHeader 5, workedHeader 6] newBHCSPVClient := by
  refine fetched_cons.mpr ⟨by decide +kernel, ?_⟩
  exact ⟨by decide, by decide +kernel, trivial⟩

/-- Two headers with work, one linked to the other, are right, and a proof of them covers both
heights. -/
theorem headerChain_right_pair :
    ChainRight [workedHeader 5, workedHeader 6] ∧
      ∃ fuel proof, (generateHeaderProof twoBlocksRpc fuel 5 6 newBHCSPVClient).1 =
          some (.ok proof) ∧
        ∃ headers, (getHeaderChain twoBlocksRpc fuel 5 6 newBHCSPVClient).1 = some (.ok headers) ∧
          proof = headerProof headers ∧ ChainRight headers ∧ Covers headers 5 6 := by
  have haccepted : verifyHeaderChain [workedHeader 5, workedHeader 6] = .ok true := by
    decide +kernel
  have hwork : verifyProofOfWork (workedHeader 5) = true := by decide +kernel
  have hchain := getHeaderChain_ok (show (5 : UInt64) ≤ 6 by decide) fetched_workedHeader rfl
    (by decide) (Nat.lt_succ_self 2001)
  have hproof := generateHeaderProof_eq_ok.mpr ⟨_, hchain, haccepted, rfl⟩
  obtain ⟨hfirst, -⟩ := fetched_cons.mp fetched_workedHeader
  obtain ⟨hright, hcovers⟩ := headerChain_right_iff [workedHeader 5, workedHeader 6] twoBlocksRpc
    2002 5 6 newBHCSPVClient (headerProof [workedHeader 5, workedHeader 6])
  exact ⟨(hright haccepted).mpr ⟨_, rfl, hwork, by decide⟩, 2002, _, hproof,
    (hcovers hproof).mpr ⟨_, hfirst, hwork, rfl, by decide⟩⟩

/-! ## A chain without work -/

/-- A header whose target is zero has no proof of work, and is accepted as a chain of one. -/
theorem verifyHeaderChain_unworked :
    verifyHeaderChain [plainHeader 0xaa 0] = .ok true ∧
      verifyProofOfWork (plainHeader 0xaa 0) = false ∧
      ∃ fuel proof, (generateHeaderProof (oneTransactionRpc none) fuel 5 5 newBHCSPVClient).1 =
        some (.ok proof) ∧ verifyProofOfWork proof.header = false := by
  have hheader := getBlockHeader_oneTransaction none
    (show newBHCSPVClient.headerCache.get? 5 = none from rfl)
  have hfetched : Fetched (oneTransactionRpc none) (5 : UInt64).toNat
      [{ height := 5, hash := hashText 0xaa, merkleRoot := hashText 0x22 }] newBHCSPVClient :=
    fetched_cons.mpr ⟨hheader, trivial⟩
  have hchain := getHeaderChain_ok (show (5 : UInt64) ≤ 5 by decide) hfetched rfl (by decide)
    (Nat.lt_succ_self 2001)
  exact ⟨rfl, rfl, 2002, _, generateHeaderProof_eq_ok.mpr ⟨_, hchain, rfl, rfl⟩, rfl⟩

end BhtBhte.Spv
