import BhtBhte.Spv.Client

/-!
# The header cache across reorganisations

The client keeps headers by height and an index from hashes to heights.  A header fetched
by its hash replaces whatever is cached at its height, and the index entry of the replaced
header stays: from then on a lookup of the old hash returns the new header.

An honest node answers with blocks, and a block has one height whatever chain it is on.
Nothing else is asked of it, so the chain may change between any two calls.
-/
namespace BhtBhte.Spv

open BhtBhte.Lib
open BhtBhte.Node (Bytes hexToHash has0xPrefix fromHex rightAlign decodeHex_hexEncode
  utf8ByteSize_hexEncode)

/-! ## Honest nodes -/

/-- The answer is the header of the block with this hash. -/
def Describes (heightOf : Bytes → UInt64) (block : Bytes) (a : HeaderAnswer) : Prop :=
  a.height = some (heightOf block) ∧ ∃ s, a.hash = some s ∧ hexToHash s = block

/-- Whenever the node answers at all, it answers for the block or the height it was asked
about.  `heightOf` gives the height of every block. -/
structure Honest (rpc : Rpc) (heightOf : Bytes → UInt64) : Prop where
  blockHash : ∀ k n s, rpc.getBlockHash k n = .ok s → heightOf (hexToHash s) = n
  verbose : ∀ k s, (rpc.getBlockHeader k (.verbose s)).err = none →
    Describes heightOf (hexToHash s) (rpc.getBlockHeader k (.verbose s))
  plain : ∀ k s, (rpc.getBlockHeader k (.plain s)).err = none →
    Describes heightOf (hexToHash s) (rpc.getBlockHeader k (.plain s))
  byHeight : ∀ k n, (rpc.getBlockHeader k (.height n)).err = none →
    ∃ block, heightOf block = n ∧ Describes heightOf block (rpc.getBlockHeader k (.height n))

theorem Describes.fill {heightOf : Bytes → UInt64} {block : Bytes} {a : HeaderAnswer}
    (h : Describes heightOf block a) (header : BHCHeader) :
    (a.fill header).height = heightOf block ∧ hexToHash (a.fill header).hash = block := by
  obtain ⟨hheight, s, hs, rfl⟩ := h
  simp [HeaderAnswer.fill, hheight, hs]

/-! ## What the lookups do -/

section
variable {rpc : Rpc} {heightOf : Bytes → UInt64} {c : Client}

theorem callHeaderByHash_spec (hrpc : Honest rpc heightOf) (hash : String) (c : Client) :
    SameCaches c (callHeaderByHash rpc hash c).2.2 ∧
      ((callHeaderByHash rpc hash c).2.1 = none →
        (callHeaderByHash rpc hash c).1.height = heightOf (hexToHash hash) ∧
          hexToHash (callHeaderByHash rpc hash c).1.hash = hexToHash hash) := by
  simp only [callHeaderByHash, callHeader]
  split
  · next hfirst =>
    refine ⟨⟨rfl, rfl⟩, fun _ => ?_⟩
    exact (hrpc.verbose c.calls hash hfirst).fill {}
  · refine ⟨⟨rfl, rfl⟩, fun hsecond => ?_⟩
    exact (hrpc.plain _ hash hsecond).fill _

theorem getBlockHash_spec (hrpc : Honest rpc heightOf) (height : UInt64) (c : Client) :
    SameCaches c (getBlockHash rpc height c).2 ∧
      ∀ s, (getBlockHash rpc height c).1 = .ok s → heightOf (hexToHash s) = height := by
  unfold getBlockHash
  split
  · refine ⟨⟨rfl, rfl⟩, fun s hs => ?_⟩
    cases hs
  · next hash hhash =>
    split
    · refine ⟨⟨rfl, rfl⟩, fun s hs => ?_⟩
      cases hs
    · refine ⟨⟨rfl, rfl⟩, fun s hs => ?_⟩
      cases hs
      exact hrpc.blockHash _ _ _ hhash

/-- A header that the calls bring in is of a block at the height asked for. -/
theorem requestHeader_spec (hrpc : Honest rpc heightOf) (height : UInt64) (c : Client) :
    SameCaches c (requestHeader rpc height c).2.2.2 ∧
      (∀ s, (requestHeader rpc height c).1 = .ok s → heightOf (hexToHash s) = height) ∧
      ((requestHeader rpc height c).2.2.1 = none →
        (requestHeader rpc height c).2.1.height = height ∧
          heightOf (hexToHash (requestHeader rpc height c).2.1.hash) = height) := by
  obtain ⟨hsame, hblock⟩ := getBlockHash_spec hrpc height c
  unfold requestHeader
  generalize getBlockHash rpc height c = got at hsame hblock
  obtain ⟨blockHash, c₁⟩ := got
  have hlast : ∀ (header : BHCHeader) (c₂ : Client), SameCaches c c₂ →
      SameCaches c (callHeader rpc (.height height) header c₂).2.2 ∧
        ((callHeader rpc (.height height) header c₂).2.1 = none →
          (callHeader rpc (.height height) header c₂).1.height = height ∧
            heightOf (hexToHash (callHeader rpc (.height height) header c₂).1.hash) = height) := by
    intro header c₂ hsame₂
    refine ⟨hsame₂, fun herr => ?_⟩
    obtain ⟨block, hblockHeight, hdesc⟩ := hrpc.byHeight c₂.calls height herr
    obtain ⟨hheight, hhash⟩ := hdesc.fill header
    exact ⟨hheight.trans hblockHeight, (congrArg heightOf hhash).trans hblockHeight⟩
  cases blockHash with
  | error e =>
      obtain ⟨h₁, h₂⟩ := hlast {} c₁ hsame
      exact ⟨h₁, hblock, h₂⟩
  | ok hash =>
      obtain ⟨hsame₂, hfound⟩ := callHeaderByHash_spec hrpc hash c₁
      have hsame' : SameCaches c (callHeaderByHash rpc hash c₁).2.2 :=
        ⟨hsame₂.1.trans hsame.1, hsame₂.2.trans hsame.2⟩
      have hheight := hblock hash rfl
      simp only
      split
      · next herr =>
        obtain ⟨h₁, h₂⟩ := hfound herr
        exact ⟨hsame', hblock, fun _ => ⟨h₁.trans hheight, (congrArg heightOf h₂).trans hheight⟩⟩
      · obtain ⟨h₁, h₂⟩ := hlast (callHeaderByHash rpc hash c₁).1 _ hsame'
        exact ⟨h₁, hblock, h₂⟩

theorem completeHeader_spec {blockHash : Except String String} {height : UInt64}
    {header : BHCHeader} (hblock : ∀ s, blockHash = .ok s → heightOf (hexToHash s) = height)
    (hheight : header.height = height) (hhash : heightOf (hexToHash header.hash) = height) :
    (completeHeader blockHash height header).height = height ∧
      heightOf (hexToHash (completeHeader blockHash height header).hash) = height := by
  unfold completeHeader
  cases blockHash with
  | error e =>
      simp only
      split
      · exact ⟨rfl, hhash⟩
      · exact ⟨hheight, hhash⟩
  | ok s =>
      have hs := hblock s rfl
      simp only
      split <;> split
      · exact ⟨rfl, hs⟩
      · exact ⟨hheight, hs⟩
      · exact ⟨rfl, hhash⟩
      · exact ⟨hheight, hhash⟩

/-- Everything `GetBlockHeader` does with an honest node. -/
inductive HeaderStep (heightOf : Bytes → UInt64) (height : UInt64) (c : Client) :
    Except String BHCHeader × Client → Prop
  | cached {header} (hcached : c.headerCache.get? height.toNat = some header) :
      HeaderStep heightOf height c (.ok header, c)
  | failed {e c'} (hsame : SameCaches c c') : HeaderStep heightOf height c (.error e, c')
  | fetched {header c'} (hsame : SameCaches c c')
      (hnone : c.headerCache.get? height.toNat = none) (hheight : header.height = height)
      (hblock : heightOf (hexToHash header.hash) = height) :
      HeaderStep heightOf height c (.ok header, c'.record height header (hexToHash header.hash))

theorem getBlockHeader_step (hrpc : Honest rpc heightOf) (height : UInt64) (c : Client) :
    HeaderStep heightOf height c (getBlockHeader rpc height c) := by
  obtain ⟨hsame, hblock, hheader⟩ := requestHeader_spec hrpc height c
  unfold getBlockHeader
  split
  · next header hcached => exact .cached hcached
  · next hnone =>
    generalize requestHeader rpc height c = got at hsame hblock hheader
    obtain ⟨blockHash, header, err, c'⟩ := got
    cases err with
    | some e => exact .failed hsame
    | none =>
        obtain ⟨hheight, hhash⟩ := hheader rfl
        obtain ⟨hheight', hhash'⟩ := completeHeader_spec hblock hheight hhash
        exact .fetched hsame hnone hheight' hhash'

/-- Everything `GetBlockHeaderByHash` does with an honest node. -/
inductive HashStep (heightOf : Bytes → UInt64) (block : Bytes) (c : Client) :
    Except String BHCHeader × Client → Prop
  | cached {header} (hcached : c.cachedByHash block = some header) :
      HashStep heightOf block c (.ok header, c)
  | failed {e c'} (hsame : SameCaches c c') : HashStep heightOf block c (.error e, c')
  | fetched {header c'} (hsame : SameCaches c c') (hheight : header.height = heightOf block)
      (hhash : hexToHash header.hash = block) :
      HashStep heightOf block c (.ok header, c'.record header.height header block)

theorem getBlockHeaderByHash_step (hrpc : Honest rpc heightOf) (hash : String) (c : Client) :
    HashStep heightOf (hexToHash hash) c (getBlockHeaderByHash rpc hash c) := by
  obtain ⟨hsame, hheader⟩ := callHeaderByHash_spec hrpc hash c
  simp only [getBlockHeaderByHash]
  split
  · next header hcached => exact .cached hcached
  · generalize callHeaderByHash rpc hash c = got at hsame hheader
    obtain ⟨header, err, c'⟩ := got
    cases err with
    | some e => exact .failed hsame
    | none =>
        obtain ⟨hheight, hhash⟩ := hheader rfl
        simp only
        split
        · exact .fetched hsame hheight rfl
        · exact .fetched hsame hheight hhash

end

/-! ## The invariants of the caches -/

/-- A cached header is at its own height, and so is its block. -/
def HeightsInv (heightOf : Bytes → UInt64) (c : Client) : Prop :=
  ∀ n header, c.headerCache.get? n = some header →
    header.height.toNat = n ∧ heightOf (hexToHash header.hash) = header.height

/-- An indexed hash leads to a cached header with that hash. -/
def IndexInv (c : Client) : Prop :=
  ∀ block height, c.hashIndex block = some height →
    ∃ header, c.headerCache.get? height.toNat = some header ∧ hexToHash header.hash = block

section
variable {heightOf : Bytes → UInt64} {c c' : Client}

theorem HeightsInv.same (hc : HeightsInv heightOf c) (hsame : SameCaches c c') :
    HeightsInv heightOf c' := by
  rw [HeightsInv, hsame.1]
  exact hc

theorem IndexInv.same (hc : IndexInv c) (hsame : SameCaches c c') : IndexInv c' := by
  rw [IndexInv, hsame.1, hsame.2]
  exact hc

theorem HeightsInv.record (hc : HeightsInv heightOf c) {header : BHCHeader} {height : UInt64}
    {block : Bytes} (hheight : header.height = height)
    (hblock : heightOf (hexToHash header.hash) = height) :
    HeightsInv heightOf (c.record height header block) := by
  intro n header' hget
  rw [Client.record_headerCache, FinMap.get?_insert] at hget
  split at hget
  · next hn =>
    cases hget
    exact ⟨by rw [hheight, hn], hblock.trans hheight.symm⟩
  · exact hc n header' hget

/-- A header may be written where nothing is cached, or a header with its hash. -/
theorem IndexInv.record (hc : IndexInv c) {header : BHCHeader} {height : UInt64}
    (hfree : ∀ old, c.headerCache.get? height.toNat = some old →
      hexToHash old.hash = hexToHash header.hash) :
    IndexInv (c.record height header (hexToHash header.hash)) := by
  intro block n hindex
  by_cases hblock : block = hexToHash header.hash
  · rw [hblock, Client.record_hashIndex, Function.update_self, Option.some.injEq] at hindex
    subst hindex
    exact ⟨header, FinMap.get?_insert_self .., hblock.symm⟩
  · rw [Client.record_hashIndex, Function.update_of_ne hblock] at hindex
    obtain ⟨old, hold, hhash⟩ := hc block n hindex
    have hne : n.toNat ≠ height.toNat := by
      intro heq
      rw [heq] at hold
      exact hblock (hhash.symm.trans (hfree old hold))
    exact ⟨old, (FinMap.get?_insert_of_ne _ _ hne).trans hold, hhash⟩

end

/-! ## Every operation -/

section
variable {rpc : Rpc} {heightOf : Bytes → UInt64} {c : Client}

/-- What a lookup by height leaves: both invariants, every cached header, and the header
it returns at its own height. -/
theorem getBlockHeader_keeps (hrpc : Honest rpc heightOf) (height : UInt64)
    (hc : HeightsInv heightOf c) :
    HeightsInv heightOf (getBlockHeader rpc height c).2 ∧
      (IndexInv c → IndexInv (getBlockHeader rpc height c).2) ∧
      (∀ n header, c.headerCache.get? n = some header →
        (getBlockHeader rpc height c).2.headerCache.get? n = some header) ∧
      ∀ header, (getBlockHeader rpc height c).1 = .ok header →
        (getBlockHeader rpc height c).2.headerCache.get? header.height.toNat = some header := by
  have hstep := getBlockHeader_step hrpc height c
  generalize getBlockHeader rpc height c = got at hstep
  cases hstep with
  | cached hcached =>
      refine ⟨hc, fun hi => hi, fun _ _ h => h, fun header h => ?_⟩
      cases h
      rw [(hc _ _ hcached).1]
      exact hcached
  | failed hsame =>
      refine ⟨hc.same hsame, fun hi => hi.same hsame, fun n header h => ?_, fun header h => ?_⟩
      · rw [hsame.1]
        exact h
      · cases h
  | @fetched header c' hsame hnone hheight hblock =>
      refine ⟨(hc.same hsame).record hheight hblock, fun hi => (hi.same hsame).record ?_,
        fun n old h => ?_, fun header' h => ?_⟩
      · intro old hold
        rw [hsame.1, hnone] at hold
        cases hold
      · have hne : n ≠ height.toNat := by
          rintro rfl
          rw [hnone] at h
          cases h
        rw [Client.record_headerCache, FinMap.get?_insert_of_ne _ _ hne, hsame.1]
        exact h
      · cases h
        rw [hheight]
        exact FinMap.get?_insert_self ..

theorem headerLoop_keeps (hrpc : Honest rpc heightOf) :
    ∀ (fuel : ℕ) (h endHeight : UInt64) (headers : List BHCHeader) (c : Client),
      HeightsInv heightOf c →
      (∀ header ∈ headers, c.headerCache.get? header.height.toNat = some header) →
      HeightsInv heightOf (headerLoop rpc fuel h endHeight headers c).2 ∧
        (IndexInv c → IndexInv (headerLoop rpc fuel h endHeight headers c).2) ∧
        ∀ all, (headerLoop rpc fuel h endHeight headers c).1 = some (.ok all) →
          ∀ header ∈ all, (headerLoop rpc fuel h endHeight headers c).2.headerCache.get?
            header.height.toNat = some header := by
  intro fuel
  induction fuel with
  | zero =>
      intro h endHeight headers c hc _
      refine ⟨hc, fun hi => hi, fun all hall => ?_⟩
      cases hall
  | succ fuel ih =>
      intro h endHeight headers c hc hcached
      rw [headerLoop]
      split
      · obtain ⟨hheights, hindex, hkeep, hreturned⟩ := getBlockHeader_keeps hrpc h hc
        generalize getBlockHeader rpc h c = got at hheights hindex hkeep hreturned
        obtain ⟨result, c'⟩ := got
        cases result with
        | error e =>
            refine ⟨hheights, hindex, fun all hall => ?_⟩
            cases hall
        | ok header =>
            have hnext : ∀ header' ∈ headers ++ [header],
                c'.headerCache.get? header'.height.toNat = some header' := by
              intro header' hmem
              rcases List.mem_append.mp hmem with hmem | hmem
              · exact hkeep _ _ (hcached header' hmem)
              · rw [List.mem_singleton.mp hmem]
                exact hreturned header rfl
            obtain ⟨h₁, h₂, h₃⟩ := ih (h + 1) endHeight (headers ++ [header]) c' hheights hnext
            exact ⟨h₁, fun hi => h₂ (hindex hi), h₃⟩
      · refine ⟨hc, fun hi => hi, fun all hall => ?_⟩
        cases hall
        exact hcached

/-- Headers that are cached at their heights are written back as they are. -/
theorem recordAll_keeps : ∀ (headers : List BHCHeader) (c : Client), HeightsInv heightOf c →
    (∀ header ∈ headers, c.headerCache.get? header.height.toNat = some header) →
    HeightsInv heightOf (recordAll headers c) ∧ (IndexInv c → IndexInv (recordAll headers c)) := by
  intro headers
  induction headers with
  | nil =>
      intro c hc _
      exact ⟨hc, fun hi => hi⟩
  | cons header headers ih =>
      intro c hc hcached
      have hhead := hcached header List.mem_cons_self
      have hsame : (c.record header.height header (hexToHash header.hash)).headerCache =
          c.headerCache := FinMap.insert_eq_self hhead
      have hheights : HeightsInv heightOf (c.record header.height header (hexToHash header.hash)) :=
        hc.record rfl (hc _ _ hhead).2
      have hrest : ∀ header' ∈ headers, (c.record header.height header
          (hexToHash header.hash)).headerCache.get? header'.height.toNat = some header' := by
        intro header' hmem
        rw [hsame]
        exact hcached header' (List.mem_cons_of_mem _ hmem)
      obtain ⟨h₁, h₂⟩ := ih (c.record header.height header (hexToHash header.hash)) hheights hrest
      refine ⟨h₁, fun hi => h₂ (hi.record ?_)⟩
      intro old hold
      rw [hhead, Option.some.injEq] at hold
      rw [hold]

theorem performHeaderSync_keeps (hrpc : Honest rpc heightOf) (fuel : ℕ)
    (hc : HeightsInv heightOf c) :
    HeightsInv heightOf (performHeaderSync rpc fuel c) ∧
      (IndexInv c → IndexInv (performHeaderSync rpc fuel c)) := by
  have hlatest : SameCaches c (getLatestHeight rpc c).2 := by
    unfold getLatestHeight
    split <;> exact ⟨rfl, rfl⟩
  unfold performHeaderSync
  generalize getLatestHeight rpc c = got at hlatest
  obtain ⟨result, c₁⟩ := got
  have hc₁ := hc.same hlatest
  cases result with
  | error e => exact ⟨hc₁, fun hi => hi.same hlatest⟩
  | ok latestHeight =>
      simp only
      split
      · generalize (if UInt64.ofNat (c₁.headerCache.keys.foldl max 0) + 1 = 0 then 1
          else UInt64.ofNat (c₁.headerCache.keys.foldl max 0) + 1) = startHeight
        have hchain : HeightsInv heightOf (getHeaderChain rpc fuel startHeight latestHeight c₁).2 ∧
            (IndexInv c₁ → IndexInv (getHeaderChain rpc fuel startHeight latestHeight c₁).2) ∧
            ∀ all, (getHeaderChain rpc fuel startHeight latestHeight c₁).1 = some (.ok all) →
              ∀ header ∈ all, (getHeaderChain rpc fuel startHeight latestHeight
                c₁).2.headerCache.get? header.height.toNat = some header := by
          unfold getHeaderChain
          split
          · refine ⟨hc₁, fun hi => hi, fun all hall => ?_⟩
            cases hall
          · exact headerLoop_keeps hrpc fuel startHeight _ [] c₁ hc₁ (by simp)
        generalize getHeaderChain rpc fuel startHeight latestHeight c₁ = chain at hchain
        obtain ⟨h₁, h₂, h₃⟩ := hchain
        split
        · next headers c₂ =>
          obtain ⟨h₄, h₅⟩ := recordAll_keeps headers c₂ h₁ (h₃ headers rfl)
          exact ⟨h₄, fun hi => h₅ (h₂ (hi.same hlatest))⟩
        · exact ⟨h₁, fun hi => h₂ (hi.same hlatest)⟩
      · exact ⟨hc₁, fun hi => hi.same hlatest⟩

end

/-! ## Runs -/

/-- The calls that fill the caches.  `fuel` bounds the rounds of one synchronisation. -/
inductive Op where
  | getBlockHeader (height : UInt64)
  | getBlockHeaderByHash (hash : String)
  | performHeaderSync (fuel : ℕ)

def Op.exec (rpc : Rpc) : Op → Client → Client
  | .getBlockHeader height, c => (Spv.getBlockHeader rpc height c).2
  | .getBlockHeaderByHash hash, c => (Spv.getBlockHeaderByHash rpc hash c).2
  | .performHeaderSync fuel, c => Spv.performHeaderSync rpc fuel c

def run (rpc : Rpc) : List Op → Client → Client
  | [], c => c
  | op :: ops, c => run rpc ops (op.exec rpc c)

/-- A lookup by hash asks for no block at whose height another block is cached. -/
def Op.heightFree (heightOf : Bytes → UInt64) : Op → Client → Prop
  | .getBlockHeaderByHash hash, c =>
    ∀ header, c.headerCache.get? (heightOf (hexToHash hash)).toNat = some header →
      hexToHash header.hash = hexToHash hash
  | _, _ => True

/-- Every lookup of a run is such. -/
def RunFree (rpc : Rpc) (heightOf : Bytes → UInt64) : List Op → Client → Prop
  | [], _ => True
  | op :: ops, c => op.heightFree heightOf c ∧ RunFree rpc heightOf ops (op.exec rpc c)

section
variable {rpc : Rpc} {heightOf : Bytes → UInt64}

theorem HeightsInv.exec (hrpc : Honest rpc heightOf) (op : Op) {c : Client}
    (hc : HeightsInv heightOf c) :
    HeightsInv heightOf (op.exec rpc c) ∧
      (op.heightFree heightOf c → IndexInv c → IndexInv (op.exec rpc c)) := by
  cases op with
  | getBlockHeader height =>
      obtain ⟨h₁, h₂, -⟩ := getBlockHeader_keeps hrpc height hc
      exact ⟨h₁, fun _ => h₂⟩
  | performHeaderSync fuel =>
      obtain ⟨h₁, h₂⟩ := performHeaderSync_keeps hrpc fuel hc
      exact ⟨h₁, fun _ => h₂⟩
  | getBlockHeaderByHash hash =>
      have hstep := getBlockHeaderByHash_step hrpc hash c
      simp only [Op.exec, Op.heightFree]
      generalize Spv.getBlockHeaderByHash rpc hash c = got at hstep
      cases hstep with
      | cached hcached => exact ⟨hc, fun _ hi => hi⟩
      | failed hsame => exact ⟨hc.same hsame, fun _ hi => hi.same hsame⟩
      | @fetched header c' hsame hheight hhash =>
          refine ⟨(hc.same hsame).record rfl (by rw [hhash, hheight]), fun hfree hi => ?_⟩
          rw [← hhash]
          refine (hi.same hsame).record ?_
          intro old hold
          rw [hsame.1, hheight] at hold
          rw [hhash]
          exact hfree old hold

theorem heightsInv_new : HeightsInv heightOf newBHCSPVClient := by
  intro n header hget
  cases hget

theorem indexInv_new : IndexInv newBHCSPVClient := by
  intro block height hindex
  cases hindex

theorem run_keeps (hrpc : Honest rpc heightOf) :
    ∀ (ops : List Op) (c : Client), HeightsInv heightOf c →
      HeightsInv heightOf (run rpc ops c) ∧
        (RunFree rpc heightOf ops c → IndexInv c → IndexInv (run rpc ops c)) := by
  intro ops
  induction ops with
  | nil =>
      intro c hc
      exact ⟨hc, fun _ hi => hi⟩
  | cons op ops ih =>
      intro c hc
      obtain ⟨h₁, h₂⟩ := hc.exec hrpc op
      obtain ⟨h₃, h₄⟩ := ih (op.exec rpc c) h₁
      exact ⟨h₃, fun hfree hi => h₄ hfree.2 (h₂ hfree.1 hi)⟩

/-- **The header cache of a client of an honest node**: on every run each header is cached
at its own height, and on every run whose lookups by hash find no other block at their
height a lookup returns a header of the hash it was given. -/
theorem headers_of_run (hrpc : Honest rpc heightOf) (ops : List Op) :
    (∀ n header, (run rpc ops newBHCSPVClient).headerCache.get? n = some header →
      header.height.toNat = n) ∧
    (RunFree rpc heightOf ops newBHCSPVClient → ∀ hash header,
      (getBlockHeaderByHash rpc hash (run rpc ops newBHCSPVClient)).1 = .ok header →
        hexToHash header.hash = hexToHash hash) := by
  obtain ⟨hheights, hindex⟩ := run_keeps hrpc ops newBHCSPVClient heightsInv_new
  refine ⟨fun n header hget => (hheights n header hget).1, ?_⟩
  intro hfree hash header hok
  have hinv := hindex hfree indexInv_new
  have hstep := getBlockHeaderByHash_step hrpc hash (run rpc ops newBHCSPVClient)
  generalize getBlockHeaderByHash rpc hash (run rpc ops newBHCSPVClient) = got at hstep hok
  cases hstep with
  | cached hcached =>
      cases hok
      rw [Client.cachedByHash, Option.bind_eq_some_iff] at hcached
      obtain ⟨height, hheight, hget⟩ := hcached
      obtain ⟨header', hget', hhash⟩ := hinv _ _ hheight
      rw [hget, Option.some.injEq] at hget'
      rw [hget']
      exact hhash
  | failed _ => cases hok
  | fetched _ _ hhash =>
      cases hok
      exact hhash

end

/-! ## A reorganisation at one height -/

/-- Digits without `0x` are read as they stand. -/
theorem hexToHash_hexEncode {b : Bytes} (h : b.length = 32) :
    hexToHash (String.ofList (hexEncode b)) = b := by
  have hpre : has0xPrefix (String.ofList (hexEncode b)) = false := by
    obtain ⟨x, rest, rfl⟩ := List.exists_cons_of_length_eq_add_one h
    have hlt := x.toNat_lt
    have hdigit : ∀ d < 16, Nat.digitChar d ≠ 'x' ∧ Nat.digitChar d ≠ 'X' := by decide
    have hlow := hdigit (x.toNat % 16) (by omega)
    simp [has0xPrefix, hasPrefix, hexEncode, List.isPrefixOf, hlow.1.symm, hlow.2.symm]
  rw [hexToHash, fromHex, hpre, if_neg Bool.false_ne_true, utf8ByteSize_hexEncode,
    if_neg (by omega), String.toList_ofList, decodeHex_hexEncode, rightAlign, h]
  rfl

theorem ofList_hexEncode_ne_empty {b : Bytes} (h : b.length = 32) :
    String.ofList (hexEncode b) ≠ "" := by
  intro hempty
  have hlength := congrArg String.length hempty
  rw [String.length_ofList, length_hexEncode, h] at hlength
  cases hlength

def oldHash : String := String.ofList (hexEncode (List.replicate 32 0xaa))
def newHash : String := String.ofList (hexEncode (List.replicate 32 0xbb))

/-- A node with two blocks at height `5`; its chain has the second one after its first two
calls. -/
def forkedRpc : Rpc where
  getBlockCount _ := .ok 5
  getBlockHash k n := if n = 5 then .ok (if k < 2 then oldHash else newHash) else .error "out of range"
  getBlockHeader _
    | .verbose s => { height := some 5, hash := some s }
    | .plain s => { height := some 5, hash := some s }
    | .height _ => { err := some "hash expected" }
  getTxOutProof _ _ _ := { err := some "not found" }

theorem honest_forkedRpc : Honest forkedRpc fun _ => 5 where
  blockHash := by
    intro k n s h
    simp only [forkedRpc] at h
    split at h
    · next hn => exact hn.symm
    · cases h
  verbose k s _ := ⟨rfl, s, rfl, rfl⟩
  plain k s _ := ⟨rfl, s, rfl, rfl⟩
  byHeight := by
    intro k n h
    cases h

theorem hexToHash_ne : hexToHash newHash ≠ hexToHash oldHash := by
  rw [newHash, oldHash, hexToHash_hexEncode (List.length_replicate ..),
    hexToHash_hexEncode (List.length_replicate ..)]
  decide

/-- The header of one of the two blocks. -/
def forkHeader (hash : String) : BHCHeader := { height := 5, hash := hash }

theorem getBlockHeader_forkedRpc (c : Client) (hcalls : c.calls = 0)
    (hnone : c.headerCache.get? 5 = none) :
    getBlockHeader forkedRpc 5 c = (.ok (forkHeader oldHash),
      { c.record 5 (forkHeader oldHash) (hexToHash oldHash) with calls := 2 }) := by
  have hold : oldHash ≠ "" := ofList_hexEncode_ne_empty (List.length_replicate ..)
  have hkey : (5 : UInt64).toNat = 5 := rfl
  simp [getBlockHeader, hkey, hnone, requestHeader, getBlockHash, forkedRpc, hcalls, hold,
    callHeaderByHash, callHeader, HeaderAnswer.fill, completeHeader, forkHeader, Client.called,
    Client.record]

theorem getBlockHeaderByHash_forkedRpc {c : Client} {hash : String} (hhash : hash ≠ "")
    (hnone : c.cachedByHash (hexToHash hash) = none) :
    getBlockHeaderByHash forkedRpc hash c = (.ok (forkHeader hash),
      { c.record 5 (forkHeader hash) (hexToHash hash) with calls := c.calls + 1 }) := by
  simp [getBlockHeaderByHash, hnone, forkedRpc, hhash, callHeaderByHash, callHeader,
    HeaderAnswer.fill, forkHeader, Client.called, Client.record]

theorem getBlockHeaderByHash_of_cached {rpc : Rpc} {c : Client} {hash : String}
    {header : BHCHeader} (hcached : c.cachedByHash (hexToHash hash) = some header) :
    (getBlockHeaderByHash rpc hash c).1 = .ok header := by
  rw [getBlockHeaderByHash, hcached]

/-- The client after it has looked the height up once. -/
theorem run_lookup : run forkedRpc [.getBlockHeader 5] newBHCSPVClient =
    { newBHCSPVClient.record 5 (forkHeader oldHash) (hexToHash oldHash) with calls := 2 } := by
  have hfirst := getBlockHeader_forkedRpc newBHCSPVClient rfl rfl
  simp only [run, Op.exec, hfirst]

theorem run_then_lookup (rpc : Rpc) (op : Op) (hash : String) (c : Client) :
    run rpc [op, .getBlockHeaderByHash hash] c =
      (getBlockHeaderByHash rpc hash (run rpc [op] c)).2 := rfl

/-- Before the reorganisation the block that was looked up is found by its hash. -/
theorem headers_of_lookup :
    ∃ header, (getBlockHeaderByHash forkedRpc oldHash
        (run forkedRpc [.getBlockHeader 5] newBHCSPVClient)).1 = .ok header ∧
      hexToHash header.hash = hexToHash oldHash := by
  have hcached : (run forkedRpc [.getBlockHeader 5] newBHCSPVClient).cachedByHash
      (hexToHash oldHash) = some (forkHeader oldHash) := by
    rw [run_lookup]
    simp [Client.cachedByHash, Client.record]
  have hok : (getBlockHeaderByHash forkedRpc oldHash
      (run forkedRpc [.getBlockHeader 5] newBHCSPVClient)).1 = .ok (forkHeader oldHash) :=
    getBlockHeaderByHash_of_cached hcached
  exact ⟨forkHeader oldHash, hok,
    (headers_of_run honest_forkedRpc [.getBlockHeader 5]).2 ⟨trivial, trivial⟩ oldHash _ hok⟩

/-- After the new block has been looked up by its hash, the old hash leads to it too. -/
theorem lookup_returns_other_block :
    ∃ header, Honest forkedRpc (fun _ => 5) ∧
      (getBlockHeaderByHash forkedRpc oldHash (run forkedRpc
        [.getBlockHeader 5, .getBlockHeaderByHash newHash] newBHCSPVClient)).1 = .ok header ∧
      hexToHash header.hash ≠ hexToHash oldHash := by
  have hne := hexToHash_ne
  have hunknown : (run forkedRpc [.getBlockHeader 5] newBHCSPVClient).cachedByHash
      (hexToHash newHash) = none := by
    rw [run_lookup]
    simp [Client.cachedByHash, Client.record, Function.update_of_ne hne, newBHCSPVClient]
  have hnew : newHash ≠ "" := ofList_hexEncode_ne_empty (List.length_replicate ..)
  have hsecond := getBlockHeaderByHash_forkedRpc hnew hunknown
  have hcached : (run forkedRpc [.getBlockHeader 5, .getBlockHeaderByHash newHash]
      newBHCSPVClient).cachedByHash (hexToHash oldHash) = some (forkHeader newHash) := by
    rw [run_then_lookup, hsecond, run_lookup]
    simp [Client.cachedByHash, Client.record, Function.update_of_ne hne.symm]
  exact ⟨forkHeader newHash, honest_forkedRpc, getBlockHeaderByHash_of_cached hcached, hne⟩

end BhtBhte.Spv
