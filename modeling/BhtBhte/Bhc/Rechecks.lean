import BhtBhte.Bhc.Anchors
import BhtBhte.Lib.Runs

/-!
# Anchors that are checked again

`extractAnchorFromHeader` reads a Merkle root in any spelling, and `verifyRecentAnchors` compares
the text with one spelling of the root.  So anchors stay verified exactly where every header has its
root in that spelling.  The heights to fetch start at a difference that wraps when the chain has one
or two blocks.  `anchors_iff` says when both hold.
-/
namespace BhtBhte.Bhc

open BhtBhte.Lib
open BhtBhte.Channel (Hash hashHex)
open BhtBhte.Node (hexToHash_hexString toList_hexPrefix)

variable {rpc : Rpc} {v : AnchorVerifier} {headers : UInt64 → BHCBlockHeader}

/-- While the pass runs the node answers from these headers. -/
def Answers (headers : UInt64 → BHCBlockHeader) (rpc : Rpc) : Prop :=
  ∀ h header, rpc.getBlockHeader h = .ok header → header = headers h

/-- Whatever the order of the passes, every anchor is verified. -/
def KeepsVerified (headers : UInt64 → BHCBlockHeader) : Prop :=
  ∀ ops, (∀ op ∈ ops, Answers headers op.rpc) →
    ∀ (h : ℕ) anchor, (run ops newAnchorVerifier).anchors.get? h = some anchor →
      anchor.verified = true

/-- A pass asks for every height from three below the latest, or from zero, up to it. -/
def FetchesRecent (latestHeight : UInt64) : Prop :=
  ∀ k : UInt64, latestHeight.toNat - minConfirmations.toNat ≤ k.toNat → k ≤ latestHeight →
    ∃ fuel, k ∈ fetchedHeights fuel latestHeight

/-- The spelling of `Hash.Hex`: a prefix and 64 lower-case digits. -/
def Canonical (s : String) : Prop := ∃ root, s = hashHex root

theorem hashOf_hashHex (root : Hash) : hashOf (hashHex root) = root :=
  Subtype.ext (hexToHash_hexString root.2)

theorem canonical_iff {s : String} : Canonical s ↔ s = hashHex (hashOf s) := by
  constructor
  · rintro ⟨root, rfl⟩
    rw [hashOf_hashHex]
  · exact fun h => ⟨_, h⟩

/-! ## Canonical roots -/

/-- Every anchor is the one of the header at its height. -/
def Fetched (headers : UInt64 → BHCBlockHeader) (v : AnchorVerifier) : Prop :=
  ∀ (n : ℕ) anchor, v.anchors.get? n = some anchor →
    ∃ h : UInt64, h.toNat = n ∧ anchor = extractAnchorFromHeader (headers h)

theorem getBlockHeader_eq_ok {h : UInt64} {header : BHCBlockHeader}
    (hok : getBlockHeader rpc h = .ok header) : rpc.getBlockHeader h = .ok header := by
  unfold getBlockHeader at hok
  split at hok
  · cases hok
  · next hgot => rwa [hgot]

theorem Fetched.fetchAnchor (hv : Fetched headers v) (hrpc : Answers headers rpc) (h : UInt64) :
    Fetched headers (fetchAnchorAtHeight rpc v h) := by
  unfold fetchAnchorAtHeight
  split
  · exact hv
  · next header hgot =>
    intro n anchor hanchor
    rw [FinMap.get?_insert] at hanchor
    split_ifs at hanchor with hn
    · refine ⟨h, hn.symm, ?_⟩
      rw [← hrpc h header (getBlockHeader_eq_ok hgot)]
      exact (Option.some.inj hanchor).symm
    · exact hv n anchor hanchor

/-- A canonical root is not found to differ. -/
theorem Fetched.recheck_eq (hv : Fetched headers v) (hrpc : Answers headers rpc)
    (hroots : ∀ h, Canonical (headers h).merkleRoot) (h : UInt64) : recheckAnchor rpc v h = v := by
  unfold recheckAnchor
  split
  · rfl
  · next anchor hanchor =>
    obtain ⟨h', hh', rfl⟩ := hv _ _ hanchor
    obtain rfl : h' = h := UInt64.toNat_inj.mp hh'
    split
    · rfl
    · next header hgot =>
      rw [hrpc h' header (getBlockHeader_eq_ok hgot)]
      exact if_neg (not_not.mpr (canonical_iff.mp (hroots h')))

theorem Fetched.exec (hv : Fetched headers v) {op : Op} (hrpc : Answers headers op.rpc)
    (hroots : ∀ h, Canonical (headers h).merkleRoot) : Fetched headers (exec op v) := by
  cases op with
  | fetchLatestAnchors rpc fuel =>
      simp only [Bhc.exec, fetchLatestAnchors]
      split
      · exact hv
      · exact List.foldlRecOn _ _ hv fun _ hw h _ => hw.fetchAnchor hrpc h
  | verifyRecentAnchors rpc fuel =>
      simp only [Bhc.exec, verifyRecentAnchors]
      split_ifs
      · exact hv
      · refine List.foldlRecOn _ _ hv fun w hw h _ => ?_
        have hsame : recheckAnchor rpc w h = w := hw.recheck_eq hrpc hroots h
        rwa [hsame]

/-! ## Other roots -/

/-- A node that answers for every height. -/
def fullRpc (headers : UInt64 → BHCBlockHeader) (latestHeight : UInt64) : Rpc where
  getBlockCount := .ok latestHeight
  getBlockHeader h := .ok (headers h)

theorem answers_fullRpc (latestHeight : UInt64) : Answers headers (fullRpc headers latestHeight) :=
  fun _ _ hok => (Except.ok.inj hok).symm

section
variable {latestHeight h : UInt64} {anchor : AnchorRecord}

/-- The anchor of every height that was asked for is there. -/
theorem get?_foldl_fetch (l : List UInt64) : ∀ v : AnchorVerifier,
    (h ∈ l ∨ v.anchors.get? h.toNat = some (extractAnchorFromHeader (headers h))) →
      (l.foldl (fetchAnchorAtHeight (fullRpc headers latestHeight)) v).anchors.get? h.toNat =
        some (extractAnchorFromHeader (headers h)) := by
  induction l with
  | nil =>
      intro v hv
      exact hv.resolve_left List.not_mem_nil
  | cons k l ih =>
      intro v hv
      refine ih _ ?_
      by_cases hk : h = k
      · subst hk
        exact .inr (FinMap.get?_insert_self ..)
      · refine hv.imp (fun hmem => (List.mem_cons.mp hmem).resolve_left hk) fun hget => ?_
        have hne : h.toNat ≠ k.toNat := fun heq => hk (UInt64.toNat_inj.mp heq)
        exact (FinMap.get?_insert_of_ne _ _ hne).trans hget

theorem latestHeight_foldl_fetch (l : List UInt64) : ∀ v : AnchorVerifier,
    (l.foldl (fetchAnchorAtHeight (fullRpc headers latestHeight)) v).latestHeight =
      v.latestHeight := by
  induction l with
  | nil => exact fun _ => rfl
  | cons k l ih => exact fun v => ih _

/-- A root in another spelling is found to differ. -/
theorem recheck_differs (hroot : ¬ Canonical (headers h).merkleRoot)
    (hget : v.anchors.get? h.toNat = some anchor)
    (hstate : anchor.stateRoot = hashOf (headers h).merkleRoot) :
    recheckAnchor (fullRpc headers latestHeight) v h =
      { v with anchors := v.anchors.insert h.toNat { anchor with verified := false } } := by
  have hok : getBlockHeader (fullRpc headers latestHeight) h = .ok (headers h) := rfl
  have hne : (headers h).merkleRoot ≠ hashHex anchor.stateRoot := by
    rw [hstate]
    exact fun heq => hroot (canonical_iff.mpr heq)
  unfold recheckAnchor
  rw [hget]
  simp only [hok]
  exact if_pos hne

theorem get?_recheck_of_ne {k : UInt64} (hk : h ≠ k) :
    (recheckAnchor rpc v k).anchors.get? h.toNat = v.anchors.get? h.toNat := by
  have hne : h.toNat ≠ k.toNat := fun heq => hk (UInt64.toNat_inj.mp heq)
  unfold recheckAnchor
  split
  · rfl
  · split
    · rfl
    · split_ifs
      · exact FinMap.get?_insert_of_ne _ _ hne
      · rfl

/-- Once its height comes up the anchor is not verified any more. -/
theorem get?_foldl_recheck (hroot : ¬ Canonical (headers h).merkleRoot) (l : List UInt64) :
    ∀ (v : AnchorVerifier) (anchor : AnchorRecord), v.anchors.get? h.toNat = some anchor →
      anchor.stateRoot = hashOf (headers h).merkleRoot → (h ∈ l ∨ anchor.verified = false) →
        ∃ anchor', (l.foldl (recheckAnchor (fullRpc headers latestHeight)) v).anchors.get?
          h.toNat = some anchor' ∧ anchor'.verified = false := by
  induction l with
  | nil =>
      intro v anchor hget _ hv
      exact ⟨anchor, hget, hv.resolve_left List.not_mem_nil⟩
  | cons k l ih =>
      intro v anchor hget hstate hv
      rw [List.foldl_cons]
      by_cases hk : h = k
      · subst hk
        refine ih _ { anchor with verified := false } ?_ hstate (.inr rfl)
        rw [recheck_differs hroot hget hstate]
        exact FinMap.get?_insert_self ..
      · refine ih _ anchor ((get?_recheck_of_ne hk).trans hget) hstate ?_
        exact hv.imp_left fun hmem => (List.mem_cons.mp hmem).resolve_left hk

end

/-! ## The heights of a pass -/

theorem toNat_minConfirmations : minConfirmations.toNat = 3 := rfl

/-- Three blocks and more: the range starts three below the latest height. -/
theorem fetchStart_of_le {n : UInt64} (hmin : minConfirmations ≤ n) :
    fetchStart n = n - minConfirmations ∧
      (n - minConfirmations).toNat = n.toNat - minConfirmations.toNat := by
  have hmin' := UInt64.le_iff_toNat_le.mp hmin
  rw [toNat_minConfirmations] at hmin'
  have hpos : n > 0 := UInt64.lt_iff_toNat_lt.mpr (show 0 < n.toNat by omega)
  exact ⟨if_pos hpos, UInt64.toNat_sub_of_le _ _ hmin⟩

/-- Every height is one that both passes visit, at some latest height. -/
theorem exists_latestHeight (h : UInt64) : ∃ latestHeight fuel,
    minConfirmations ≤ latestHeight ∧ h ∈ fetchedHeights fuel latestHeight ∧
      h ∈ rounds fuel (latestHeight - minConfirmations) latestHeight := by
  have hin : ∃ n, minConfirmations ≤ n ∧ n - minConfirmations ≤ h ∧ h ≤ n := by
    by_cases hsmall : h.toNat < 3
    · have hsum : (h + minConfirmations).toNat = h.toNat + 3 := by
        rw [UInt64.toNat_add, toNat_minConfirmations, Nat.mod_eq_of_lt (by omega)]
      refine ⟨h + minConfirmations, ?_, ?_, ?_⟩
      · rw [UInt64.le_iff_toNat_le, hsum, toNat_minConfirmations]
        omega
      · exact UInt64.le_of_eq (UInt64.add_sub_cancel ..)
      · rw [UInt64.le_iff_toNat_le, hsum]
        omega
    · have hmin : minConfirmations ≤ h := by
        rw [UInt64.le_iff_toNat_le, toNat_minConfirmations]
        omega
      refine ⟨h, hmin, ?_, UInt64.le_refl h⟩
      rw [UInt64.le_iff_toNat_le, (fetchStart_of_le hmin).2]
      omega
  obtain ⟨n, hmin, hlow, hhigh⟩ := hin
  obtain ⟨fuel, hmem⟩ := (exists_mem_rounds_iff hlow).mpr hhigh
  refine ⟨n, fuel, hmin, ?_, hmem⟩
  rwa [fetchedHeights, (fetchStart_of_le hmin).1]

theorem fetchesRecent_iff (n : UInt64) : FetchesRecent n ↔ n ≠ 1 ∧ n ≠ 2 := by
  constructor
  · intro hrecent
    obtain ⟨fuel, hmem⟩ := hrecent n (Nat.sub_le _ _) (UInt64.le_refl n)
    refine ⟨?_, ?_⟩
    · rintro rfl
      rw [fetchedHeights, rounds_of_lt (by decide)] at hmem
      cases hmem
    · rintro rfl
      rw [fetchedHeights, rounds_of_lt (by decide)] at hmem
      cases hmem
  · rintro ⟨hone, htwo⟩ k hlow hhigh
    refine (exists_mem_rounds_iff ?_).mpr hhigh
    by_cases hmin : minConfirmations ≤ n
    · obtain ⟨hstart, hsub⟩ := fetchStart_of_le hmin
      rw [hstart, UInt64.le_iff_toNat_le, hsub]
      exact hlow
    · have hzero : n = 0 := by
        rw [UInt64.le_iff_toNat_le, toNat_minConfirmations] at hmin
        have hone' : n.toNat ≠ 1 := fun heq => hone (UInt64.toNat_inj.mp heq)
        have htwo' : n.toNat ≠ 2 := fun heq => htwo (UInt64.toNat_inj.mp heq)
        exact UInt64.toNat_inj.mp (show n.toNat = 0 by omega)
      rw [hzero]
      exact UInt64.le_iff_toNat_le.mpr (Nat.zero_le _)

/-! ## Both jobs -/

/-- One pass of each job over the same heights. -/
def bothPasses (headers : UInt64 → BHCBlockHeader) (latestHeight : UInt64) (fuel : ℕ) : List Op :=
  [.fetchLatestAnchors (fullRpc headers latestHeight) fuel,
    .verifyRecentAnchors (fullRpc headers latestHeight) fuel]

theorem answers_bothPasses (latestHeight : UInt64) (fuel : ℕ) :
    ∀ op ∈ bothPasses headers latestHeight fuel, Answers headers op.rpc := by
  intro op hop
  simp only [bothPasses, List.mem_cons, List.not_mem_nil, or_false] at hop
  rcases hop with rfl | rfl
  · exact answers_fullRpc latestHeight
  · exact answers_fullRpc latestHeight

theorem run_bothPasses (latestHeight : UInt64) (fuel : ℕ) (hmin : minConfirmations ≤ latestHeight) :
    run (bothPasses headers latestHeight fuel) newAnchorVerifier =
      (rounds fuel (latestHeight - minConfirmations) latestHeight).foldl
        (recheckAnchor (fullRpc headers latestHeight))
        ((fetchedHeights fuel latestHeight).foldl
          (fetchAnchorAtHeight (fullRpc headers latestHeight)) ⟨∅, latestHeight⟩) := by
  have hlatest := @latestHeight_foldl_fetch headers latestHeight
    (fetchedHeights fuel latestHeight) ⟨∅, latestHeight⟩
  have hfirst : run (bothPasses headers latestHeight fuel) newAnchorVerifier =
      verifyRecentAnchors (fullRpc headers latestHeight) fuel
        ((fetchedHeights fuel latestHeight).foldl
          (fetchAnchorAtHeight (fullRpc headers latestHeight)) ⟨∅, latestHeight⟩) := rfl
  rw [hfirst, verifyRecentAnchors, hlatest, if_neg (UInt64.not_lt.mpr hmin)]

/-- A root in another spelling: its anchor does not stay verified. -/
theorem exists_unverified {h : UInt64} (hroot : ¬ Canonical (headers h).merkleRoot) :
    ∃ latestHeight fuel anchor,
      (run (bothPasses headers latestHeight fuel) newAnchorVerifier).anchors.get? h.toNat =
        some anchor ∧ anchor.verified = false := by
  obtain ⟨latestHeight, fuel, hmin, hfetched, hrechecked⟩ := exists_latestHeight h
  have hget := @get?_foldl_fetch headers latestHeight h _ ⟨∅, latestHeight⟩ (.inl hfetched)
  obtain ⟨anchor, hanchor, hunverified⟩ :=
    @get?_foldl_recheck headers latestHeight h hroot _ _ _ hget rfl (.inl hrechecked)
  rw [← run_bothPasses latestHeight fuel hmin] at hanchor
  exact ⟨latestHeight, fuel, anchor, hanchor, hunverified⟩

theorem keepsVerified_iff : KeepsVerified headers ↔ ∀ h, Canonical (headers h).merkleRoot := by
  constructor
  · intro hkeeps h
    by_contra hroot
    obtain ⟨latestHeight, fuel, anchor, hanchor, hunverified⟩ := exists_unverified hroot
    have hverified := hkeeps _ (answers_bothPasses latestHeight fuel) _ _ hanchor
    rw [hunverified] at hverified
    cases hverified
  · intro hroots ops hops n anchor hanchor
    have hfetched : Fetched headers (run ops newAnchorVerifier) := by
      refine List.foldlRecOn _ _ ?_ fun w hw op hop => hw.exec (hops op hop) hroots
      intro n anchor hanchor
      cases hanchor
    obtain ⟨h, -, rfl⟩ := hfetched n anchor hanchor
    rfl

/-- **Anchors stay verified exactly when every header spells its root as `Hash.Hex` does, and a
pass asks for all recent heights exactly when the latest is neither one nor two.** -/
theorem anchors_iff (headers : UInt64 → BHCBlockHeader) (n : UInt64) :
    (KeepsVerified headers ↔ ∀ h, Canonical (headers h).merkleRoot) ∧
      (FetchesRecent n ↔ n ≠ 1 ∧ n ≠ 2) :=
  ⟨keepsVerified_iff, fetchesRecent_iff n⟩

/-! ## Roots as the node writes them -/

/-- Headers with a root of 64 digits and no prefix. -/
def bareHeaders (h : UInt64) : BHCBlockHeader where
  height := h
  merkleRoot := String.ofList (hexEncode (List.replicate 32 0xaa))

/-- A root without a prefix is never the text it is compared with, and of a chain of one block no
height is asked for. -/
theorem not_keepsVerified_bare : ¬ KeepsVerified bareHeaders ∧ ¬ FetchesRecent 1 := by
  constructor
  · rw [keepsVerified_iff]
    intro hroots
    obtain ⟨root, hroot⟩ := hroots 0
    have hchars := congrArg String.toList hroot
    rw [hashHex, toList_hexPrefix] at hchars
    simp only [bareHeaders, String.toList_ofList] at hchars
    cases hchars
  · rw [fetchesRecent_iff]
    exact fun h => h.1 rfl

end BhtBhte.Bhc
