import BhtBhte.Lib.Rounds
import BhtBhte.Spv.Transactions

/-!
# Batches of headers

`GetHeaderChain` clamps the range it was asked for and then counts up to the end of it, inclusively.
The clamp leaves one height more than the limit, and a counter that has reached the last 64-bit
number starts again at zero, which is not above any end.  `getHeaderChain_batch_iff` says when what
is returned is a batch.
-/
namespace BhtBhte.Spv

open BhtBhte.Lib
open BhtBhte.Node (Bytes)

/-- `GetBlockHeader` returns these headers for the heights from `n` on, one after the other. -/
def Fetched (rpc : Rpc) : ℕ → List BHCHeader → Client → Prop
  | _, [], _ => True
  | n, header :: headers, c =>
      n < 2 ^ 64 ∧ (getBlockHeader rpc (UInt64.ofNat n) c).1 = .ok header ∧
        Fetched rpc (n + 1) headers (getBlockHeader rpc (UInt64.ofNat n) c).2

section
variable {rpc : Rpc} {h startHeight endHeight : UInt64} {headers all : List BHCHeader} {c : Client}

/-! ## The loop -/

theorem fetched_cons {header : BHCHeader} :
    Fetched rpc h.toNat (header :: headers) c ↔ (getBlockHeader rpc h c).1 = .ok header ∧
      Fetched rpc (h.toNat + 1) headers (getBlockHeader rpc h c).2 := by
  have hlt := h.toNat_lt
  rw [Fetched, UInt64.ofNat_toNat]
  exact ⟨fun hfetched => hfetched.2, fun hfetched => ⟨hlt, hfetched⟩⟩

/-- One round takes the next header. -/
theorem headerLoop_succ (hle : h ≤ endHeight) {header : BHCHeader}
    (hgot : (getBlockHeader rpc h c).1 = .ok header) (fuel : ℕ) (headers : List BHCHeader) :
    headerLoop rpc (fuel + 1) h endHeight headers c =
      headerLoop rpc fuel (h + 1) endHeight (headers ++ [header]) (getBlockHeader rpc h c).2 := by
  rw [headerLoop, if_pos hle]
  generalize getBlockHeader rpc h c = got at hgot
  obtain ⟨result, c'⟩ := got
  cases hgot
  rfl

/-- **Below the last 64-bit number the loop returns the headers of the range.** -/
theorem headerLoop_ok (hend : endHeight.toNat ≠ 2 ^ 64 - 1) : ∀ {all : List BHCHeader}
    {h : UInt64} {headers : List BHCHeader} {c : Client} {fuel : ℕ}, Fetched rpc h.toNat all c →
    h.toNat + all.length = endHeight.toNat + 1 → all.length < fuel →
      (headerLoop rpc fuel h endHeight headers c).1 = some (.ok (headers ++ all)) := by
  intro all
  induction all with
  | nil =>
      intro h headers c fuel _ hlength hfuel
      obtain ⟨fuel, rfl⟩ := Nat.exists_eq_succ_of_ne_zero (Nat.ne_of_gt hfuel)
      have habove : ¬ h ≤ endHeight := by
        rw [UInt64.le_iff_toNat_le]
        rw [List.length_nil] at hlength
        omega
      rw [headerLoop, if_neg habove, List.append_nil]
  | cons header all ih =>
      intro h headers c fuel hfetched hlength hfuel
      obtain ⟨fuel, rfl⟩ := Nat.exists_eq_succ_of_ne_zero (Nat.ne_of_gt (Nat.zero_lt_of_lt hfuel))
      rw [List.length_cons] at hlength hfuel
      have hle : h ≤ endHeight := UInt64.le_iff_toNat_le.mpr (by omega)
      have hlt := endHeight.toNat_lt
      have hsucc := toNat_succ (show h.toNat < 2 ^ 64 - 1 by omega)
      obtain ⟨hgot, hrest⟩ := fetched_cons.mp hfetched
      rw [← hsucc] at hrest
      rw [headerLoop_succ hle hgot, ih hrest (by omega) (by omega), List.append_assoc,
        List.singleton_append]

/-- Up to the last 64-bit number it never returns headers. -/
theorem headerLoop_last (hend : endHeight.toNat = 2 ^ 64 - 1) : ∀ (fuel : ℕ) (h : UInt64)
    (headers : List BHCHeader) (c : Client) (all : List BHCHeader),
    (headerLoop rpc fuel h endHeight headers c).1 ≠ some (.ok all) := by
  intro fuel
  induction fuel with
  | zero =>
      intro h headers c all hok
      cases hok
  | succ fuel ih =>
      intro h headers c all hok
      have hle : h ≤ endHeight := by
        have hlt := h.toNat_lt
        rw [UInt64.le_iff_toNat_le]
        omega
      rw [headerLoop, if_pos hle] at hok
      generalize getBlockHeader rpc h c = got at hok
      obtain ⟨result, c'⟩ := got
      cases result with
      | error e => cases hok
      | ok header => exact ih _ _ _ _ hok

/-- **What the loop returns are the headers of the range.** -/
theorem headerLoop_eq_ok : ∀ {fuel : ℕ} {h : UInt64} {headers : List BHCHeader} {c : Client}
    {all : List BHCHeader}, h.toNat ≤ endHeight.toNat + 1 →
    (headerLoop rpc fuel h endHeight headers c).1 = some (.ok all) →
      ∃ got, all = headers ++ got ∧ Fetched rpc h.toNat got c ∧
        h.toNat + got.length = endHeight.toNat + 1 := by
  intro fuel
  induction fuel with
  | zero =>
      intro h headers c all _ hok
      cases hok
  | succ fuel ih =>
      intro h headers c all hbelow hok
      have hend : endHeight.toNat ≠ 2 ^ 64 - 1 := fun hlast => headerLoop_last hlast _ _ _ _ _ hok
      by_cases hle : h ≤ endHeight
      · have hlt := endHeight.toNat_lt
        have hle' := UInt64.le_iff_toNat_le.mp hle
        have hsucc := toNat_succ (show h.toNat < 2 ^ 64 - 1 by omega)
        cases hgot : (getBlockHeader rpc h c).1 with
        | error e =>
            rw [headerLoop, if_pos hle] at hok
            generalize getBlockHeader rpc h c = result at hgot hok
            obtain ⟨result, c'⟩ := result
            cases hgot
            cases hok
        | ok header =>
            rw [headerLoop_succ hle hgot] at hok
            obtain ⟨got, hall, hfetched, hlength⟩ := ih (by omega) hok
            rw [hsucc] at hfetched hlength
            refine ⟨header :: got, ?_, fetched_cons.mpr ⟨hgot, hfetched⟩, ?_⟩
            · rw [hall, List.append_assoc, List.singleton_append]
            · rw [List.length_cons]
              omega
      · rw [headerLoop, if_neg hle] at hok
        cases hok
        rw [UInt64.le_iff_toNat_le] at hle
        exact ⟨[], (List.append_nil _).symm, trivial, by rw [List.length_nil]; omega⟩

/-! ## The chain -/

theorem Fetched.take : ∀ {all : List BHCHeader} {n : ℕ} {c : Client} (k : ℕ),
    Fetched rpc n all c → Fetched rpc n (all.take k) c
  | _, _, _, 0, _ => trivial
  | [], _, _, _ + 1, _ => trivial
  | _ :: _, _, _, k + 1, hfetched => ⟨hfetched.1, hfetched.2.1, hfetched.2.2.take k⟩

/-- The end of the range after the clamp. -/
def clampedEnd (startHeight endHeight : UInt64) : UInt64 :=
  if endHeight - startHeight > maxHeaderBatchSize then startHeight + maxHeaderBatchSize
  else endHeight

theorem toNat_clampedEnd (hle : startHeight ≤ endHeight) :
    (clampedEnd startHeight endHeight).toNat = min endHeight.toNat (startHeight.toNat + 2000) := by
  have hlt := endHeight.toNat_lt
  have hle' := UInt64.le_iff_toNat_le.mp hle
  have hsub := UInt64.toNat_sub_of_le _ _ hle
  have hmax : maxHeaderBatchSize.toNat = 2000 := rfl
  unfold clampedEnd
  by_cases hlong : endHeight - startHeight > maxHeaderBatchSize
  · rw [if_pos hlong]
    rw [gt_iff_lt, UInt64.lt_iff_toNat_lt, hsub, hmax] at hlong
    rw [UInt64.toNat_add, hmax, Nat.mod_eq_of_lt (by omega)]
    omega
  · rw [if_neg hlong]
    rw [gt_iff_lt, UInt64.lt_iff_toNat_lt, hsub, hmax] at hlong
    omega

theorem getHeaderChain_eq (hle : startHeight ≤ endHeight) (fuel : ℕ) (c : Client) :
    getHeaderChain rpc fuel startHeight endHeight c =
      headerLoop rpc fuel startHeight (clampedEnd startHeight endHeight) [] c := by
  rw [getHeaderChain, if_neg (UInt64.not_lt.mpr hle)]
  rfl

/-- One header for every height up to the clamped end, unless that is the last one. -/
theorem getHeaderChain_ok (hle : startHeight ≤ endHeight)
    (hall : Fetched rpc startHeight.toNat all c)
    (hlength : all.length = endHeight.toNat - startHeight.toNat + 1)
    (hend : (clampedEnd startHeight endHeight).toNat ≠ 2 ^ 64 - 1) {fuel : ℕ}
    (hfuel : 2001 < fuel) :
    (getHeaderChain rpc fuel startHeight endHeight c).1 = some (.ok (all.take 2001)) := by
  have hle' := UInt64.le_iff_toNat_le.mp hle
  have htaken : (all.take 2001).length = min 2001 (endHeight.toNat - startHeight.toNat + 1) := by
    rw [List.length_take, hlength]
  rw [getHeaderChain_eq hle, headerLoop_ok hend (hall.take 2001), List.nil_append]
  · rw [htaken, toNat_clampedEnd hle]
    omega
  · omega

/-- What `GetHeaderChain` returns begins with the header of the first height. -/
theorem getHeaderChain_eq_ok {fuel : ℕ}
    (hok : (getHeaderChain rpc fuel startHeight endHeight c).1 = some (.ok headers)) :
    startHeight ≤ endHeight ∧ Fetched rpc startHeight.toNat headers c ∧
      startHeight.toNat + headers.length =
        min endHeight.toNat (startHeight.toNat + 2000) + 1 := by
  by_cases hlt : endHeight < startHeight
  · rw [getHeaderChain, if_pos hlt] at hok
    cases hok
  have hle := UInt64.not_lt.mp hlt
  have hle' := UInt64.le_iff_toNat_le.mp hle
  rw [getHeaderChain_eq hle] at hok
  obtain ⟨got, rfl, hfetched, hlength⟩ :=
    headerLoop_eq_ok (by rw [toNat_clampedEnd hle]; omega) hok
  rw [toNat_clampedEnd hle] at hlength
  exact ⟨hle, hfetched, hlength⟩

/-- The call returns, and what it returns is a batch of the headers it was asked for. -/
def ReturnsBatch (rpc : Rpc) (startHeight endHeight : UInt64) (c : Client)
    (all : List BHCHeader) : Prop :=
  ∃ headers n, (∀ fuel ≥ n,
      (getHeaderChain rpc fuel startHeight endHeight c).1 = some (.ok headers)) ∧
    headers.length ≤ maxHeaderBatchSize.toNat ∧ headers <+: all

/-- **Where `GetBlockHeader` answers for every height of the range, the chain is a batch exactly
when the range is no longer than one and does not end at the last 64-bit number.** -/
theorem getHeaderChain_batch_iff (hle : startHeight ≤ endHeight)
    (hall : Fetched rpc startHeight.toNat all c)
    (hlength : all.length = endHeight.toNat - startHeight.toNat + 1) :
    ReturnsBatch rpc startHeight endHeight c all ↔
      endHeight.toNat - startHeight.toNat < 2000 ∧ endHeight.toNat ≠ 2 ^ 64 - 1 := by
  have hle' := UInt64.le_iff_toNat_le.mp hle
  have hclamped := toNat_clampedEnd hle
  constructor
  · rintro ⟨headers, n, hreturned, hsize, -⟩
    have hend : (clampedEnd startHeight endHeight).toNat ≠ 2 ^ 64 - 1 := by
      intro hlast
      have hok := hreturned n (Nat.le_refl n)
      rw [getHeaderChain_eq hle] at hok
      exact headerLoop_last hlast _ _ _ _ _ hok
    have hok := hreturned (n + 2002) (Nat.le_add_right n 2002)
    rw [getHeaderChain_ok hle hall hlength hend (by omega)] at hok
    cases hok
    rw [List.length_take, hlength, show maxHeaderBatchSize.toNat = 2000 from rfl] at hsize
    omega
  · rintro ⟨hshort, hlast⟩
    refine ⟨all.take 2001, 2002, fun fuel hfuel => ?_, ?_, List.take_prefix _ _⟩
    · exact getHeaderChain_ok hle hall hlength (by omega) hfuel
    · rw [List.length_take, hlength, show maxHeaderBatchSize.toNat = 2000 from rfl]
      omega

end

/-! ## Two ranges -/

/-- Asked for any height, this node answers with the header of its one block. -/
theorem getBlockHeader_oneTransaction_ok (n : UInt64) (c : Client) :
    ∃ header, (getBlockHeader (oneTransactionRpc none) n c).1 = .ok header := by
  unfold getBlockHeader
  cases c.headerCache.get? n.toNat with
  | some header => exact ⟨header, rfl⟩
  | none =>
      simp [requestHeader, getBlockHash, oneTransactionRpc, hashText_ne_empty, callHeaderByHash,
        callHeader]

theorem exists_fetched {rpc : Rpc}
    (hanswers : ∀ n c, ∃ header, (getBlockHeader rpc n c).1 = .ok header) :
    ∀ (k n : ℕ) (c : Client), n + k ≤ 2 ^ 64 → ∃ all, all.length = k ∧ Fetched rpc n all c
  | 0, _, _, _ => ⟨[], rfl, trivial⟩
  | k + 1, n, c, hle => by
      obtain ⟨header, hheader⟩ := hanswers (UInt64.ofNat n) c
      obtain ⟨all, hlength, hall⟩ := exists_fetched hanswers k (n + 1)
        (getBlockHeader rpc (UInt64.ofNat n) c).2 (by omega)
      exact ⟨header :: all, by rw [List.length_cons, hlength], by omega, hheader, hall⟩

/-- The headers of two heights. -/
theorem getHeaderChain_batch_two : ∃ all,
    ReturnsBatch (oneTransactionRpc none) 5 6 newBHCSPVClient all ∧ all.length = 2 := by
  obtain ⟨all, hlength, hall⟩ := exists_fetched getBlockHeader_oneTransaction_ok 2 5
    newBHCSPVClient (by decide)
  exact ⟨all, (getHeaderChain_batch_iff (show (5 : UInt64) ≤ 6 by decide) hall
    hlength).mpr (by decide), hlength⟩

/-- The heights from `0` to `2000` are one header too many, and the chain that ends at the last
64-bit number is never returned, although each height is answered. -/
theorem getHeaderChain_oversized :
    (∀ n c, ∃ header, (getBlockHeader (oneTransactionRpc none) n c).1 = .ok header) ∧
    (∃ headers fuel, (getHeaderChain (oneTransactionRpc none) fuel 0 2000 newBHCSPVClient).1 =
      some (.ok headers) ∧ headers.length = 2001) ∧
    ∀ fuel headers, (getHeaderChain (oneTransactionRpc none) fuel (UInt64.ofNat (2 ^ 64 - 1))
      (UInt64.ofNat (2 ^ 64 - 1)) newBHCSPVClient).1 ≠ some (.ok headers) := by
  refine ⟨getBlockHeader_oneTransaction_ok, ?_, ?_⟩
  · obtain ⟨all, hlength, hall⟩ := exists_fetched getBlockHeader_oneTransaction_ok 2001 0
      newBHCSPVClient (by decide)
    refine ⟨all.take 2001, 2002, getHeaderChain_ok (by decide) hall hlength (by decide)
      (by decide), ?_⟩
    rw [List.length_take, hlength]
    rfl
  · intro fuel headers
    rw [getHeaderChain_eq (UInt64.le_refl _)]
    exact headerLoop_last rfl _ _ _ _ _

end BhtBhte.Spv
