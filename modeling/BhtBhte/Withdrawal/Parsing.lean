import BhtBhte.Lib.ByteOrder
import BhtBhte.Withdrawal.Runs

/-!
# What the parser reads

`ParseWithdrawalRequest` checks once that there are 128 bytes.  After that it reads as many siblings
as the input says, and two fields of more than 5000 bytes, without looking at the length again.
Here the reads are made one after the other, and one that goes beyond the input gives nothing.
`parseReads_inside_iff` says on which inputs there is none.
-/
namespace BhtBhte.Withdrawal

open BhtBhte.Lib

/-- A read of `n` bytes at an offset. -/
def readBytes (rawRequest : Bytes) (offset n : ℕ) : Option Bytes :=
  if offset + n ≤ rawRequest.length then some (slice rawRequest offset n) else none

/-- The loop over the siblings. -/
def readSiblings (rawRequest : Bytes) : ℕ → ℕ → Option (List Bytes)
  | _, 0 => some []
  | offset, count + 1 => do
    let sibling ← readBytes rawRequest offset 32
    let siblings ← readSiblings rawRequest (offset + 32) count
    return sibling :: siblings

/-- `ParseWithdrawalRequest`; `memory` is what the members held that are not assigned. -/
def parseReads (memory : WithdrawalRequest) (rawRequest : Bytes) :
    Option (Option WithdrawalRequest) :=
  if rawRequest.length < 128 then some none
  else do
    let recipientBhcAddress ← readBytes rawRequest 0 25
    let amount ← readBytes rawRequest 25 8
    let l2BlockNumber ← readBytes rawRequest 33 8
    let l2TransactionHash ← readBytes rawRequest 41 32
    let merkleSiblingsCount ← readBytes rawRequest 73 4
    let siblings ← readSiblings rawRequest 77 (readLE merkleSiblingsCount).toNat
    let offset := 77 + 32 * (readLE merkleSiblingsCount).toNat
    let signature ← readBytes rawRequest offset 3293
    let mldsaPubkey ← readBytes rawRequest (offset + 3293) 1952
    let requestTimestamp ← readBytes rawRequest (offset + 3293 + 1952) 8
    return some
      { memory with
        recipientBhcAddress := recipientBhcAddress
        amount := readLE amount
        l2BlockNumber := readLE l2BlockNumber
        l2TransactionHash := l2TransactionHash
        stateRoot := { memory.stateRoot with stateRoot := [], anchorTxHash := [] }
        merkleProof := { siblings := siblings, path := memory.merkleProof.path, leafHash := [] }
        signature := signature
        mldsaPubkey := mldsaPubkey
        requestTimestamp := readLE requestTimestamp
        status := .pending
        challengeEndTime := readLE requestTimestamp + challengePeriodSeconds
        challengeReason := [] }

/-! ## Staying inside -/

section Reads
variable {raw : Bytes} {offset n : ℕ}

theorem readBytes_of_le (h : offset + n ≤ raw.length) :
    readBytes raw offset n = some (slice raw offset n) := if_pos h

theorem readBytes_of_lt (h : raw.length < offset + n) : readBytes raw offset n = none :=
  if_neg (not_le.mpr h)

/-- The siblings are all read, or one of them lies beyond the input. -/
theorem readSiblings_eq (count : ℕ) (h : offset ≤ raw.length) :
    readSiblings raw offset count = if offset + 32 * count ≤ raw.length then
      some ((List.range count).map fun i => slice raw (offset + 32 * i) 32) else none := by
  induction count generalizing offset with
  | zero => rw [readSiblings, if_pos (by omega), List.range_zero, List.map_nil]
  | succ count ih =>
      rw [readSiblings]
      by_cases hfirst : offset + 32 ≤ raw.length
      · rw [readBytes_of_le hfirst, ih hfirst]
        by_cases hall : offset + 32 * (count + 1) ≤ raw.length
        · rw [if_pos (by omega), if_pos hall, List.range_succ_eq_map, List.map_cons, List.map_map]
          refine congrArg (fun l => some (_ :: l)) (List.map_congr_left fun i _ => ?_)
          exact congrArg (slice raw · 32) (by rw [Nat.succ_eq_add_one]; omega)
        · rw [if_neg (by omega), if_neg hall]
          rfl
      · rw [readBytes_of_lt (by omega), if_neg (by omega)]
        rfl

end Reads

/-- The number of siblings that a request says it has. -/
def siblingCount (rawRequest : Bytes) : ℕ := (readLE (slice rawRequest 73 4)).toNat

/-- The reads and the result of the parser. -/
theorem parseReads_eq (memory : WithdrawalRequest) (raw : Bytes) :
    parseReads memory raw =
      if raw.length < 128 then some none
      else if raw.length < 77 + 32 * siblingCount raw + 3293 + 1952 + 8 then none
      else some (parseWithdrawalRequest memory raw) := by
  rw [parseReads, parseWithdrawalRequest]
  by_cases hshort : raw.length < 128
  · rw [if_pos hshort, if_pos hshort]
  have hsiblings := readSiblings_eq (siblingCount raw) (show 77 ≤ raw.length by omega)
  rw [siblingCount] at hsiblings ⊢
  rw [if_neg hshort, if_neg hshort, if_neg hshort, readBytes_of_le (by omega),
    readBytes_of_le (by omega), readBytes_of_le (by omega), readBytes_of_le (by omega),
    readBytes_of_le (by omega)]
  simp only [Option.bind_eq_bind, Option.bind_some, hsiblings]
  generalize (readLE (slice raw 73 4)).toNat = count
  by_cases hinside : raw.length < 77 + 32 * count + 3293 + 1952 + 8
  · rw [if_pos hinside]
    by_cases hall : 77 + 32 * count ≤ raw.length
    · rw [if_pos hall, Option.bind_some]
      by_cases hsignature : 77 + 32 * count + 3293 ≤ raw.length
      · rw [readBytes_of_le hsignature, Option.bind_some]
        by_cases hpubkey : 77 + 32 * count + 3293 + 1952 ≤ raw.length
        · rw [readBytes_of_le hpubkey, Option.bind_some, readBytes_of_lt hinside, Option.bind_none]
        · rw [readBytes_of_lt (by omega), Option.bind_none]
      · rw [readBytes_of_lt (by omega), Option.bind_none]
    · rw [if_neg hall, Option.bind_none]
  · rw [if_neg hinside, if_neg hinside, if_pos (by omega), Option.bind_some,
      readBytes_of_le (by omega), Option.bind_some, readBytes_of_le (by omega), Option.bind_some,
      readBytes_of_le (by omega), Option.bind_some, Option.pure_def]

/-- A request has as many siblings as it says. -/
theorem length_siblings_parse {memory request : WithdrawalRequest} {raw : Bytes}
    (h : parseWithdrawalRequest memory raw = some request) :
    request.merkleProof.siblings.length = siblingCount raw := by
  rw [parseWithdrawalRequest] at h
  split at h
  · cases h
  · dsimp only at h
    split at h
    · cases h
    · cases h
      rw [List.length_map, List.length_range, siblingCount]

/-! ## Reading back -/

/-- The fields of a request, of the sizes that the parser expects. -/
structure RequestFields where
  recipientBhcAddress : Bytes
  amount : UInt64
  l2BlockNumber : UInt64
  l2TransactionHash : Bytes
  siblings : List Bytes
  signature : Bytes
  mldsaPubkey : Bytes
  requestTimestamp : UInt64
  length_recipient : recipientBhcAddress.length = 25
  length_hash : l2TransactionHash.length = 32
  length_sibling : ∀ sibling ∈ siblings, sibling.length = 32
  length_signature : signature.length = 3293
  length_pubkey : mldsaPubkey.length = 1952

/-- What stands before the siblings. -/
def RequestFields.head (r : RequestFields) : List Bytes :=
  [r.recipientBhcAddress, leBytes 8 r.amount.toNat, leBytes 8 r.l2BlockNumber.toNat,
    r.l2TransactionHash, leBytes 4 r.siblings.length]

/-- The fields in the order of the parser, the siblings after their number. -/
def RequestFields.encode (r : RequestFields) : Bytes :=
  (r.head ++ r.siblings ++
    [r.signature, r.mldsaPubkey, leBytes 8 r.requestTimestamp.toNat]).flatten

theorem toNat_readLE {data : Bytes} (h : data.length ≤ 8) :
    (readLE data).toNat = bytesValue data := by
  induction data with
  | nil => rfl
  | cons b data ih =>
      rw [List.length_cons] at h
      have hrest := ih (by omega)
      have hlt := bytesValue_lt data
      have hpow : 256 ^ data.length ≤ 256 ^ 7 := Nat.pow_le_pow_right (by decide) (by omega)
      have hfold : readLE (b :: data) = b.toUInt64 ||| (readLE data <<< 8) := rfl
      rw [hfold, bytesValue_cons, UInt64.toNat_or, UInt64.toNat_shiftLeft, hrest,
        UInt8.toNat_toUInt64]
      have hshift : bytesValue data <<< ((8 : UInt64).toNat % 64) % 2 ^ 64 =
          bytesValue data <<< 8 := by
        rw [show (8 : UInt64).toNat % 64 = 8 from rfl, Nat.shiftLeft_eq]
        exact Nat.mod_eq_of_lt (by omega)
      rw [hshift, Nat.or_comm, ← Nat.shiftLeft_add_eq_or_of_lt b.toNat_lt, Nat.shiftLeft_eq]
      omega

theorem readLE_leBytes (x : UInt64) : readLE (leBytes 8 x.toNat) = x := by
  rw [← UInt64.toNat_inj, toNat_readLE (length_leBytes 8 _).le, bytesValue_leBytes]
  exact Nat.mod_eq_of_lt x.toNat_lt

/-- The request has the fields that were written. -/
structure RequestFields.ReadBack (r : RequestFields) (request : WithdrawalRequest) : Prop where
  recipient : request.recipientBhcAddress = r.recipientBhcAddress
  amount : request.amount = r.amount
  l2BlockNumber : request.l2BlockNumber = r.l2BlockNumber
  hash : request.l2TransactionHash = r.l2TransactionHash
  siblings : request.merkleProof.siblings = r.siblings
  signature : request.signature = r.signature
  mldsaPubkey : request.mldsaPubkey = r.mldsaPubkey
  requestTimestamp : request.requestTimestamp = r.requestTimestamp

theorem length_flatten_of_forall {pieces : List Bytes} {n : ℕ}
    (h : ∀ piece ∈ pieces, piece.length = n) : pieces.flatten.length = n * pieces.length := by
  induction pieces with
  | nil => rfl
  | cons piece pieces ih =>
      rw [List.flatten_cons, List.length_append, h piece List.mem_cons_self,
        ih fun p hp => h p (List.mem_cons_of_mem _ hp), List.length_cons, Nat.mul_succ,
        Nat.add_comm]

namespace RequestFields
variable (r : RequestFields)

theorem length_head : r.head.flatten.length = 77 := by
  simp [head, r.length_recipient, r.length_hash]

theorem length_front : (r.head ++ r.siblings).flatten.length = 77 + 32 * r.siblings.length := by
  rw [List.flatten_append, List.length_append, r.length_head,
    length_flatten_of_forall r.length_sibling]

theorem length_encode : r.encode.length = 77 + 32 * r.siblings.length + 3293 + 1952 + 8 := by
  rw [encode, List.flatten_append, List.length_append, r.length_front]
  simp only [List.flatten_cons, List.flatten_nil, List.length_append, List.length_nil,
    length_leBytes, r.length_signature, r.length_pubkey]

/-- The siblings stand one after the other. -/
theorem slice_sibling {i : ℕ} (hi : i < r.siblings.length) :
    slice r.encode (77 + 32 * i) 32 = r.siblings[i] := by
  have hsplit : r.siblings = r.siblings.take i ++ r.siblings[i] :: r.siblings.drop (i + 1) := by
    rw [List.cons_getElem_drop_succ, List.take_append_drop]
  have hfront : (r.head ++ r.siblings.take i).flatten.length = 77 + 32 * i := by
    rw [List.flatten_append, List.length_append, r.length_head,
      length_flatten_of_forall fun s hs => r.length_sibling s (List.mem_of_mem_take hs),
      List.length_take, Nat.min_eq_left hi.le]
  have hpiece := slice_flatten (r.head ++ r.siblings.take i) r.siblings[i]
    (r.siblings.drop (i + 1) ++ [r.signature, r.mldsaPubkey, leBytes 8 r.requestTimestamp.toNat])
    hfront (r.length_sibling _ (List.getElem_mem hi))
  rwa [List.append_assoc, ← List.cons_append, ← List.append_assoc (r.siblings.take i), ← hsplit,
    ← List.append_assoc] at hpiece

theorem siblingCount_encode : siblingCount r.encode = r.siblings.length % 2 ^ 32 := by
  have hcount : slice r.encode 73 4 = leBytes 4 r.siblings.length :=
    slice_flatten [r.recipientBhcAddress, leBytes 8 r.amount.toNat, leBytes 8 r.l2BlockNumber.toNat,
      r.l2TransactionHash] (leBytes 4 r.siblings.length) (r.siblings ++ _)
      (by simp [r.length_recipient, r.length_hash]) (length_leBytes 4 _)
  rw [siblingCount, hcount, toNat_readLE (by rw [length_leBytes]; decide), bytesValue_leBytes,
    show 256 ^ 4 = 2 ^ 32 from rfl]

/-- Behind the siblings. -/
theorem slice_signature : slice r.encode (77 + 32 * r.siblings.length) 3293 = r.signature :=
  slice_flatten (r.head ++ r.siblings) r.signature _ r.length_front r.length_signature

theorem slice_pubkey :
    slice r.encode (77 + 32 * r.siblings.length + 3293) 1952 = r.mldsaPubkey := by
  have hfront : (r.head ++ r.siblings ++ [r.signature]).flatten.length =
      77 + 32 * r.siblings.length + 3293 := by
    rw [List.flatten_append, List.length_append, r.length_front, List.flatten_singleton,
      r.length_signature]
  have hpiece := slice_flatten (r.head ++ r.siblings ++ [r.signature]) r.mldsaPubkey
    [leBytes 8 r.requestTimestamp.toNat] hfront r.length_pubkey
  rwa [List.append_assoc] at hpiece

theorem slice_timestamp : slice r.encode (77 + 32 * r.siblings.length + 3293 + 1952) 8 =
    leBytes 8 r.requestTimestamp.toNat := by
  have hfront : (r.head ++ r.siblings ++ [r.signature, r.mldsaPubkey]).flatten.length =
      77 + 32 * r.siblings.length + 3293 + 1952 := by
    rw [List.flatten_append, List.length_append, r.length_front, List.flatten_cons,
      List.flatten_singleton, List.length_append, r.length_signature, r.length_pubkey,
      ← Nat.add_assoc]
  have hpiece := slice_flatten (r.head ++ r.siblings ++ [r.signature, r.mldsaPubkey])
    (leBytes 8 r.requestTimestamp.toNat) [] hfront (length_leBytes 8 _)
  rwa [List.append_assoc] at hpiece

/-- All siblings, one after the other. -/
theorem map_slice_siblings : ((List.range r.siblings.length).map fun i =>
    slice r.encode (77 + 32 * i) 32) = r.siblings := by
  apply List.ext_getElem (by simp)
  intro i h₁ h₂
  rw [List.getElem_map, List.getElem_range, r.slice_sibling h₂]

/-- The fields that the parser takes. -/
theorem readBack_parse (memory : WithdrawalRequest) (h : r.siblings.length < 2 ^ 32) :
    ∃ request, parseWithdrawalRequest memory r.encode = some request ∧ r.ReadBack request := by
  have hcount := r.siblingCount_encode
  rw [Nat.mod_eq_of_lt h, siblingCount] at hcount
  have hlength := r.length_encode
  have hrecipient : slice r.encode 0 25 = r.recipientBhcAddress :=
    slice_flatten [] r.recipientBhcAddress _ rfl r.length_recipient
  have hamount : slice r.encode 25 8 = leBytes 8 r.amount.toNat :=
    slice_flatten [r.recipientBhcAddress] (leBytes 8 r.amount.toNat)
      (_ :: _ :: _ :: r.siblings ++ _)
      (by simp [r.length_recipient]) (length_leBytes 8 _)
  have hblock : slice r.encode 33 8 = leBytes 8 r.l2BlockNumber.toNat :=
    slice_flatten [r.recipientBhcAddress, leBytes 8 r.amount.toNat]
      (leBytes 8 r.l2BlockNumber.toNat) (_ :: _ :: r.siblings ++ _)
      (by simp [r.length_recipient]) (length_leBytes 8 _)
  have hhash : slice r.encode 41 32 = r.l2TransactionHash :=
    slice_flatten [r.recipientBhcAddress, leBytes 8 r.amount.toNat, leBytes 8 r.l2BlockNumber.toNat]
      r.l2TransactionHash (_ :: r.siblings ++ _) (by simp [r.length_recipient]) r.length_hash
  rw [parseWithdrawalRequest, if_neg (by omega)]
  simp only [hcount]
  rw [if_neg (by omega)]
  exact ⟨_, rfl, hrecipient, (congrArg readLE hamount).trans (readLE_leBytes _),
    (congrArg readLE hblock).trans (readLE_leBytes _), hhash, r.map_slice_siblings,
    r.slice_signature, r.slice_pubkey, (congrArg readLE r.slice_timestamp).trans (readLE_leBytes _)⟩

end RequestFields

/-- **The parser stays inside the input exactly when this is short or as long as the number of
siblings asks for**, and reads the fields of a request back when their number fits. -/
theorem parseReads_inside_iff (memory : WithdrawalRequest) :
    (∀ rawRequest, parseReads memory rawRequest ≠ none ↔
      rawRequest.length < 128 ∨ 5330 + 32 * siblingCount rawRequest ≤ rawRequest.length) ∧
    ∀ r : RequestFields, (∃ request, parseReads memory r.encode = some (some request) ∧
      r.ReadBack request) ↔ r.siblings.length < 2 ^ 32 := by
  refine ⟨fun raw => ?_, fun r => ⟨?_, fun hcount => ?_⟩⟩
  · rw [parseReads_eq]
    split_ifs with hshort hinside
    · simp [hshort]
    · simp only [ne_eq, not_true_eq_false, false_iff]
      omega
    · simp only [ne_eq, reduceCtorEq, not_false_eq_true, true_iff]
      omega
  · rintro ⟨request, hrequest, hback⟩
    rw [parseReads_eq] at hrequest
    split_ifs at hrequest
    · cases hrequest
    have hcount := length_siblings_parse (Option.some.inj hrequest)
    rw [hback.siblings, r.siblingCount_encode] at hcount
    rw [hcount]
    exact Nat.mod_lt _ (by decide)
  · obtain ⟨request, hrequest, hback⟩ := r.readBack_parse memory hcount
    have hlength := r.length_encode
    refine ⟨request, ?_, hback⟩
    rw [parseReads_eq, if_neg (by omega), r.siblingCount_encode, Nat.mod_eq_of_lt hcount,
      if_neg (by omega), hrequest]

/-- 128 zeros have no siblings, and no signature either. -/
theorem parseReads_beyond : ¬ ∀ memory rawRequest, parseReads memory rawRequest ≠ none := by
  intro hinside
  have hcount : siblingCount (List.replicate 128 0) = 0 := by
    rw [siblingCount, slice, List.drop_replicate, List.take_replicate]
    decide
  have hlength : (List.replicate 128 (0 : UInt8)).length = 128 := List.length_replicate
  refine hinside (someRequest 0) (List.replicate 128 0) ?_
  rw [parseReads_eq, if_neg (by omega), if_pos (by omega)]

end BhtBhte.Withdrawal
