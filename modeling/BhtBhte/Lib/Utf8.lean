import BhtBhte.Lib.Text

/-!
# Byte strings and the runes in them

A Go string is any sequence of bytes.  Reading it rune by rune, as `range` and `encoding/json`
do, takes a byte that begins no rune for the replacement character, so a string that was cut
inside a rune is not the string that is read back from its JSON text.

## Main definitions

* `encode`, `runes` — runes to bytes and back.
* `reread` — a byte string after it is written as JSON and read again.
* `takeLast` — the last bytes of a string.
-/
namespace BhtBhte.Lib

/-- Runes as UTF-8. -/
def encode (l : List Char) : List UInt8 := l.flatMap String.utf8EncodeChar

/-- The runes of a byte string; a byte that begins none reads as the replacement character. -/
def runes : List UInt8 → List Char
  | [] => []
  | b :: bs =>
      match (b :: bs).toByteArray.utf8DecodeChar? 0 with
      | some c => c :: runes ((b :: bs).drop c.utf8Size)
      | none => '\ufffd' :: runes bs
termination_by bytes => bytes.length
decreasing_by
  · have := c.utf8Size_pos
    simp only [List.length_drop, List.length_cons]
    omega
  · simp

/-- Written as JSON and read again. -/
def reread (bytes : List UInt8) : List UInt8 := encode (runes bytes)

/-- The last `k` bytes. -/
def takeLast (k : ℕ) (bytes : List UInt8) : List UInt8 := bytes.drop (bytes.length - k)

@[simp] theorem encode_nil : encode [] = [] := rfl

@[simp] theorem encode_cons (c : Char) (l : List Char) :
    encode (c :: l) = String.utf8EncodeChar c ++ encode l := rfl

@[simp] theorem encode_append (l l' : List Char) : encode (l ++ l') = encode l ++ encode l' :=
  List.flatMap_append

/-! ## Reading back -/

theorem runes_encodeChar_append (c : Char) (bs : List UInt8) :
    runes (String.utf8EncodeChar c ++ bs) = c :: runes bs := by
  have hlen : (String.utf8EncodeChar c).length = c.utf8Size := String.length_utf8EncodeChar c
  have hpos := c.utf8Size_pos
  obtain ⟨b, t, ht⟩ : ∃ b t, String.utf8EncodeChar c = b :: t := by
    cases h : String.utf8EncodeChar c with
    | nil =>
        rw [h, List.length_nil] at hlen
        omega
    | cons b t => exact ⟨b, t, rfl⟩
  have hdecode : (String.utf8EncodeChar c ++ bs).toByteArray.utf8DecodeChar? 0 = some c := by
    rw [List.toByteArray_append]
    exact ByteArray.utf8DecodeChar?_utf8EncodeChar_append
  have hdrop : (String.utf8EncodeChar c ++ bs).drop c.utf8Size = bs := by
    rw [← hlen, List.drop_left]
  rw [ht, List.cons_append] at hdecode hdrop ⊢
  rw [runes, hdecode]
  exact congrArg (c :: runes ·) hdrop

theorem runes_encode_append (l : List Char) (bs : List UInt8) :
    runes (encode l ++ bs) = l ++ runes bs := by
  induction l with
  | nil => rfl
  | cons c l ih => rw [encode_cons, List.append_assoc, runes_encodeChar_append, ih, List.cons_append]

theorem runes_encode (l : List Char) : runes (encode l) = l := by
  have h := runes_encode_append l []
  rwa [List.append_nil, runes, List.append_nil] at h

/-- A byte that begins no rune is read by itself. -/
theorem runes_cons_of_not_first {b : UInt8} (h : ¬ b.IsUTF8FirstByte) (bs : List UInt8) :
    runes (b :: bs) = '\ufffd' :: runes bs := by
  have hnone : (b :: bs).toByteArray.utf8DecodeChar? 0 = none := by
    by_contra hsome
    have hfirst := ByteArray.isUTF8FirstByte_of_isSome_utf8DecodeChar?
      (Option.isSome_iff_ne_none.mpr hsome)
    exact h (by simpa using hfirst)
  rw [runes, hnone]

theorem runes_append_of_not_first {t : List UInt8} (h : ∀ b ∈ t, ¬ b.IsUTF8FirstByte)
    (bs : List UInt8) : runes (t ++ bs) = List.replicate t.length '\ufffd' ++ runes bs := by
  induction t with
  | nil => rfl
  | cons b t ih =>
      rw [List.cons_append, runes_cons_of_not_first (h b List.mem_cons_self),
        ih fun b' hb' => h b' (List.mem_cons_of_mem _ hb'), List.length_cons, List.replicate_succ,
        List.cons_append]

/-- Past its first byte, the encoding of a rune holds no first byte. -/
theorem not_first_of_mem_drop {c : Char} {k : ℕ} (hk : 0 < k) {b : UInt8}
    (hb : b ∈ (String.utf8EncodeChar c).drop k) : ¬ b.IsUTF8FirstByte := by
  obtain ⟨i, hi, rfl⟩ := List.mem_iff_getElem.mp hb
  rw [List.getElem_drop, UInt8.isUTF8FirstByte_getElem_utf8EncodeChar]
  omega

/-! ## The last bytes of a text -/

theorem takeLast_append_of_le {k : ℕ} {l l' : List UInt8} (h : l'.length ≤ k) :
    takeLast k (l ++ l') = takeLast (k - l'.length) l ++ l' := by
  have hdrop : (l ++ l').length - k = l.length - (k - l'.length) := by
    rw [List.length_append]
    omega
  rw [takeLast, takeLast, hdrop, List.drop_append_of_le_length (by omega)]

theorem takeLast_append_of_lt {k : ℕ} {l l' : List UInt8} (h : k < l'.length) :
    takeLast k (l ++ l') = l'.drop (l'.length - k) := by
  have hdrop : (l ++ l').length - k = l.length + (l'.length - k) := by
    rw [List.length_append]
    omega
  rw [takeLast, hdrop, List.drop_append]
  simp

/-- Cut to its last `k` bytes, a text keeps its last runes and, before them, the end `t` of the
rune that the cut splits. -/
theorem takeLast_go (k : ℕ) (cs acc : List Char) :
    ∃ t r, (∀ b ∈ t, ¬ b.IsUTF8FirstByte) ∧ r <:+ cs.reverse ++ acc ∧
      takeLast k (encode cs.reverse) ++ encode acc = t ++ encode r ∧
      lastBytes.go k cs acc = String.ofList (List.replicate t.length '\ufffd' ++ r) := by
  induction cs generalizing k acc with
  | nil =>
      refine ⟨[], acc, fun b hb => absurd hb List.not_mem_nil, List.suffix_refl _, ?_, rfl⟩
      rw [List.reverse_nil, encode_nil, takeLast, List.drop_nil]
  | cons c cs ih =>
      have hlen : (encode [c]).length = c.utf8Size := by
        rw [encode_cons, encode_nil, List.append_nil, String.length_utf8EncodeChar]
      rw [List.reverse_cons, encode_append, lastBytes.go]
      by_cases hc : c.utf8Size ≤ k
      · obtain ⟨t, r, ht, hr, heq, hgo⟩ := ih (k - c.utf8Size) (c :: acc)
        rw [if_pos hc]
        refine ⟨t, r, ht, by simpa using hr, ?_, hgo⟩
        rw [takeLast_append_of_le (by rw [hlen]; exact hc), hlen, List.append_assoc, ← heq,
          ← encode_append, List.singleton_append]
      · rw [if_neg hc]
        refine ⟨(encode [c]).drop (c.utf8Size - k), acc, fun b hb => ?_, ?_, ?_, ?_⟩
        · rw [encode_cons, encode_nil, List.append_nil] at hb
          exact not_first_of_mem_drop (by omega) hb
        · exact List.suffix_append _ _
        · rw [takeLast_append_of_lt (by rw [hlen]; omega), hlen]
        · rw [List.length_drop, hlen, Nat.sub_sub_self (by omega)]

theorem takeLast_encode (k : ℕ) (s : String) :
    ∃ t r, (∀ b ∈ t, ¬ b.IsUTF8FirstByte) ∧ r <:+ s.toList ∧
      takeLast k (encode s.toList) = t ++ encode r ∧
      lastBytes k s = String.ofList (List.replicate t.length '\ufffd' ++ r) := by
  obtain ⟨t, r, ht, hr, heq, hgo⟩ := takeLast_go k s.toList.reverse []
  rw [List.reverse_reverse, List.append_nil] at hr
  rw [List.reverse_reverse, encode_nil, List.append_nil] at heq
  exact ⟨t, r, ht, hr, heq, hgo⟩

/-! ## What survives -/

theorem length_encode_replicate (k : ℕ) :
    (encode (List.replicate k '\ufffd')).length = 3 * k := by
  induction k with
  | zero => rfl
  | succ k ih =>
      have hsize : ('\ufffd').utf8Size = 3 := by decide
      rw [List.replicate_succ, encode_cons, List.length_append, String.length_utf8EncodeChar, ih,
        hsize]
      omega

/-- Between two texts, bytes that begin no rune survive only when there are none. -/
theorem reread_eq_iff {t : List UInt8} (h : ∀ b ∈ t, ¬ b.IsUTF8FirstByte) (l r : List Char) :
    reread (encode l ++ (t ++ encode r)) = encode l ++ (t ++ encode r) ↔ t = [] := by
  rw [reread, runes_encode_append, runes_append_of_not_first h, runes_encode, encode_append,
    encode_append]
  constructor
  · intro heq
    have hlen := congrArg List.length heq
    simp only [List.length_append, length_encode_replicate] at hlen
    exact List.eq_nil_of_length_eq_zero (by omega)
  · rintro rfl
    rfl

end BhtBhte.Lib
