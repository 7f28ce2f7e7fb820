import BhtBhte.Lib.Utf8
import BhtBhte.Node.Platform

/-!
# Topics of logs

Of all the texts that the node stores only a topic can be a byte string that is no text:
`paddedTopic` keeps the last 64 bytes of an address, and may cut it inside a rune.  A byte that
begins no rune is written to JSON as the replacement character, so such a topic does not come back
from its file.  Everywhere else it is read rune by rune, where the byte counts as that character
too: `Topic.text` is what `strings.EqualFold` sees, and `common.HexToHash` stops at the same digit
of it as of the bytes, since a replacement is two bytes longer.
-/
namespace BhtBhte.Node
open BhtBhte.Lib
variable [Platform]

/-- A topic of a log, byte for byte. -/
structure Topic where
  bytes : Bytes
deriving DecidableEq

namespace Topic

/-- The topic of a text. -/
def ofText (s : String) : Topic := ⟨utf8 s⟩

/-- The topic read rune by rune. -/
def text (t : Topic) : String := String.ofList (runes t.bytes)

/-- The topic after it is written as JSON and read again. -/
def reread (t : Topic) : Topic := ⟨Lib.reread t.bytes⟩

/-- The bytes are those of a text. -/
def IsText (t : Topic) : Prop := ∃ s, t = ofText s

omit [Platform] in
@[simp] theorem text_ofText (s : String) : (ofText s).text = s := by
  rw [text, ofText, utf8, ← encode, runes_encode, String.ofList_toList]

omit [Platform] in
theorem reread_eq (t : Topic) : t.reread = ofText t.text := by
  rw [reread, ofText, text, utf8, String.toList_ofList]
  rfl

omit [Platform] in
@[simp] theorem text_reread (t : Topic) : t.reread.text = t.text := by
  rw [reread_eq, text_ofText]

omit [Platform] in
/-- The texts are what comes back from JSON as it was. -/
theorem reread_eq_self_iff {t : Topic} : t.reread = t ↔ t.IsText := by
  constructor
  · intro h
    exact ⟨t.text, h.symm.trans t.reread_eq⟩
  · rintro ⟨s, rfl⟩
    rw [reread_eq, text_ofText]

end Topic

/-- The address without `0x`, with zeros before it up to 64 bytes, or its last 64 bytes. -/
def paddedTopic (addr : String) : Topic :=
  let addr := utf8 (trimPrefix (normalizeAddress addr) "0x")
  let addr := if 64 < addr.length then takeLast 64 addr else addr
  ⟨utf8 "0x" ++ (List.replicate (64 - addr.length) 48 ++ addr)⟩

/-- The topic keeps whole runes: the address has at most 64 bytes after `0x`, or its last 64
bytes are its last runes. -/
def CutBetweenRunes (addr : String) : Prop :=
  let s := trimPrefix (normalizeAddress addr) "0x"
  s.utf8ByteSize ≤ 64 ∨ ∃ r, r <:+ s.toList ∧ (encode r).length = 64

omit [Platform] in
theorem length_utf8 (s : String) : (utf8 s).length = s.utf8ByteSize := by
  have hsize : ∀ l : List Char, (encode l).length = (String.ofList l).utf8ByteSize := by
    intro l
    induction l with
    | nil => rfl
    | cons c l ih =>
        have hcons : String.ofList (c :: l) = String.singleton c ++ String.ofList l := by
          rw [← String.toList_inj]
          simp
        rw [encode_cons, List.length_append, ih, String.length_utf8EncodeChar, hcons,
          String.utf8ByteSize_append, String.utf8ByteSize_singleton]
  rw [utf8, ← encode, hsize, String.ofList_toList]

omit [Platform] in
theorem encode_replicate_zero (k : ℕ) : encode (List.replicate k '0') = List.replicate k 48 := by
  induction k with
  | zero => rfl
  | succ k ih =>
      rw [List.replicate_succ, encode_cons, ih]
      rfl

/-- The bytes of a topic: whole runes, and before them the end of a rune that was cut. -/
theorem bytes_paddedTopic (addr : String) :
    ∃ l t r, (paddedTopic addr).bytes = encode l ++ (t ++ encode r) ∧
      (∀ b ∈ t, ¬ b.IsUTF8FirstByte) ∧ (t = [] ↔ CutBetweenRunes addr) := by
  rw [paddedTopic, CutBetweenRunes]
  generalize trimPrefix (normalizeAddress addr) "0x" = s
  have hlen := length_utf8 s
  by_cases hs : 64 < (utf8 s).length
  · obtain ⟨t, r, ht, hr, heq, -⟩ := takeLast_encode 64 s
    have hlast : (takeLast 64 (utf8 s)).length = 64 := by
      rw [takeLast, List.length_drop]
      omega
    have hsplit : takeLast 64 (utf8 s) = t ++ encode r := heq
    rw [if_pos hs, hlast, Nat.sub_self, List.replicate_zero, List.nil_append, hsplit]
    refine ⟨['0', 'x'], t, r, rfl, ht, ?_, ?_⟩
    · rintro rfl
      refine .inr ⟨r, hr, ?_⟩
      rw [hsplit, List.nil_append] at hlast
      exact hlast
    · rintro (hshort | ⟨r', hr', hlength⟩)
      · omega
      · -- the last 64 bytes are those of `r'`, so they begin with a first byte
        obtain ⟨l', hl'⟩ := hr'
        have hutf8 : utf8 s = encode l' ++ encode r' := by
          rw [utf8, ← encode, ← hl', encode_append]
        have hlast' : t ++ encode r = encode r' := by
          rw [← hsplit, hutf8, takeLast, List.length_append, hlength, Nat.add_sub_cancel,
            List.drop_left]
        have hreread := (reread_eq_iff ht [] r).mp
        rw [encode_nil, List.nil_append, hlast', reread, runes_encode] at hreread
        exact hreread rfl
  · rw [if_neg hs]
    refine ⟨'0' :: 'x' :: List.replicate (64 - (utf8 s).length) '0', [], s.toList, ?_,
      fun b hb => absurd hb List.not_mem_nil, ?_⟩
    · rw [encode_cons, encode_cons, encode_replicate_zero]
      rfl
    · rw [← hlen]
      exact ⟨fun _ => .inl (by omega), fun _ => rfl⟩

/-- A padded topic is a text exactly when it keeps whole runes. -/
theorem isText_paddedTopic_iff (addr : String) :
    (paddedTopic addr).IsText ↔ CutBetweenRunes addr := by
  obtain ⟨l, t, r, heq, ht, hcut⟩ := bytes_paddedTopic addr
  rw [← Topic.reread_eq_self_iff, Topic.reread, Topic.mk.injEq, heq, reread_eq_iff ht, hcut]

/-- Read rune by rune, a padded topic is the padded text. -/
theorem text_paddedTopic (addr : String) :
    (paddedTopic addr).text = padTo64 (trimPrefix (normalizeAddress addr) "0x") := by
  have hutf8 : ∀ s s' : String, utf8 (s ++ s') = utf8 s ++ utf8 s' := by
    intro s s'
    rw [utf8, String.toList_append, List.flatMap_append]
    rfl
  have hofList : ∀ l : List Char, utf8 (String.ofList l) = encode l := by
    intro l
    rw [utf8, String.toList_ofList]
    rfl
  suffices hbytes : (paddedTopic addr).reread =
      .ofText (padTo64 (trimPrefix (normalizeAddress addr) "0x")) by
    rw [← Topic.text_reread, hbytes, Topic.text_ofText]
  rw [Topic.reread, paddedTopic, Topic.ofText, Topic.mk.injEq, padTo64]
  generalize trimPrefix (normalizeAddress addr) "0x" = s
  rw [← length_utf8 s]
  by_cases hs : 64 < (utf8 s).length
  · obtain ⟨t, r, ht, -, heq, hlast⟩ := takeLast_encode 64 s
    have hsplit : takeLast 64 (utf8 s) = t ++ encode r := heq
    have hlength : (t ++ encode r).length = 64 := by
      rw [← hsplit, takeLast, List.length_drop]
      omega
    have hsize : 64 ≤ (lastBytes 64 s).utf8ByteSize := by
      rw [← length_utf8, hlast, hofList, encode_append, List.length_append,
        length_encode_replicate]
      rw [List.length_append] at hlength
      omega
    have hread : reread (encode ['0', 'x'] ++ (t ++ encode r)) =
        encode ['0', 'x'] ++ encode (List.replicate t.length '\ufffd' ++ r) := by
      rw [reread, runes_encode_append, runes_append_of_not_first ht, runes_encode, encode_append]
    rw [if_pos hs, if_pos hs, hsplit, hlength, Nat.sub_eq_zero_of_le hsize, Nat.sub_self, hutf8, hutf8,
      hlast, List.replicate_zero, List.replicate_zero, List.nil_append, hofList [],
      hofList (List.replicate _ _ ++ r), encode_nil, List.append_nil]
    exact hread
  · have hwhole : utf8 "0x" ++ (List.replicate (64 - (utf8 s).length) 48 ++ utf8 s) =
        utf8 ("0x" ++ String.ofList (List.replicate (64 - (utf8 s).length) '0') ++ s) := by
      rw [hutf8, hutf8, hofList (List.replicate _ _), encode_replicate_zero, List.append_assoc]
    rw [if_neg hs, if_neg hs, ← length_utf8, hwhole]
    generalize "0x" ++ String.ofList (List.replicate (64 - (utf8 s).length) '0') ++ s = padded
    show encode (runes (encode padded.toList)) = encode padded.toList
    rw [runes_encode]

end BhtBhte.Node
