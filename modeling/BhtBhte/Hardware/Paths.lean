import BhtBhte.Lib.Lists
import BhtBhte.Lib.Scanf
import BhtBhte.Lib.Utf8
import Mathlib.Data.Nat.Bitwise

/-!
# The derivation paths of a hardware wallet

A path is printed as `m/44'/0'/7` and parsed back.  The parser drops the first two bytes of a
text that begins with `m`, whatever the second one is, and scans each segment with `%d`, which
takes blanks in front of a number and anything behind it.

A segment is built from whole runes and is kept as its runes: its last byte is a mark exactly when
its last rune is one.  Printing and parsing do what they are for on the texts without these
(`readsBack_and_acceptsOnlyPaths_iff`).
-/
namespace BhtBhte.Hardware
open BhtBhte.Lib

/-! ## The code -/

/-- A run ends with an error value, or panics on a slice out of bounds. -/
inductive Failure
  | error (message : String)
  | sliceBounds
  deriving DecidableEq

/-- A path, as the numbers of its components. -/
structure HWWPath where
  path : List UInt32
  deriving DecidableEq

/-- The slice `s[k:]`. -/
def sliceFrom (k : ℕ) (s : List UInt8) : Except Failure (List UInt8) :=
  if k ≤ s.length then .ok (s.drop k) else .error .sliceBounds

/-- The loop of `splitPath`. -/
def splitPathLoop (result : List (List Char)) (current : List Char) :
    List Char → List (List Char)
  | [] => if current ≠ [] then result ++ [current] else result
  | c :: path =>
      if c = '/' then
        if current ≠ [] then splitPathLoop (result ++ [current]) [] path
        else splitPathLoop result current path
      else splitPathLoop result (current ++ [c]) path

/-- The segments of a path, empty ones left out. -/
def splitPath (path : List UInt8) : List (List Char) := splitPathLoop [] [] (runes path)

/-- The segment ends in a mark. -/
def hardened (segment : List Char) : Bool :=
  segment.getLast? = some '\'' ∨ segment.getLast? = some 'h'

/-- A segment without its mark. -/
def unmarked (segment : List Char) : List Char :=
  if hardened segment then segment.dropLast else segment

/-- The body of the loop of `ParseBIP32Path`. -/
def parseSegment (segment : List Char) : Except Failure UInt32 :=
  match scanUint 32 (unmarked segment) with
  | none => .error (.error ("invalid path segment: " ++ String.ofList (unmarked segment)))
  | some value =>
      .ok (if hardened segment then UInt32.ofNat value ||| 0x80000000 else UInt32.ofNat value)

/-- Read a path, component by component. -/
def parseBIP32Path (pathStr : List UInt8) : Except Failure HWWPath :=
  match pathStr.head? with
  | none => .error (.error "empty path")
  | some first =>
      (if first = 'm'.toUInt8 then sliceFrom 2 pathStr else .ok pathStr).bind fun pathStr =>
        ((splitPath pathStr).mapM parseSegment).map HWWPath.mk

/-- A component as `String` prints it. -/
def componentText (v : UInt32) : List Char :=
  if v &&& 0x80000000 ≠ 0 then Nat.toDigits 10 (v &&& 0x7FFFFFFF).toNat ++ ['\'']
  else Nat.toDigits 10 v.toNat

/-- `String`. -/
def HWWPath.string (p : HWWPath) : List UInt8 :=
  encode ('m' :: p.path.flatMap fun v => '/' :: componentText v)

/-! ## What they are for -/

/-- The parts of a text between its slashes, without the empty ones. -/
def segments (s : List UInt8) : List (List Char) :=
  ((runes s).splitOn '/').filter (· ≠ [])

/-- A decimal number below `2 ^ 31`, with or without a mark. -/
def IsComponent (segment : List Char) : Prop :=
  ∃ digits mark, segment = digits ++ mark ∧ digits ≠ [] ∧ (∀ c ∈ digits, c ∈ decimalDigits) ∧
    decimalValue digits < 2 ^ 31 ∧ mark ∈ [[], ['\''], ['h']]

/-- The text of a path behind its `m/`, when it has one. -/
def body (s : List UInt8) : List UInt8 :=
  if encode ['m', '/'] <+: s then s.drop 2 else s

/-- What is printed is parsed back. -/
def ReadsBack (p : HWWPath) : Prop := parseBIP32Path p.string = .ok p

/-- Nothing panics, and only the texts of paths are accepted. -/
def AcceptsOnlyPaths (s : List UInt8) : Prop :=
  parseBIP32Path s ≠ .error .sliceBounds ∧
    ((∃ p, parseBIP32Path s = .ok p) → ∀ segment ∈ segments (body s), IsComponent segment)

/-- A text that begins with `m`, without its first two bytes. -/
def stripped (s : List UInt8) : List UInt8 := if encode ['m'] <+: s then s.drop 2 else s

/-- Nothing but a mark stands around the digits of a segment, and their number is small. -/
def Bare (segment : List Char) : Prop :=
  (∀ c ∈ unmarked segment, c ∈ decimalDigits) ∧ decimalValue (unmarked segment) < 2 ^ 31

/-- `s` is not the letter `m` alone.  When each of its segments begins, behind blanks, with a
decimal number below `2 ^ 32`, a slash follows an `m` in front, and each segment is bare. -/
def Careful (s : List UInt8) : Prop :=
  s ≠ encode ['m'] ∧
    ((∀ segment ∈ segments (stripped s), ∃ n, Scans 32 (unmarked segment) n) →
      (encode ['m'] <+: s → encode ['m', '/'] <+: s) ∧
        ∀ segment ∈ segments (stripped s), Bare segment)

/-! ## Splitting -/

theorem splitPathLoop_eq (result : List (List Char)) (current path : List Char) :
    splitPathLoop result current path =
      result ++ (List.splitOnPPrepend (· == '/') path current.reverse).filter (· ≠ []) := by
  induction path generalizing result current with
  | nil =>
      rw [splitPathLoop, List.splitOnPPrepend_nil, List.reverse_reverse]
      by_cases hc : current = []
      · simp [hc]
      · simp [hc]
  | cons c path ih =>
      rw [splitPathLoop, List.splitOnPPrepend_cons_eq_if, List.reverse_reverse]
      by_cases hslash : c = '/'
      · have hbeq : (c == '/') = true := by simpa using hslash
        rw [if_pos hslash, if_pos hbeq]
        by_cases hc : current = []
        · rw [if_neg (by simpa using hc), ih, hc]
          simp
        · rw [if_pos hc, ih]
          simp [hc]
      · have hbeq : ¬ (c == '/') = true := by simpa using hslash
        rw [if_neg hslash, if_neg hbeq, ih, List.reverse_append,
          List.reverse_singleton, List.singleton_append]

/-- **The code splits a text at its slashes.** -/
theorem splitPath_eq_segments (s : List UInt8) : splitPath s = segments s := by
  rw [splitPath, splitPathLoop_eq, segments, List.splitOn_eq_splitOnP,
    List.splitOnP_eq_splitOnPPrepend]
  rfl

/-- Texts that are each put behind a slash. -/
theorem splitOn_flatMap (a : List Char) (l : List (List Char)) (ha : '/' ∉ a)
    (h : ∀ b ∈ l, '/' ∉ b) :
    (a ++ l.flatMap ('/' :: ·)).splitOn '/' = a :: l := by
  induction l generalizing a with
  | nil => rw [List.flatMap_nil, List.append_nil, List.splitOn_eq_singleton ha]
  | cons b l ih =>
      rw [List.flatMap_cons, List.cons_append, List.splitOn_append_cons_self_of_not_mem ha,
        ih b (h b List.mem_cons_self) fun b' hb' => h b' (List.mem_cons_of_mem b hb')]

/-- The first part of a text that begins with another letter than a slash. -/
theorem exists_cons_mem_segments {c : Char} (hc : c ≠ '/') {s : List UInt8} {cs : List Char}
    (hs : runes s = c :: cs) : ∃ l, (c :: l) ∈ segments s := by
  obtain ⟨a, l, hal⟩ := List.exists_cons_of_ne_nil (List.splitOn_ne_nil '/' cs)
  refine ⟨a, List.mem_filter.mpr ⟨?_, by simp⟩⟩
  rw [hs, List.splitOn_cons_eq_if_modifyHead, if_neg (by simpa using hc), hal]
  exact List.mem_cons_self

/-! ## What is accepted -/

theorem m_slash_prefix_iff {s : List UInt8} :
    encode ['m', '/'] <+: s ↔ ∃ bs, s = 'm'.toUInt8 :: '/'.toUInt8 :: bs := by
  constructor
  · rintro ⟨bs, rfl⟩
    exact ⟨bs, rfl⟩
  · rintro ⟨bs, rfl⟩
    exact ⟨bs, rfl⟩

theorem m_prefix_iff {s : List UInt8} : encode ['m'] <+: s ↔ ∃ bs, s = 'm'.toUInt8 :: bs := by
  constructor
  · rintro ⟨bs, rfl⟩
    exact ⟨bs, rfl⟩
  · rintro ⟨bs, rfl⟩
    exact ⟨bs, rfl⟩

theorem parseSegment_isOk_iff {segment : List Char} :
    (∃ v, parseSegment segment = .ok v) ↔ ∃ n, Scans 32 (unmarked segment) n := by
  simp only [← scanUint_eq_some_iff]
  rw [parseSegment]
  cases scanUint 32 (unmarked segment) with
  | none => simp
  | some n => simp

theorem parseSegment_ne_sliceBounds (segment : List Char) :
    parseSegment segment ≠ .error .sliceBounds := by
  rw [parseSegment]
  cases scanUint 32 (unmarked segment) with
  | none => simp
  | some n => simp

/-- The letter `m` alone is sliced out of bounds. -/
theorem parseBIP32Path_m : parseBIP32Path (encode ['m']) = .error .sliceBounds := rfl

theorem parseBIP32Path_eq {s : List UInt8} (hne : s ≠ []) (hm : s ≠ encode ['m']) :
    parseBIP32Path s = ((segments (stripped s)).mapM parseSegment).map HWWPath.mk := by
  obtain ⟨b, bs, rfl⟩ := List.exists_cons_of_ne_nil hne
  rw [parseBIP32Path, List.head?_cons]
  by_cases hb : b = 'm'.toUInt8
  · have hlen : 2 ≤ (b :: bs).length := by
      cases bs with
      | nil => exact absurd (congrArg (· :: []) hb) hm
      | cons b' bs => simp
    have hprefix : encode ['m'] <+: b :: bs := m_prefix_iff.mpr ⟨bs, by rw [hb]⟩
    simp only [if_pos hb, sliceFrom, if_pos hlen, stripped, if_pos hprefix]
    rw [← splitPath_eq_segments]
    rfl
  · have hprefix : ¬ encode ['m'] <+: b :: bs := by
      rw [m_prefix_iff]
      rintro ⟨bs', heq⟩
      exact hb (List.cons.inj heq).1
    simp only [if_neg hb, stripped, if_neg hprefix]
    rw [← splitPath_eq_segments]
    rfl

/-- **Exactly the texts whose segments each begin, behind blanks, with a number are accepted.** -/
theorem parseBIP32Path_isOk_iff {s : List UInt8} (hne : s ≠ []) (hm : s ≠ encode ['m']) :
    (∃ p, parseBIP32Path s = .ok p) ↔
      ∀ segment ∈ segments (stripped s), ∃ n, Scans 32 (unmarked segment) n := by
  simp only [← parseSegment_isOk_iff]
  rw [parseBIP32Path_eq hne hm]
  rcases mapM_ok_or_error parseSegment (segments (stripped s)) with
    ⟨path, hpath, hall⟩ | ⟨segment, hmem, e, herror, he⟩
  · rw [hpath]
    exact ⟨fun _ => hall, fun _ => ⟨{ path }, rfl⟩⟩
  · rw [he]
    constructor
    · rintro ⟨p, hp⟩
      cases hp
    · intro hall
      obtain ⟨v, hv⟩ := hall segment hmem
      rw [herror] at hv
      cases hv

/-- Nothing else than the letter `m` alone panics. -/
theorem parseBIP32Path_eq_sliceBounds_iff {s : List UInt8} :
    parseBIP32Path s = .error .sliceBounds ↔ s = encode ['m'] := by
  constructor
  · intro h
    by_contra hm
    have hne : s ≠ [] := by
      rintro rfl
      cases h
    rw [parseBIP32Path_eq hne hm] at h
    rcases mapM_ok_or_error parseSegment (segments (stripped s)) with
      ⟨path, hpath, -⟩ | ⟨segment, -, e, herror, he⟩
    · rw [hpath] at h
      cases h
    · rw [he] at h
      cases h
      exact parseSegment_ne_sliceBounds segment herror
  · rintro rfl
    exact parseBIP32Path_m

/-! ## The components of a text -/

theorem not_hardened_of_digits {digits : List Char} (h : ∀ c ∈ digits, c ∈ decimalDigits) :
    hardened digits = false := by
  rw [hardened, decide_eq_false_iff_not]
  rintro (hlast | hlast)
  · exact absurd (h _ (List.mem_of_mem_getLast? hlast)) (by decide)
  · exact absurd (h _ (List.mem_of_mem_getLast? hlast)) (by decide)

theorem hardened_append_mark {c : Char} (hc : c = '\'' ∨ c = 'h') (digits : List Char) :
    hardened (digits ++ [c]) = true := by
  rw [hardened, decide_eq_true_eq, List.getLast?_concat, Option.some.injEq, Option.some.injEq]
  exact hc

theorem unmarked_append_mark {c : Char} (hc : c = '\'' ∨ c = 'h') (digits : List Char) :
    unmarked (digits ++ [c]) = digits := by
  rw [unmarked, if_pos (hardened_append_mark hc digits), List.dropLast_concat]

theorem unmarked_of_digits {digits : List Char} (h : ∀ c ∈ digits, c ∈ decimalDigits) :
    unmarked digits = digits := by
  rw [unmarked, if_neg (by rw [not_hardened_of_digits h]; decide)]

/-- A segment is its unmarked part with a mark or none behind it. -/
theorem exists_mark (segment : List Char) :
    ∃ mark ∈ [[], ['\''], ['h']], segment = unmarked segment ++ mark := by
  rw [unmarked]
  split
  · next hmark =>
      rw [hardened, decide_eq_true_eq] at hmark
      rcases hmark with hlast | hlast
      · exact ⟨['\''], by simp, (List.dropLast_append_getLast? _ hlast).symm⟩
      · exact ⟨['h'], by simp, (List.dropLast_append_getLast? _ hlast).symm⟩
  · exact ⟨[], by simp, (List.append_nil segment).symm⟩

theorem isComponent_iff {segment : List Char} :
    IsComponent segment ↔ unmarked segment ≠ [] ∧ Bare segment := by
  constructor
  · rintro ⟨digits, mark, rfl, hne, hdigits, hlt, hmark⟩
    have hun : unmarked (digits ++ mark) = digits := by
      simp only [List.mem_cons, List.not_mem_nil, or_false] at hmark
      rcases hmark with rfl | rfl | rfl
      · rw [List.append_nil, unmarked_of_digits hdigits]
      · exact unmarked_append_mark (.inl rfl) digits
      · exact unmarked_append_mark (.inr rfl) digits
    rw [Bare, hun]
    exact ⟨hne, hdigits, hlt⟩
  · rintro ⟨hne, hdigits, hlt⟩
    obtain ⟨mark, hmark, hsegment⟩ := exists_mark segment
    exact ⟨unmarked segment, mark, hsegment, hne, hdigits, hlt, hmark⟩

/-- A text that begins with `m` but not with `m/` is no text of a path. -/
theorem exists_not_isComponent {s : List UInt8} (hm : encode ['m'] <+: s) :
    ∃ segment ∈ segments s, ¬ IsComponent segment := by
  obtain ⟨bs, rfl⟩ := m_prefix_iff.mp hm
  obtain ⟨l, hl⟩ := exists_cons_mem_segments (by decide) (runes_encodeChar_append 'm' bs)
  refine ⟨'m' :: l, hl, ?_⟩
  rintro ⟨digits, mark, heq, hne, hdigits, -⟩
  obtain ⟨c, cs, rfl⟩ := List.exists_cons_of_ne_nil hne
  obtain ⟨rfl, -⟩ := List.cons.inj heq
  exact absurd (hdigits 'm' List.mem_cons_self) (by decide)

theorem body_eq_stripped {s : List UInt8} (h : encode ['m'] <+: s → encode ['m', '/'] <+: s) :
    body s = stripped s := by
  rw [body, stripped]
  by_cases hm : encode ['m'] <+: s
  · rw [if_pos hm, if_pos (h hm)]
  · have hslash : ¬ encode ['m', '/'] <+: s := by
      rw [m_slash_prefix_iff]
      rintro ⟨bs, rfl⟩
      exact hm (m_prefix_iff.mpr ⟨_, rfl⟩)
    rw [if_neg hm, if_neg hslash]

/-- **Where only the texts of paths are accepted.** -/
theorem acceptsOnlyPaths_iff_careful (s : List UInt8) : AcceptsOnlyPaths s ↔ Careful s := by
  constructor
  · rintro ⟨hbounds, honly⟩
    have hm : s ≠ encode ['m'] := fun heq => hbounds (parseBIP32Path_eq_sliceBounds_iff.mpr heq)
    refine ⟨hm, fun hscans => ?_⟩
    by_cases hne : s = []
    · subst hne
      exact ⟨fun hprefix => absurd hprefix (by decide), fun segment hmem => by
        simp [segments, stripped, runes, encode] at hmem⟩
    have hcomponents := honly ((parseBIP32Path_isOk_iff hne hm).mpr hscans)
    have hslash : encode ['m'] <+: s → encode ['m', '/'] <+: s := by
      intro hprefix
      by_contra hno
      obtain ⟨segment, hmem, hnot⟩ := exists_not_isComponent hprefix
      rw [body, if_neg hno] at hcomponents
      exact hnot (hcomponents segment hmem)
    rw [body_eq_stripped hslash] at hcomponents
    exact ⟨hslash, fun segment hmem => (isComponent_iff.mp (hcomponents segment hmem)).2⟩
  · rintro ⟨hm, hcareful⟩
    refine ⟨fun hbounds => hm (parseBIP32Path_eq_sliceBounds_iff.mp hbounds), fun hok => ?_⟩
    have hne : s ≠ [] := by
      rintro rfl
      obtain ⟨p, hp⟩ := hok
      cases hp
    have hscans := (parseBIP32Path_isOk_iff hne hm).mp hok
    obtain ⟨hslash, hbare⟩ := hcareful hscans
    rw [body_eq_stripped hslash]
    intro segment hmem
    obtain ⟨n, hn⟩ := hscans segment hmem
    exact isComponent_iff.mpr ⟨hn.ne_nil, hbare segment hmem⟩

/-! ## What is printed -/

theorem slash_not_mem_componentText (v : UInt32) : '/' ∉ componentText v := by
  intro hmem
  rw [componentText] at hmem
  split at hmem
  · rcases List.mem_append.mp hmem with hmem | hmem
    · exact absurd (mem_decimalDigits_of_mem_toDigits hmem) (by decide)
    · exact absurd hmem (by decide)
  · exact absurd (mem_decimalDigits_of_mem_toDigits hmem) (by decide)

theorem componentText_ne_nil (v : UInt32) : componentText v ≠ [] := by
  rw [componentText]
  split
  · simp
  · exact Nat.toDigits_ne_nil

/-- The top bit of a word with the bits below it. -/
theorem low_or_top {v : UInt32} (h : v &&& 0x80000000 ≠ 0) :
    (v &&& 0x7FFFFFFF) ||| 0x80000000 = v := by
  have htop : v.toNat &&& 2 ^ 31 = 2 ^ 31 := by
    rcases hbit : v.toNat.testBit 31 with - | -
    · refine absurd (UInt32.toNat_inj.mp ?_) h
      calc (v &&& 0x80000000).toNat = v.toNat &&& 2 ^ 31 := UInt32.toNat_and v 0x80000000
        _ = 0 := by rw [Nat.and_two_pow, hbit, Bool.toNat_false, Nat.zero_mul]
    · rw [Nat.and_two_pow, hbit, Bool.toNat_true, Nat.one_mul]
  apply UInt32.toNat_inj.mp
  calc ((v &&& 0x7FFFFFFF) ||| 0x80000000).toNat
      = (v.toNat &&& 0x7FFFFFFF) ||| 2 ^ 31 := by
        rw [UInt32.toNat_or, UInt32.toNat_and]
        rfl
    _ = (v.toNat &&& 0x7FFFFFFF) ||| (v.toNat &&& 2 ^ 31) := by rw [htop]
    _ = v.toNat &&& (2 ^ 32 - 1) := by
        rw [← Nat.and_or_distrib_left]
        rfl
    _ = v.toNat := by rw [Nat.and_two_pow_sub_one_of_lt_two_pow v.toNat_lt]

theorem parseSegment_componentText (v : UInt32) : parseSegment (componentText v) = .ok v := by
  rw [componentText]
  split
  · next htop =>
      have hlt := (v &&& 0x7FFFFFFF).toNat_lt
      rw [parseSegment, unmarked_append_mark (.inl rfl), hardened_append_mark (.inl rfl),
        scanUint_toDigits hlt (by decide)]
      simp only [if_true, UInt32.ofNat_toNat, low_or_top htop]
  · have hdigits : ∀ c ∈ Nat.toDigits 10 v.toNat, c ∈ decimalDigits :=
      fun c hc => mem_decimalDigits_of_mem_toDigits hc
    rw [parseSegment, unmarked_of_digits hdigits, not_hardened_of_digits hdigits,
      scanUint_toDigits v.toNat_lt (by decide)]
    simp only [Bool.false_eq_true, if_false, UInt32.ofNat_toNat]

/-- The text of a path, behind its `m/`. -/
theorem string_cons (v : UInt32) (vs : List UInt32) :
    (HWWPath.mk (v :: vs)).string = 'm'.toUInt8 :: '/'.toUInt8 ::
      encode (componentText v ++ (vs.map componentText).flatMap ('/' :: ·)) := by
  rw [HWWPath.string, List.flatMap_map]
  rfl

theorem segments_string (v : UInt32) (vs : List UInt32) :
    segments (stripped (HWWPath.mk (v :: vs)).string) = (v :: vs).map componentText := by
  rw [string_cons, stripped, if_pos (m_prefix_iff.mpr ⟨_, rfl⟩), List.drop_succ_cons,
    List.drop_succ_cons, List.drop_zero, segments, runes_encode, splitOn_flatMap]
  · rw [← List.map_cons, List.filter_eq_self]
    intro text htext
    obtain ⟨w, -, rfl⟩ := List.mem_map.mp htext
    simpa using componentText_ne_nil w
  · exact slash_not_mem_componentText v
  · intro text htext
    obtain ⟨w, -, rfl⟩ := List.mem_map.mp htext
    exact slash_not_mem_componentText w

/-- **A path with a component is parsed back.** -/
theorem parseBIP32Path_string {p : HWWPath} (hp : p.path ≠ []) :
    parseBIP32Path p.string = .ok p := by
  obtain ⟨path⟩ := p
  obtain ⟨v, vs, rfl⟩ := List.exists_cons_of_ne_nil hp
  have hm : (HWWPath.mk (v :: vs)).string ≠ encode ['m'] := by
    rw [string_cons]
    rintro h
    cases (List.cons.inj h).2
  rw [parseBIP32Path_eq (by simp [string_cons]) hm, segments_string,
    mapM_map_ok fun w _ => parseSegment_componentText w]
  rfl

/-- The path without components is printed as the letter `m`. -/
theorem readsBack_iff (p : HWWPath) : ReadsBack p ↔ p.path ≠ [] := by
  constructor
  · rintro h hp
    obtain ⟨path⟩ := p
    subst hp
    cases h
  · exact parseBIP32Path_string

/-- **Printing and parsing do what they are for, for the paths with a component and the texts
that hold nothing the parser overlooks.** -/
theorem readsBack_and_acceptsOnlyPaths_iff (p : HWWPath) (s : List UInt8) :
    ReadsBack p ∧ AcceptsOnlyPaths s ↔ p.path ≠ [] ∧ Careful s := by
  rw [readsBack_iff, acceptsOnlyPaths_iff_careful]

/-- The path without components is printed as a text that the parser panics on. -/
theorem not_readsBack_empty :
    ¬ (ReadsBack { path := [] } ∧ AcceptsOnlyPaths (HWWPath.string { path := [] })) := by
  rintro ⟨h, -⟩
  cases h

end BhtBhte.Hardware
