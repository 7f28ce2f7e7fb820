import BhtBhte.Lib.Text

/-!
# Strings as a C++ program scans them

A position in a text is kept as the rest of the text from there on, so that a search gives the
text it has passed and the rest.

## Main definitions

* `cut` — `std::string::find`.
* `balanced` — the text up to the bracket that closes.
* `Matched` — the brackets of a text match.
* `stoull16` — `std::stoull` in base 16.
-/
namespace BhtBhte.Lib

/-! ## Searching -/

/-- The text before the first place where the pattern stands, and the text from there on. -/
def cut (pat : List Char) : List Char → Option (List Char × List Char)
  | [] => if pat = [] then some ([], []) else none
  | c :: s =>
    if pat.isPrefixOf (c :: s) then some ([], c :: s)
    else (cut pat s).map fun r => (c :: r.1, r.2)

/-- One character is passed. -/
theorem cut_cons {p c : Char} (h : c ≠ p) (pat s : List Char) :
    cut (p :: pat) (c :: s) = (cut (p :: pat) s).map fun r => (c :: r.1, r.2) := by
  rw [cut, if_neg]
  simp [List.isPrefixOf, h.symm]

theorem cut_of_isPrefix {pat s : List Char} (h : pat <+: s) : cut pat s = some ([], s) := by
  cases s with
  | nil => rw [cut, if_pos (List.prefix_nil.mp h)]
  | cons c s => rw [cut, if_pos (List.isPrefixOf_iff_prefix.mpr h)]

/-- The first place of the pattern is found. -/
theorem cut_append_of_isPrefix {pat a s : List Char} (hs : pat <+: s)
    (ha : ∀ i < a.length, ¬ pat <+: (a ++ s).drop i) : cut pat (a ++ s) = some (a, s) := by
  induction a with
  | nil => exact cut_of_isPrefix hs
  | cons c a ih =>
      have hhere : ¬ pat.isPrefixOf (c :: (a ++ s)) := fun h =>
        ha 0 (Nat.succ_pos _) (List.isPrefixOf_iff_prefix.mp h)
      rw [List.cons_append, cut, if_neg hhere,
        ih fun i hi => ha (i + 1) (Nat.succ_lt_succ hi)]
      rfl

/-- The pattern stands nowhere in the text that was passed. -/
theorem not_isPrefix_of_cut {pat s : List Char} {r : List Char × List Char}
    (h : cut pat s = some r) : ∀ i < r.1.length, ¬ pat <+: s.drop i := by
  induction s generalizing r with
  | nil =>
      rw [cut] at h
      split_ifs at h
      cases h
      exact fun i hi => absurd hi (Nat.not_lt_zero i)
  | cons c s ih =>
      rw [cut] at h
      split_ifs at h with hpat
      · cases h
        exact fun i hi => absurd hi (Nat.not_lt_zero i)
      · obtain ⟨r', hr', rfl⟩ := Option.map_eq_some_iff.mp h
        intro i hi
        cases i with
        | zero => exact fun hprefix => hpat (List.isPrefixOf_iff_prefix.mpr hprefix)
        | succ i => exact ih hr' i (Nat.lt_of_succ_lt_succ hi)

theorem cut_append {p : Char} {a : List Char} (h : ∀ c ∈ a, c ≠ p) (pat s : List Char) :
    cut (p :: pat) (a ++ s) = (cut (p :: pat) s).map fun r => (a ++ r.1, r.2) := by
  induction a with
  | nil => simp
  | cons c a ih =>
      rw [List.cons_append, cut_cons (h c List.mem_cons_self),
        ih fun c hc => h c (List.mem_cons_of_mem _ hc), Option.map_map]
      rfl

theorem cut_append_cons {p : Char} {a : List Char} (h : p ∉ a) (s : List Char) :
    cut [p] (a ++ p :: s) = some (a, p :: s) := by
  rw [cut_append fun c hc => ne_of_mem_of_not_mem hc h, cut_of_isPrefix (by simp), Option.map_some,
    List.append_nil]

theorem length_cut {p : Char} {s : List Char} {r : List Char × List Char}
    (h : cut [p] s = some r) : 0 < r.2.length ∧ r.2.length ≤ s.length := by
  induction s generalizing r with
  | nil => simp [cut] at h
  | cons c s ih =>
      rw [cut] at h
      split_ifs at h with hc
      · rw [← Option.some.inj h]
        exact ⟨Nat.succ_pos _, le_rfl⟩
      · obtain ⟨r', hr', rfl⟩ := Option.map_eq_some_iff.mp h
        exact ⟨(ih hr').1, (ih hr').2.trans (Nat.le_succ _)⟩

theorem notMem_cut {p : Char} {s : List Char} {r : List Char × List Char}
    (h : cut [p] s = some r) : p ∉ r.1 := by
  induction s generalizing r with
  | nil => simp [cut] at h
  | cons c s ih =>
      rw [cut] at h
      split_ifs at h with hc
      · rw [← Option.some.inj h]
        exact List.not_mem_nil
      · obtain ⟨r', hr', rfl⟩ := Option.map_eq_some_iff.mp h
        have hne : p ≠ c := by
          rintro rfl
          exact hc (by simp)
        rw [List.mem_cons, not_or]
        exact ⟨hne, ih hr'⟩

/-- A text is passed in which the first two characters of the pattern never stand together. -/
theorem cut_append_of_isChain {p q : Char} {a : List Char}
    (h : a.IsChain fun c d => ¬ (c = p ∧ d = q)) (pat : List Char) {s : List Char}
    (hs : s.head? ≠ some q) :
    cut (p :: q :: pat) (a ++ s) = (cut (p :: q :: pat) s).map fun r => (a ++ r.1, r.2) := by
  induction a with
  | nil => simp
  | cons c a ih =>
      have hpair : (p :: q :: pat).isPrefixOf (c :: (a ++ s)) = false := by
        cases a with
        | nil =>
            cases s with
            | nil => simp [List.isPrefixOf]
            | cons d s =>
                have hd : q ≠ d := fun heq => hs (by rw [heq]; rfl)
                simp [List.isPrefixOf, hd]
        | cons d a =>
            have hcd := (List.isChain_cons_cons.mp h).1
            rw [List.cons_append, List.isPrefixOf_cons_cons, List.isPrefixOf_cons_cons]
            by_contra htrue
            simp only [Bool.not_eq_false, Bool.and_eq_true, beq_iff_eq] at htrue
            exact hcd ⟨htrue.1.symm, htrue.2.1.symm⟩
      rw [List.cons_append, cut, if_neg (by rw [hpair]; exact Bool.false_ne_true),
        ih h.of_cons, Option.map_map]
      rfl

/-- The text from a place inside brackets on, as far as the bracket that closes the given number
of them. -/
def balanced (opens closes : List Char) : ℕ → List Char → List Char
  | depth + 1, c :: s =>
    c :: balanced opens closes
      (if c ∈ opens then depth + 2 else if c ∈ closes then depth else depth + 1) s
  | _, _ => []

/-- One character: a bracket opens, or closes one that is open. -/
def bracket (opens closes : List Char) (depth : ℕ) (c : Char) : Option ℕ :=
  if c ∈ opens then some (depth + 1)
  else if c ∈ closes then if depth = 0 then none else some (depth - 1)
  else some depth

/-- Every bracket of the text has its partner in the text. -/
def Matched (opens closes s : List Char) : Prop := s.foldlM (bracket opens closes) 0 = some 0

section Matched

variable {opens closes : List Char}

instance (s : List Char) : Decidable (Matched opens closes s) :=
  inferInstanceAs (Decidable (_ = _))

/-- Brackets that are open around a text change nothing in it. -/
theorem foldlM_bracket_add {s : List Char} {d e : ℕ}
    (h : s.foldlM (bracket opens closes) d = some e) (k : ℕ) :
    s.foldlM (bracket opens closes) (d + k) = some (e + k) := by
  induction s generalizing d with
  | nil =>
      rw [List.foldlM_nil] at h ⊢
      rw [Option.some.inj h]
      rfl
  | cons c s ih =>
      rw [List.foldlM_cons] at h ⊢
      obtain ⟨d', hd, hs⟩ := Option.bind_eq_some_iff.mp h
      have hstep : bracket opens closes (d + k) c = some (d' + k) := by
        unfold bracket at hd ⊢
        split_ifs at hd ⊢ with hopen hclose hzero hzero'
        · rw [← Option.some.inj hd, Nat.add_right_comm]
        · omega
        · rw [← Option.some.inj hd, Nat.sub_add_comm (by omega)]
        · rw [Option.some.inj hd]
      rw [hstep]
      exact ih hs

theorem Matched.foldlM {s : List Char} (h : Matched opens closes s) (k : ℕ) :
    s.foldlM (bracket opens closes) k = some k := by
  simpa using foldlM_bracket_add h k

theorem matched_nil : Matched opens closes [] := rfl

theorem Matched.append {s t : List Char} (hs : Matched opens closes s)
    (ht : Matched opens closes t) : Matched opens closes (s ++ t) := by
  rw [Matched, List.foldlM_append, hs]
  exact ht

theorem Matched.enclose {s : List Char} (h : Matched opens closes s) {o c : Char}
    (ho : o ∈ opens) (hc : c ∈ closes) (hc' : c ∉ opens) :
    Matched opens closes (o :: s ++ [c]) := by
  have hopen : bracket opens closes 0 o = some 1 := if_pos ho
  have hclose : bracket opens closes 1 c = some 0 := by simp [bracket, hc, hc']
  rw [Matched, List.foldlM_append, List.foldlM_cons, hopen]
  show (s.foldlM (bracket opens closes) 1 >>= _) = _
  rw [h.foldlM 1]
  show (bracket opens closes 1 c >>= _) = _
  rw [hclose]
  rfl

theorem matched_of_forall {s : List Char} (h : ∀ c ∈ s, c ∉ opens ∧ c ∉ closes) :
    Matched opens closes s := by
  induction s with
  | nil => exact matched_nil
  | cons c s ih =>
      have hc := h c List.mem_cons_self
      have hstep : bracket opens closes 0 c = some 0 := by simp [bracket, hc.1, hc.2]
      rw [Matched, List.foldlM_cons, hstep]
      exact ih fun d hd => h d (List.mem_cons_of_mem _ hd)

theorem balanced_of_foldlM {s : List Char} {d e : ℕ}
    (h : s.foldlM (bracket opens closes) d = some e) (t : List Char) :
    balanced opens closes (d + 1) (s ++ t) = s ++ balanced opens closes (e + 1) t := by
  induction s generalizing d with
  | nil => rw [Option.some.inj h]; rfl
  | cons c s ih =>
      rw [List.foldlM_cons] at h
      obtain ⟨d', hd, hs⟩ := Option.bind_eq_some_iff.mp h
      have hdepth : (if c ∈ opens then d + 2 else if c ∈ closes then d else d + 1) = d' + 1 := by
        unfold bracket at hd
        split_ifs at hd ⊢ with hopen hclose hzero
        · rw [← Option.some.inj hd]
        · rw [← Option.some.inj hd, Nat.sub_add_cancel (by omega)]
        · rw [Option.some.inj hd]
      rw [List.cons_append, balanced, hdepth, ih hs]
      rfl

@[simp]
theorem balanced_zero (s : List Char) : balanced opens closes 0 s = [] := by
  cases s <;> rfl

/-- **The bracket behind a text whose brackets match is the one that closes.** -/
theorem balanced_append {s : List Char} (h : Matched opens closes s) {c : Char}
    (hc : c ∈ closes) (hc' : c ∉ opens) (t : List Char) :
    balanced opens closes 1 (s ++ c :: t) = s ++ [c] := by
  rw [balanced_of_foldlM h, balanced, if_neg hc', if_pos hc, balanced_zero]

end Matched

/-! ## Reading numbers -/

/-- What `std::stoull` throws. -/
inductive Thrown where
  | invalidArgument
  | outOfRange
  deriving DecidableEq, Repr

section Except

universe u v

variable {ε : Type u} {α β : Type v} {x : Except ε α} {b : β}

theorem bind_eq_ok {f : α → Except ε β} : x >>= f = .ok b ↔ ∃ a, x = .ok a ∧ f a = .ok b := by
  cases x with
  | error e =>
      constructor
      · exact fun h => nomatch h
      · rintro ⟨a, h, -⟩
        cases h
  | ok a =>
      constructor
      · exact fun h => ⟨a, rfl, h⟩
      · rintro ⟨a', h, hb⟩
        cases h
        exact hb

theorem map_eq_ok {f : α → β} : x.map f = .ok b ↔ ∃ a, x = .ok a ∧ f a = b := by
  cases x with
  | error e =>
      constructor
      · exact fun h => nomatch h
      · rintro ⟨a, h, -⟩
        cases h
  | ok a =>
      constructor
      · exact fun h => ⟨a, rfl, Except.ok.inj h⟩
      · rintro ⟨a', h, rfl⟩
        cases h
        rfl

end Except

/-- White space of the C locale. -/
def isSpaceC (c : Char) : Bool := c ∈ [' ', '\t', '\n', '\x0b', '\x0c', '\r']

def isHexDigitC (c : Char) : Bool := digitVal c < 16

/-- A prefix `0x` is dropped when a digit follows it. -/
def dropHexPrefix (s : List Char) : List Char :=
  if s[0]? = some '0' ∧ (s[1]? = some 'x' ∨ s[1]? = some 'X') ∧ s[2]?.any isHexDigitC then s.drop 2
  else s

/-- `std::stoull` in base 16.  A negative number is the two's complement. -/
def stoull16 (s : List Char) : Except Thrown UInt64 :=
  let s := s.dropWhile isSpaceC
  let negative := s.head? == some '-'
  let s := if negative ∨ s.head? = some '+' then s.drop 1 else s
  let digits := (dropHexPrefix s).takeWhile isHexDigitC
  if digits = [] then .error .invalidArgument
  else
    let n := digits.foldl (fun a c => a * 16 + digitVal c) 0
    if 2 ^ 64 ≤ n then .error .outOfRange
    else if negative then .ok (-UInt64.ofNat n)
    else .ok (UInt64.ofNat n)

/-- What a digit is not. -/
theorem digitChar_scanned : ∀ d < 16, isSpaceC (Nat.digitChar d) = false ∧
    Nat.digitChar d ≠ '-' ∧ Nat.digitChar d ≠ '+' ∧ Nat.digitChar d ≠ 'x' ∧
      Nat.digitChar d ≠ 'X' ∧ isHexDigitC (Nat.digitChar d) = true := by decide

/-- Digits are taken whole. -/
theorem stoull16_eq_ite {l : List Char} (hne : l ≠ [])
    (h : ∀ c ∈ l, ∃ d < 16, c = Nat.digitChar d) :
    stoull16 l = if 2 ^ 64 ≤ l.foldl (fun a c => a * 16 + digitVal c) 0 then .error .outOfRange
      else .ok (UInt64.ofNat (l.foldl (fun a c => a * 16 + digitVal c) 0)) := by
  have hscanned : ∀ c ∈ l, isSpaceC c = false ∧ c ≠ '-' ∧ c ≠ '+' ∧ c ≠ 'x' ∧ c ≠ 'X' ∧
      isHexDigitC c = true := by
    intro c hc
    obtain ⟨d, hd, rfl⟩ := h c hc
    exact digitChar_scanned d hd
  have hspace : l.dropWhile isSpaceC = l := by
    cases l with
    | nil => rfl
    | cons c l => exact List.dropWhile_cons_of_neg (by simp [(hscanned c List.mem_cons_self).1])
  have hsign : ∀ c, l.head? = some c → c ≠ '-' ∧ c ≠ '+' := by
    intro c hc
    have hmem := List.mem_of_mem_head? hc
    exact ⟨(hscanned c hmem).2.1, (hscanned c hmem).2.2.1⟩
  have hprefix : dropHexPrefix l = l := by
    refine if_neg fun hx => ?_
    rcases hx.2.1 with hc | hc
    · exact (hscanned _ (List.mem_of_getElem? hc)).2.2.2.1 rfl
    · exact (hscanned _ (List.mem_of_getElem? hc)).2.2.2.2.1 rfl
  have htake : l.takeWhile isHexDigitC = l :=
    List.takeWhile_eq_self_iff.mpr fun c hc => (hscanned c hc).2.2.2.2.2
  have hminus : ¬ l.head? = some '-' := fun hc => (hsign _ hc).1 rfl
  have hplus : ¬ l.head? = some '+' := fun hc => (hsign _ hc).2 rfl
  rw [stoull16, hspace]
  simp only [beq_iff_eq, hminus, hplus, or_self, if_false, hprefix, htake, hne]

theorem stoull16_toDigits_eq_ite (n : ℕ) : stoull16 (Nat.toDigits 16 n) =
    if 2 ^ 64 ≤ n then .error .outOfRange else .ok (UInt64.ofNat n) := by
  have hdigits := exists_digitChar_of_mem_toDigits (by decide : 1 < 16) (n := n)
  rw [stoull16_eq_ite Nat.toDigits_ne_nil hdigits, foldl_toDigits (by decide : 1 < 16) le_rfl n]

theorem stoull16_toDigits {n : ℕ} (h : n < 2 ^ 64) :
    stoull16 (Nat.toDigits 16 n) = .ok (UInt64.ofNat n) :=
  (stoull16_toDigits_eq_ite n).trans (if_neg (not_le.mpr h))

/-- A text that begins with something else is no number. -/
theorem stoull16_cons {c : Char} (hc : isSpaceC c = false ∧ c ≠ '-' ∧ c ≠ '+' ∧
    isHexDigitC c = false) (s : List Char) : stoull16 (c :: s) = .error .invalidArgument := by
  obtain ⟨hspace, hminus, hplus, hdigit⟩ := hc
  have hzero : c ≠ '0' := by
    rintro rfl
    revert hdigit
    decide
  have hprefix : dropHexPrefix (c :: s) = c :: s :=
    if_neg fun hx => hzero (Option.some.inj hx.1)
  rw [stoull16, List.dropWhile_cons_of_neg (by simp [hspace])]
  simp [hminus, hplus, hprefix, hdigit]

end BhtBhte.Lib
