import BhtBhte.Lib.Scanning

/-!
# JSON texts

The grammar of JSON as a syntax tree that keeps the white space and the escapes, so that a tree is
one text and every text of the grammar has a tree.  Brackets match where no string holds one, and a
string is as long as what it stands for just when it has no escapes.

## Main definitions

* `Item`, `Str` — strings as they are written; `unescape` is what they stand for.
* `Value`, `Member` — values and the members of objects; `Value.text`.
* `content` — a string unescaped, any other value as its text.
-/
namespace BhtBhte.Lib.Json

/-! ## Strings -/

/-- The escapes of two characters. -/
inductive Escape where
  | quote
  | backslash
  | slash
  | backspace
  | formFeed
  | lineFeed
  | carriageReturn
  | tab

namespace Escape

/-- The character behind the backslash. -/
def letter : Escape → Char
  | quote => '"'
  | backslash => '\\'
  | slash => '/'
  | backspace => 'b'
  | formFeed => 'f'
  | lineFeed => 'n'
  | carriageReturn => 'r'
  | tab => 't'

/-- The character it stands for. -/
def value : Escape → Char
  | quote => '"'
  | backslash => '\\'
  | slash => '/'
  | backspace => '\x08'
  | formFeed => '\x0c'
  | lineFeed => '\n'
  | carriageReturn => '\r'
  | tab => '\t'

end Escape

/-- A character that needs no escape. -/
abbrev Plain := {c : Char // ' ' ≤ c ∧ c ≠ '"' ∧ c ≠ '\\'}

/-- Four hexadecimal digits, in either case. -/
abbrev Hex4 := {l : List Char // l.length = 4 ∧ ∀ c ∈ l, digitVal c < 16}

/-- One character of a string, as it is written. -/
inductive Item where
  | plain (c : Plain)
  | escape (e : Escape)
  | unicode (digits : Hex4)

namespace Item

def text : Item → List Char
  | plain c => [c.1]
  | escape e => ['\\', e.letter]
  | unicode digits => '\\' :: 'u' :: digits.1

def isPlain : Item → Bool
  | plain _ => true
  | _ => false

theorem length_text (i : Item) : 1 ≤ i.text.length ∧ (i.text.length = 1 ↔ i.isPlain) := by
  cases i with
  | plain c => simp [text, isPlain]
  | escape e => simp [text, isPlain]
  | unicode digits => simp [text, isPlain]

end Item

/-- A string between its quotes. -/
abbrev Str := List Item

/-- What stands between the quotes. -/
def raw (s : Str) : List Char := s.flatMap Item.text

def quoted (s : Str) : List Char := '"' :: raw s ++ ['"']

/-- The number that four digits stand for. -/
def codeUnit (digits : Hex4) : ℕ := digits.1.foldl (fun a c => a * 16 + digitVal c) 0

/-- A code unit on its own; half of a pair becomes the replacement character. -/
def codeChar (n : ℕ) : Char := if 0xd800 ≤ n ∧ n < 0xe000 then '\ufffd' else Char.ofNat n

/-- The text that a string stands for. -/
def unescape : Str → List Char
  | [] => []
  | .plain c :: s => c.1 :: unescape s
  | .escape e :: s => e.value :: unescape s
  | .unicode d :: .unicode d' :: s =>
    let hi := codeUnit d
    let lo := codeUnit d'
    if (0xd800 ≤ hi ∧ hi < 0xdc00) ∧ 0xdc00 ≤ lo ∧ lo < 0xe000 then
      Char.ofNat (0x10000 + (hi - 0xd800) * 0x400 + (lo - 0xdc00)) :: unescape s
    else codeChar hi :: unescape (.unicode d' :: s)
  | .unicode d :: s => codeChar (codeUnit d) :: unescape s

/-- Written without an escape. -/
def IsPlain (s : Str) : Prop := ∀ i ∈ s, i.isPlain

instance (s : Str) : Decidable (IsPlain s) := inferInstanceAs (Decidable (∀ i ∈ s, _))

theorem length_unescape_le (s : Str) : (unescape s).length ≤ s.length := by
  fun_induction unescape s with
  | case1 => exact le_rfl
  | case2 c s ih => exact Nat.succ_le_succ ih
  | case3 e s ih => exact Nat.succ_le_succ ih
  | case4 d d' s' hi lo h ih => exact Nat.succ_le_succ (ih.trans (Nat.le_succ _))
  | case5 d d' s' hi lo h ih => exact Nat.succ_le_succ ih
  | case6 d s h ih => exact Nat.succ_le_succ ih

theorem unescape_of_isPlain {s : Str} (h : IsPlain s) : unescape s = raw s := by
  induction s with
  | nil => rfl
  | cons i s ih =>
      have hs := ih fun j hj => h j (List.mem_cons_of_mem _ hj)
      cases i with
      | plain c => exact congrArg (c.1 :: ·) hs
      | escape e => exact absurd (h _ List.mem_cons_self) Bool.false_ne_true
      | unicode d => exact absurd (h _ List.mem_cons_self) Bool.false_ne_true

theorem length_raw (s : Str) :
    s.length ≤ (raw s).length ∧ ((raw s).length = s.length → IsPlain s) := by
  induction s with
  | nil => exact ⟨le_rfl, fun _ => List.forall_mem_nil _⟩
  | cons i s ih =>
      obtain ⟨hle, hplain⟩ := ih
      obtain ⟨hone, hiff⟩ := i.length_text
      rw [raw, List.flatMap_cons, List.length_append, List.length_cons]
      rw [raw] at hle hplain
      refine ⟨by omega, fun heq => List.forall_mem_cons.mpr ⟨hiff.mp (by omega), ?_⟩⟩
      exact hplain (by omega)

theorem length_unescape_le_raw (s : Str) : (unescape s).length ≤ (raw s).length :=
  (length_unescape_le s).trans (length_raw s).1

/-- **Only a string without escapes is as long as what it stands for.** -/
theorem length_unescape_eq_iff (s : Str) :
    (unescape s).length = (raw s).length ↔ IsPlain s := by
  constructor
  · intro h
    have hle := length_unescape_le s
    have hraw := length_raw s
    exact hraw.2 (by omega)
  · exact fun h => congrArg List.length (unescape_of_isPlain h)

/-! ## Writing strings -/

/-- The four digits of a code unit. -/
def hex4 (n : ℕ) : Hex4 :=
  ⟨[Nat.digitChar (n / 4096 % 16), Nat.digitChar (n / 256 % 16), Nat.digitChar (n / 16 % 16),
    Nat.digitChar (n % 16)], rfl, by
      have hdigit : ∀ k, digitVal (Nat.digitChar (k % 16)) < 16 := fun k => by
        rw [digitVal_digitChar _ (Nat.mod_lt k (by decide))]
        exact Nat.mod_lt k (by decide)
      simp [hdigit]⟩

theorem codeUnit_hex4 {n : ℕ} (h : n < 2 ^ 16) : codeUnit (hex4 n) = n := by
  have hdigit : ∀ k, digitVal (Nat.digitChar (k % 16)) = k % 16 :=
    fun k => digitVal_digitChar _ (Nat.mod_lt k (by decide))
  simp only [codeUnit, hex4, List.foldl_cons, List.foldl_nil, hdigit]
  omega

/-- A character with the shortest escape it needs. -/
def escapeChar (c : Char) : Item :=
  if c = '"' then .escape .quote
  else if c = '\\' then .escape .backslash
  else if c = '\x08' then .escape .backspace
  else if c = '\x0c' then .escape .formFeed
  else if c = '\n' then .escape .lineFeed
  else if c = '\r' then .escape .carriageReturn
  else if c = '\t' then .escape .tab
  else if h : ' ' ≤ c ∧ c ≠ '"' ∧ c ≠ '\\' then .plain ⟨c, h⟩
  else .unicode (hex4 c.toNat)

/-- A string that stands for the text. -/
def escape (s : List Char) : Str := s.map escapeChar

/-- A code unit that is no half of a pair. -/
theorem unescape_unicode {d : Hex4} (h : codeUnit d < 0xd800) (s : Str) :
    unescape (.unicode d :: s) = Char.ofNat (codeUnit d) :: unescape s := by
  have hchar : codeChar (codeUnit d) = Char.ofNat (codeUnit d) := if_neg (by omega)
  cases s with
  | nil => rw [← hchar]; rfl
  | cons i s =>
      cases i with
      | unicode d' =>
          rw [unescape]
          show (if _ then _ else codeChar (codeUnit d) :: _) = _
          rw [if_neg (by omega), hchar]
      | plain c => rw [← hchar]; rfl
      | escape e => rw [← hchar]; rfl

theorem unescape_escapeChar (c : Char) (s : Str) :
    unescape (escapeChar c :: s) = c :: unescape s := by
  unfold escapeChar
  split_ifs with hquote hbackslash hb hf hn hr ht hplain
  · rw [hquote]; rfl
  · rw [hbackslash]; rfl
  · rw [hb]; rfl
  · rw [hf]; rfl
  · rw [hn]; rfl
  · rw [hr]; rfl
  · rw [ht]; rfl
  · rfl
  · have hlow : c.toNat < 32 := by
      by_contra hle
      exact hplain ⟨UInt32.le_iff_toNat_le.mpr (not_lt.mp hle), hquote, hbackslash⟩
    have hunit : codeUnit (hex4 c.toNat) = c.toNat := codeUnit_hex4 (by omega)
    rw [unescape_unicode (by omega), hunit, Char.ofNat_toNat]

/-- **Escaping is undone.** -/
@[simp]
theorem unescape_escape (s : List Char) : unescape (escape s) = s := by
  induction s with
  | nil => rfl
  | cons c s ih => exact (unescape_escapeChar c _).trans (congrArg (c :: ·) ih)

theorem escapeChar_of_plain {c : Char} (h : ' ' ≤ c ∧ c ≠ '"' ∧ c ≠ '\\') :
    escapeChar c = .plain ⟨c, h⟩ := by
  have hctrl : ∀ d ∈ ['\x08', '\x0c', '\n', '\r', '\t'], c ≠ d := by
    rintro d hd rfl
    have hlow : (['\x08', '\x0c', '\n', '\r', '\t'].all fun d => !decide (' ' ≤ d)) = true := by
      decide
    have hnot := List.all_eq_true.mp hlow c hd
    simp [h.1] at hnot
  simp only [List.forall_mem_cons] at hctrl
  obtain ⟨hb, hf, hn, hr, ht, -⟩ := hctrl
  rw [escapeChar, if_neg h.2.1, if_neg h.2.2, if_neg hb, if_neg hf, if_neg hn, if_neg hr, if_neg ht,
    dif_pos h]

/-- A text of plain characters is written as it is. -/
theorem isPlain_escape {s : List Char} (h : ∀ c ∈ s, ' ' ≤ c ∧ c ≠ '"' ∧ c ≠ '\\') :
    IsPlain (escape s) := by
  intro i hi
  obtain ⟨c, hc, rfl⟩ := List.mem_map.mp hi
  rw [escapeChar_of_plain (h c hc)]
  rfl

theorem raw_escape {s : List Char} (h : ∀ c ∈ s, ' ' ≤ c ∧ c ≠ '"' ∧ c ≠ '\\') :
    raw (escape s) = s :=
  (unescape_of_isPlain (isPlain_escape h)).symm.trans (unescape_escape s)

/-! ## Values -/

def isBlank (c : Char) : Bool := c = ' ' || c = '\t' || c = '\n' || c = '\r'

/-- White space. -/
abbrev Blank := {l : List Char // ∀ c ∈ l, isBlank c}

abbrev Digit := {c : Char // '0' ≤ c ∧ c ≤ '9'}

/-- One digit or more. -/
structure Digits where
  first : Digit
  more : List Digit

def Digits.text (d : Digits) : List Char := d.first.1 :: d.more.map Subtype.val

structure Exponent where
  capital : Bool
  /-- `+`, `-` or nothing. -/
  sign : Option Bool
  digits : Digits

def Exponent.text (e : Exponent) : List Char :=
  (if e.capital then 'E' else 'e') ::
    (e.sign.elim [] fun plus => if plus then ['+'] else ['-']) ++ e.digits.text

/-- A number, as it is written. -/
structure Number where
  minus : Bool
  whole : Digits
  /-- A leading zero stands alone. -/
  lead : whole.first.1 = '0' → whole.more = []
  fraction : Option Digits
  exponent : Option Exponent

def Number.text (n : Number) : List Char :=
  (if n.minus then ['-'] else []) ++ n.whole.text ++
    (n.fraction.elim [] fun d => '.' :: d.text) ++ n.exponent.elim [] Exponent.text

/-- The first digit of a number is zero only when the number is. -/
theorem head?_toDigits_ne_zero {n : ℕ} (hn : n ≠ 0) : (Nat.toDigits 10 n).head? ≠ some '0' := by
  induction n using Nat.strong_induction_on with
  | _ n ih =>
      by_cases hlt : n < 10
      · have hdigit : ∀ d < 10, d ≠ 0 → Nat.digitChar d ≠ '0' := by decide
        rw [Nat.toDigits_of_lt_base hlt]
        exact fun h => hdigit n hlt hn (Option.some.inj h)
      · have hne : (Nat.toDigits 10 (n / 10)) ≠ [] := Nat.toDigits_ne_nil
        rw [Nat.toDigits_of_base_le (by decide) (not_lt.mp hlt), List.head?_append_of_ne_nil _ hne]
        exact ih (n / 10) (by omega) (by omega)

theorem isDigit_of_mem_toDigits {n : ℕ} {c : Char} (h : c ∈ Nat.toDigits 10 n) :
    '0' ≤ c ∧ c ≤ '9' := by
  have hdigit : ∀ d < 10, '0' ≤ Nat.digitChar d ∧ Nat.digitChar d ≤ '9' := by decide
  obtain ⟨d, hd, rfl⟩ := exists_digitChar_of_mem_toDigits (by decide) c h
  exact hdigit d hd

/-- An integer in decimal digits. -/
def Number.ofInt (n : ℤ) : Number where
  minus := n < 0
  whole :=
    { first := ⟨(Nat.toDigits 10 n.natAbs).head Nat.toDigits_ne_nil,
        isDigit_of_mem_toDigits (List.head_mem _)⟩
      more := (Nat.toDigits 10 n.natAbs).tail.attach.map fun c =>
        ⟨c.1, isDigit_of_mem_toDigits (List.mem_of_mem_tail c.2)⟩ }
  lead h := by
    have hzero : n.natAbs = 0 := by
      by_contra hne
      refine head?_toDigits_ne_zero hne ?_
      rw [List.head?_eq_some_head Nat.toDigits_ne_nil]
      exact congrArg some h
    simp [hzero]
  fraction := none
  exponent := none

/-- The values of one token that are no strings. -/
inductive Scalar where
  | null
  | bool (b : Bool)
  | number (n : Number)

def Scalar.text : Scalar → List Char
  | null => "null".toList
  | bool b => if b then "true".toList else "false".toList
  | number n => n.text

/-- A member of an object, with the white space around its three parts. -/
structure Member (α : Type) where
  before : Blank
  key : Str
  gap : Blank
  lead : Blank
  value : α
  after : Blank

/-- An element of an array or an object with the blanks around it. -/
structure Elem (α : Type) where
  before : Blank
  value : α
  after : Blank

/-- A value; `blank` is the white space behind the opening bracket. -/
inductive Value where
  | scalar (s : Scalar)
  | string (s : Str)
  | array (blank : Blank) (elems : List (Elem Value))
  | object (blank : Blank) (members : List (Member Value))

/-- A member whose value has this text. -/
def memberText {α : Type} (m : Member α) (valueText : List Char) : List Char :=
  m.before.1 ++ quoted m.key ++ m.gap.1 ++ ':' :: m.lead.1 ++ valueText ++ m.after.1

mutual

def Value.text : Value → List Char
  | .scalar s => s.text
  | .string s => quoted s
  | .array blank elems => '[' :: blank.1 ++ [','].intercalate (elemTexts elems) ++ [']']
  | .object blank members => '{' :: blank.1 ++ [','].intercalate (memberTexts members) ++ ['}']

def elemTexts : List (Elem Value) → List (List Char)
  | [] => []
  | ⟨before, v, after⟩ :: es => (before.1 ++ v.text ++ after.1) :: elemTexts es

def memberTexts : List (Member Value) → List (List Char)
  | [] => []
  | ⟨before, key, gap, lead, v, after⟩ :: ms =>
    memberText ⟨before, key, gap, lead, v, after⟩ v.text :: memberTexts ms

end

theorem memberTexts_eq_map (ms : List (Member Value)) :
    memberTexts ms = ms.map fun m => memberText m m.value.text := by
  induction ms with
  | nil => rfl
  | cons m ms ih => exact congrArg _ ih

/-- What a program reads: a string unescaped, any other value as its text. -/
def content : Value → List Char
  | .string s => unescape s
  | v => v.text

/-! ## Tokens -/

def isTokenChar (c : Char) : Bool := c.isAlphanum || c = '-' || c = '+' || c = '.'

theorem Digits.isTokenChar_of_mem {d : Digits} {c : Char} (h : c ∈ d.text) : isTokenChar c := by
  have hdigit : '0' ≤ c ∧ c ≤ '9' := by
    rcases List.mem_cons.mp h with rfl | h
    · exact d.first.2
    · obtain ⟨e, -, rfl⟩ := List.mem_map.mp h
      exact e.2
  have halnum : c.isAlphanum = true := by
    rw [Char.isAlphanum, Bool.or_eq_true]
    exact Or.inr (Bool.and_eq_true_iff.mpr ⟨decide_eq_true hdigit.1, decide_eq_true hdigit.2⟩)
  rw [isTokenChar, halnum]
  rfl

theorem Number.isTokenChar_of_mem {n : Number} {c : Char} (h : c ∈ n.text) : isTokenChar c := by
  rw [Number.text, List.mem_append, List.mem_append, List.mem_append] at h
  rcases h with ((h | h) | h) | h
  · cases hminus : n.minus with
    | false => simp [hminus] at h
    | true =>
        rw [hminus] at h
        rw [List.mem_singleton.mp h]
        decide
  · exact Digits.isTokenChar_of_mem h
  · cases hfraction : n.fraction with
    | none => simp [hfraction] at h
    | some d =>
        rw [hfraction] at h
        rcases List.mem_cons.mp h with rfl | h
        · decide
        · exact Digits.isTokenChar_of_mem h
  · cases hexponent : n.exponent with
    | none => simp [hexponent] at h
    | some e =>
        rw [hexponent] at h
        rcases List.mem_append.mp h with h | h
        · rcases List.mem_cons.mp h with rfl | h
          · cases e.capital <;> decide
          · cases hsign : e.sign with
            | none => simp [hsign] at h
            | some plus =>
                rw [hsign] at h
                cases plus with
                | false => rw [List.mem_singleton.mp h]; decide
                | true => rw [List.mem_singleton.mp h]; decide
        · exact Digits.isTokenChar_of_mem h

theorem Scalar.isTokenChar_of_mem {s : Scalar} {c : Char} (h : c ∈ s.text) : isTokenChar c := by
  cases s with
  | null =>
      have hall : Scalar.null.text.all isTokenChar = true := by decide
      exact List.all_eq_true.mp hall c h
  | bool b =>
      have hall : ∀ b, (Scalar.bool b).text.all isTokenChar = true := by decide
      exact List.all_eq_true.mp (hall b) c h
  | number n => exact Number.isTokenChar_of_mem h

theorem Scalar.text_ne_nil (s : Scalar) : s.text ≠ [] := by
  cases s with
  | null => decide
  | bool b => cases b <;> decide
  | number n =>
      intro h
      have hwhole : n.whole.text = [] := by
        simp only [Scalar.text, Number.text, List.append_eq_nil_iff] at h
        exact h.1.1.2
      exact List.cons_ne_nil _ _ hwhole

/-! ## Brackets -/

mutual

/-- The strings of a value, keys among them. -/
def Value.strings : Value → List Str
  | .scalar _ => []
  | .string s => [s]
  | .array _ elems => elemStrings elems
  | .object _ members => memberStrings members

def elemStrings : List (Elem Value) → List Str
  | [] => []
  | ⟨_, v, _⟩ :: es => v.strings ++ elemStrings es

def memberStrings : List (Member Value) → List Str
  | [] => []
  | ⟨_, key, _, _, v, _⟩ :: ms => key :: v.strings ++ memberStrings ms

end

/-- The strings of a member are strings of the object. -/
theorem mem_memberStrings {ms : List (Member Value)} {m : Member Value} (hm : m ∈ ms) {s : Str}
    (hs : s = m.key ∨ s ∈ m.value.strings) : s ∈ memberStrings ms := by
  induction ms with
  | nil => exact absurd hm List.not_mem_nil
  | cons m' ms ih =>
      obtain ⟨before, key, gap, lead, v, after⟩ := m'
      rcases List.mem_cons.mp hm with rfl | hm
      · exact List.mem_append_left _ (List.mem_cons.mpr hs)
      · exact List.mem_append_right _ (ih hm)

/-- Brackets that come in pairs; no other character counts as one. -/
structure Brackets (opens closes : List Char) : Prop where
  object : ∀ s, Matched opens closes s → Matched opens closes ('{' :: s ++ ['}'])
  array : ∀ s, Matched opens closes s → Matched opens closes ('[' :: s ++ [']'])
  other : ∀ c, c ∉ ['{', '}', '[', ']'] → c ∉ opens ∧ c ∉ closes

/-- Braces alone. -/
theorem brackets_braces : Brackets ['{'] ['}'] where
  object _ h := h.enclose (by decide) (by decide) (by decide)
  array s h := by
    have hopen : Matched ['{'] ['}'] ['['] := rfl
    have hclose : Matched ['{'] ['}'] [']'] := rfl
    exact (hopen.append h).append hclose
  other c h := by
    simp only [List.mem_cons, List.not_mem_nil, or_false, not_or] at h ⊢
    exact ⟨h.1, h.2.1⟩

theorem brackets_both : Brackets ['{', '['] ['}', ']'] where
  object _ h := h.enclose (by decide) (by decide) (by decide)
  array _ h := h.enclose (by decide) (by decide) (by decide)
  other c h := by
    simp only [List.mem_cons, List.not_mem_nil, or_false, not_or] at h ⊢
    exact ⟨⟨h.1, h.2.2.1⟩, h.2.1, h.2.2.2⟩

/-- No bracket is written in the string. -/
def BracketFree (s : Str) : Prop := ∀ c ∈ raw s, c ∉ ['{', '}', '[', ']']

instance (s : Str) : Decidable (BracketFree s) :=
  decidable_of_iff ((raw s).all fun c => decide (c ∉ ['{', '}', '[', ']']))
    (by simp only [List.all_eq_true, decide_eq_true_eq, BracketFree])

section Brackets

variable {opens closes : List Char} (hb : Brackets opens closes)
include hb

theorem Brackets.matched {s : List Char} (h : ∀ c ∈ s, c ∉ ['{', '}', '[', ']']) :
    Matched opens closes s :=
  matched_of_forall fun c hc => hb.other c (h c hc)

theorem Brackets.matched_singleton {c : Char} (h : c ∉ ['{', '}', '[', ']']) :
    Matched opens closes [c] :=
  hb.matched fun d hd => by rwa [List.mem_singleton.mp hd]

theorem Brackets.matched_blank (b : Blank) : Matched opens closes b.1 := by
  refine hb.matched fun c hc hmem => ?_
  have hblank := b.2 c hc
  simp only [List.mem_cons, List.not_mem_nil, or_false] at hmem
  rcases hmem with rfl | rfl | rfl | rfl <;> revert hblank <;> decide

theorem Brackets.matched_quoted {s : Str} (h : BracketFree s) :
    Matched opens closes (quoted s) := by
  have hquote : Matched opens closes ['"'] := hb.matched_singleton (by decide)
  exact (hquote.append (hb.matched h)).append hquote

theorem Brackets.matched_intercalate {l : List (List Char)} (h : ∀ s ∈ l, Matched opens closes s) :
    Matched opens closes ([','].intercalate l) := by
  have hcomma : Matched opens closes [','] := hb.matched_singleton (by decide)
  induction l with
  | nil => exact matched_nil
  | cons s l ih =>
      obtain ⟨hs, hl⟩ := List.forall_mem_cons.mp h
      cases l with
      | nil => rwa [List.intercalate_singleton]
      | cons t l =>
          rw [List.intercalate_cons_cons]
          exact (hs.append hcomma).append (ih hl)

theorem Brackets.matched_memberText {m : Member Value} (hkey : BracketFree m.key)
    (hvalue : Matched opens closes m.value.text) :
    Matched opens closes (memberText m m.value.text) := by
  have hcolon : Matched opens closes [':'] := hb.matched_singleton (by decide)
  have hname := ((hb.matched_blank m.before).append (hb.matched_quoted hkey)).append
    (hb.matched_blank m.gap)
  have hrest := ((hcolon.append (hb.matched_blank m.lead)).append hvalue).append
    (hb.matched_blank m.after)
  rw [memberText, List.append_assoc, List.append_assoc]
  simpa using hname.append hrest

mutual

/-- **Brackets match where no string holds one.** -/
theorem Brackets.matched_text : ∀ v : Value, (∀ s ∈ v.strings, BracketFree s) →
    Matched opens closes v.text
  | .scalar s, _ => by
    refine hb.matched fun c hc hmem => ?_
    have htoken := Scalar.isTokenChar_of_mem hc
    simp only [List.mem_cons, List.not_mem_nil, or_false] at hmem
    rcases hmem with rfl | rfl | rfl | rfl <;> revert htoken <;> decide
  | .string s, h => hb.matched_quoted (h s List.mem_cons_self)
  | .array blank elems, h =>
    hb.array _ ((hb.matched_blank blank).append
      (hb.matched_intercalate (Brackets.matched_elemTexts elems h)))
  | .object blank members, h =>
    hb.object _ ((hb.matched_blank blank).append
      (hb.matched_intercalate (Brackets.matched_memberTexts members h)))

theorem Brackets.matched_elemTexts : ∀ es : List (Elem Value),
    (∀ s ∈ elemStrings es, BracketFree s) → ∀ t ∈ elemTexts es, Matched opens closes t
  | [], _ => List.forall_mem_nil _
  | ⟨before, v, after⟩ :: es, h => by
    have hv := Brackets.matched_text v fun s hs => h s (List.mem_append_left _ hs)
    have hes := Brackets.matched_elemTexts es fun s hs => h s (List.mem_append_right _ hs)
    exact List.forall_mem_cons.mpr
      ⟨((hb.matched_blank before).append hv).append (hb.matched_blank after), hes⟩

theorem Brackets.matched_memberTexts : ∀ ms : List (Member Value),
    (∀ s ∈ memberStrings ms, BracketFree s) → ∀ t ∈ memberTexts ms, Matched opens closes t
  | [], _ => List.forall_mem_nil _
  | ⟨before, key, gap, lead, v, after⟩ :: ms, h => by
    have hv := Brackets.matched_text v fun s hs =>
      h s (List.mem_append_left _ (List.mem_cons_of_mem _ hs))
    have hms := Brackets.matched_memberTexts ms fun s hs => h s (List.mem_append_right _ hs)
    exact List.forall_mem_cons.mpr
      ⟨hb.matched_memberText (m := ⟨before, key, gap, lead, v, after⟩)
        (h key (List.mem_append_left _ List.mem_cons_self)) hv, hms⟩

end

end Brackets

end BhtBhte.Lib.Json
