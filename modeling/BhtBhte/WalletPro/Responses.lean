import BhtBhte.Lib.Json
import BhtBhte.Lib.Lists
import BhtBhte.WalletPro.Layer2Client
import Mathlib.Algebra.Order.BigOperators.Group.List

/-!
# Reading the responses of the node

`parseJSONResponse` finds the members of the result by searching for quotes, colons and brackets, so
it takes an escaped quote for the end of a string and counts the brackets of strings.  It is
compared here with the members of the result as JSON has them.  `Response.read_iff_bare`: a result
is read just when it is written as it is kept.
-/
namespace BhtBhte.WalletPro

open BhtBhte.Lib BhtBhte.Lib.Json

/-! ## The loop -/

/-- The loop looks for the next quote. -/
theorem parseMembers_append {s : Text} (h : ∀ c ∈ s, c ≠ '"') (n : ℕ) (t : Text)
    (fields : Fields) : parseMembers n (s ++ t) fields = parseMembers n t fields := by
  cases n with
  | zero => rfl
  | succ n =>
      rw [parseMembers, parseMembers, cut_append h]
      cases cut ['"'] t <;> rfl

theorem parseMembers_dropWhile {p : Char → Bool} (h : ∀ c, p c → c ≠ '"') (n : ℕ) (t : Text)
    (fields : Fields) : parseMembers n (t.dropWhile p) fields = parseMembers n t fields := by
  have hpassed : ∀ c ∈ t.takeWhile p, c ≠ '"' := fun c hc => h c (List.mem_takeWhile_imp hc)
  rw [← parseMembers_append hpassed, List.takeWhile_append_dropWhile]

/-- What a pass does behind a value. -/
def readNext (n : ℕ) (key text rest : Text) (fields : Fields) : Fields :=
  parseMembers n (rest.dropWhile fun c => c = ',' ∨ c = ' ' ∨ c = '\n') ((key, text) :: fields)

theorem readNext_eq (n : ℕ) (key text rest : Text) (fields : Fields) :
    readNext n key text rest fields = parseMembers n rest ((key, text) :: fields) := by
  refine parseMembers_dropWhile (fun c hc => ?_) n rest _
  rintro rfl
  revert hc
  decide

/-- What a pass does from the value on. -/
def readValue (n : ℕ) (key value : Text) (fields : Fields) : Fields :=
  if value.head? = some '"' then
    (cut ['"'] (value.drop 1)).elim fields fun quoted =>
      readNext n key quoted.1 (quoted.2.drop 1) fields
  else if value.head? = some '{' ∨ value.head? = some '[' then
    let text := value.take 1 ++ balanced ['{', '['] ['}', ']'] 1 (value.drop 1)
    readNext n key text (value.drop text.length) fields
  else
    let text := value.takeWhile fun c => c ≠ ',' ∧ c ≠ '\n'
    readNext n key text (value.drop text.length) fields

theorem parseMembers_succ (n : ℕ) (s : Text) (fields : Fields) : parseMembers (n + 1) s fields =
    (cut ['"'] s).elim fields fun keyStart =>
      (cut ['"'] (keyStart.2.drop 1)).elim fields fun key =>
        (cut [':'] key.2).elim fields fun colon =>
          readValue n key.1 (skipBlank (colon.2.drop 1)) fields := rfl

/-- The text behind a value is no longer than the value and what follows it. -/
theorem readValue_congr {n m k : ℕ} (h : ∀ (s : Text) (fields : Fields), s.length ≤ k →
    parseMembers n s fields = parseMembers m s fields) {value : Text} (hvalue : value.length ≤ k)
    (key : Text) (fields : Fields) :
    readValue n key value fields = readValue m key value fields := by
  have hnext : ∀ text rest : Text, rest.length ≤ k →
      readNext n key text rest fields = readNext m key text rest fields := by
    intro text rest hrest
    rw [readNext_eq, readNext_eq, h rest _ hrest]
  unfold readValue
  split_ifs with hquote hbracket
  · cases hquoted : cut ['"'] (value.drop 1) with
    | none => rfl
    | some quoted =>
        have hlength := length_cut hquoted
        rw [List.length_drop] at hlength
        exact hnext _ _ (by rw [List.length_drop]; omega)
  · exact hnext _ _ (by rw [List.length_drop]; omega)
  · exact hnext _ _ (by rw [List.length_drop]; omega)

theorem readValue_keys {n : ℕ} {P : Text → Prop} (h : ∀ (s : Text) (fields : Fields),
    (∀ f ∈ fields, P f.1) → ∀ f ∈ parseMembers n s fields, P f.1) {key : Text} (hkey : P key)
    (value : Text) {fields : Fields} (hfields : ∀ f ∈ fields, P f.1) :
    ∀ f ∈ readValue n key value fields, P f.1 := by
  have hnext : ∀ text rest : Text, ∀ f ∈ readNext n key text rest fields, P f.1 := fun text rest =>
    h _ _ (List.forall_mem_cons.mpr ⟨hkey, hfields⟩)
  unfold readValue
  split_ifs with hquote hbracket
  · cases hquoted : cut ['"'] (value.drop 1) with
    | none => exact hfields
    | some quoted => exact hnext _ _
  · exact hnext _ _
  · exact hnext _ _

/-- No key that the loop finds has a quote in it. -/
theorem quote_notMem_parseMembers (n : ℕ) (s : Text) {fields : Fields}
    (hfields : ∀ f ∈ fields, '"' ∉ f.1) : ∀ f ∈ parseMembers n s fields, '"' ∉ f.1 := by
  induction n generalizing s fields with
  | zero => exact hfields
  | succ n ih =>
      rw [parseMembers_succ]
      cases hstart : cut ['"'] s with
      | none => exact hfields
      | some keyStart =>
      simp only [Option.elim_some]
      cases hkey : cut ['"'] (keyStart.2.drop 1) with
      | none => exact hfields
      | some key =>
      simp only [Option.elim_some]
      cases hcolon : cut [':'] key.2 with
      | none => exact hfields
      | some colon =>
          exact readValue_keys (P := fun k => '"' ∉ k) (fun s fields => ih s) (notMem_cut hkey) _
            hfields

theorem parseMembers_nil (n : ℕ) (fields : Fields) : parseMembers n [] fields = fields := by
  cases n <;> rfl

/-- **The loop ends by itself**: more passes than characters change nothing. -/
theorem parseMembers_of_length_le {n m : ℕ} {s : Text} (hn : s.length ≤ n) (hm : s.length ≤ m)
    (fields : Fields) : parseMembers n s fields = parseMembers m s fields := by
  induction n generalizing m s fields with
  | zero => rw [List.length_eq_zero_iff.mp (Nat.le_zero.mp hn), parseMembers_nil, parseMembers_nil]
  | succ n ih =>
      cases m with
      | zero =>
          rw [List.length_eq_zero_iff.mp (Nat.le_zero.mp hm), parseMembers_nil, parseMembers_nil]
      | succ m =>
          rw [parseMembers_succ, parseMembers_succ]
          cases hstart : cut ['"'] s with
          | none => rfl
          | some keyStart =>
          simp only [Option.elim_some]
          cases hkey : cut ['"'] (keyStart.2.drop 1) with
          | none => rfl
          | some key =>
          simp only [Option.elim_some]
          cases hcolon : cut [':'] key.2 with
          | none => rfl
          | some colon =>
          have hskip := List.length_dropWhile_le (fun c => decide (c = ' ' ∨ c = '\n'))
            (colon.2.drop 1)
          have hstart := length_cut hstart
          have hkey := length_cut hkey
          have hcolon := length_cut hcolon
          rw [List.length_drop] at hkey hskip
          refine readValue_congr (k := min n m) (fun t fields ht => ?_) ?_ key.1 fields
          · exact ih (ht.trans (min_le_left _ _)) (ht.trans (min_le_right _ _)) fields
          · rw [skipBlank]
            omega

/-! ## One member -/

theorem skipBlank_append {b s : Text} (hb : ∀ c ∈ b, c = ' ' ∨ c = '\n')
    (hs : ∀ c, s.head? = some c → ¬ (c = ' ' ∨ c = '\n')) : skipBlank (b ++ s) = s := by
  rw [skipBlank, List.dropWhile_append_of_pos fun c hc => decide_eq_true (hb c hc)]
  cases s with
  | nil => rfl
  | cons c s => exact List.dropWhile_cons_of_neg (by simpa using hs c rfl)

theorem ne_of_blank {b : Blank} {c d : Char} (hc : c ∈ b.1) (hd : isBlank d = false) : c ≠ d := by
  rintro rfl
  exact Bool.false_ne_true (hd.symm.trans (b.2 c hc))

/-- A pass finds its key and its colon. -/
theorem parseMembers_key (n : ℕ) (before gap lead : Blank) {key value : Text} (fields : Fields)
    (hkey : '"' ∉ key) (hlead : ∀ c ∈ lead.1, c = ' ' ∨ c = '\n')
    (hvalue : ∀ c, value.head? = some c → ¬ (c = ' ' ∨ c = '\n')) :
    parseMembers (n + 1) (before.1 ++ '"' :: (key ++ '"' :: (gap.1 ++ ':' :: (lead.1 ++ value))))
      fields = readValue n key value fields := by
  have hquote : ∀ s : Text, cut ['"'] ('"' :: s) = some ([], '"' :: s) := fun s => rfl
  have hgap : ':' ∉ '"' :: gap.1 := by
    rw [List.mem_cons, not_or]
    exact ⟨by decide, fun h => ne_of_blank h rfl rfl⟩
  rw [parseMembers_append fun c hc => ne_of_blank hc rfl, parseMembers_succ, hquote,
    Option.elim_some, List.drop_one, List.tail_cons, cut_append_cons hkey, Option.elim_some,
    ← List.cons_append, cut_append_cons hgap, Option.elim_some, List.drop_one, List.tail_cons,
    skipBlank_append hlead hvalue]

theorem readValue_string (n : ℕ) (key : Text) {s : Text} (hs : '"' ∉ s) (t : Text)
    (fields : Fields) : readValue n key ('"' :: (s ++ '"' :: t)) fields =
      parseMembers n t ((key, s) :: fields) := by
  have hhead : ('"' :: (s ++ '"' :: t)).head? = some '"' := rfl
  rw [readValue, if_pos hhead, List.drop_one, List.tail_cons, cut_append_cons hs, Option.elim_some,
    readNext_eq, List.drop_one, List.tail_cons]

/-- Brackets that match keep the place of the bracket that closes. -/
theorem readValue_nested (n : ℕ) (key : Text) {o c : Char} {s : Text}
    (ho : o = '{' ∨ o = '[') (hc : c = '}' ∨ c = ']') (hs : Matched ['{', '['] ['}', ']'] s)
    (t : Text) (fields : Fields) : readValue n key (o :: (s ++ c :: t)) fields =
      parseMembers n t ((key, o :: s ++ [c]) :: fields) := by
  have hhead : ¬ (o :: (s ++ c :: t)).head? = some '"' := by
    rw [List.head?_cons, Option.some_inj]
    rcases ho with rfl | rfl <;> decide
  have hopen : (o :: (s ++ c :: t)).head? = some '{' ∨ (o :: (s ++ c :: t)).head? = some '[' := by
    rwa [List.head?_cons, Option.some_inj, Option.some_inj]
  have hclose : balanced ['{', '['] ['}', ']'] 1 (s ++ c :: t) = s ++ [c] := by
    rcases hc with rfl | rfl <;> exact balanced_append hs (by decide) (by decide) t
  have htext : (o :: (s ++ c :: t)).take 1 ++ (s ++ [c]) = o :: s ++ [c] := rfl
  have hrest : (o :: (s ++ c :: t)).drop (o :: s ++ [c]).length = t := by
    rw [show o :: (s ++ c :: t) = (o :: s ++ [c]) ++ t by simp, List.drop_left]
  rw [readValue, if_neg hhead, if_pos hopen, List.drop_one, List.tail_cons, hclose, htext]
  show readNext n key (o :: s ++ [c]) ((o :: (s ++ c :: t)).drop (o :: s ++ [c]).length) fields = _
  rw [hrest, readNext_eq]

/-- What is no comma and no line feed belongs to a token. -/
def inToken (c : Char) : Bool := c ≠ ',' ∧ c ≠ '\n'

theorem takeWhile_inToken {a t : Text} (ht : ∀ c, t.head? = some c → c = ',') :
    (a ++ t).takeWhile inToken = a.takeWhile inToken := by
  have hstop : t.takeWhile inToken = [] := by
    cases t with
    | nil => rfl
    | cons c t => rw [ht c rfl]; rfl
  rw [List.takeWhile_append, hstop, List.append_nil]
  split_ifs with hall
  · exact ((List.takeWhile_prefix _).eq_of_length hall).symm
  · rfl

/-- A token is taken with the white space behind it, as far as a comma or the end of the line. -/
theorem readValue_scalar (n : ℕ) (key : Text) (s : Scalar) (after : Blank) {t : Text}
    (ht : ∀ c, t.head? = some c → c = ',') (fields : Fields) :
    readValue n key (s.text ++ (after.1 ++ t)) fields =
      parseMembers n t ((key, s.text ++ after.1.takeWhile inToken) :: fields) := by
  have hne : ∀ c ∈ s.text, ∀ d, isTokenChar d = false → c ≠ d := by
    rintro c hc d hd rfl
    exact Bool.false_ne_true (hd.symm.trans (Scalar.isTokenChar_of_mem hc))
  have hhead : ∀ d, isTokenChar d = false → ¬ (s.text ++ (after.1 ++ t)).head? = some d := by
    intro d hd h
    rw [List.head?_append_of_ne_nil _ s.text_ne_nil] at h
    exact hne d (List.mem_of_mem_head? h) d hd rfl
  have hbracket : ¬ ((s.text ++ (after.1 ++ t)).head? = some '{' ∨
      (s.text ++ (after.1 ++ t)).head? = some '[') :=
    not_or.mpr ⟨hhead _ (by decide), hhead _ (by decide)⟩
  have htoken : ∀ c ∈ s.text, inToken c := fun c hc =>
    decide_eq_true ⟨hne c hc _ (by decide), hne c hc _ (by decide)⟩
  have htext : (s.text ++ (after.1 ++ t)).takeWhile inToken =
      s.text ++ after.1.takeWhile inToken := by
    rw [List.takeWhile_append_of_pos htoken, takeWhile_inToken ht]
  have hrest : s.text ++ (after.1 ++ t) =
      (s.text ++ after.1.takeWhile inToken) ++ (after.1.dropWhile inToken ++ t) := by
    rw [List.append_assoc, ← List.append_assoc (after.1.takeWhile _),
      List.takeWhile_append_dropWhile]
  have hquote : ∀ c ∈ after.1.dropWhile inToken, c ≠ '"' := fun c hc =>
    ne_of_blank ((List.dropWhile_sublist _).subset hc) rfl
  rw [readValue, if_neg (hhead _ (by decide)), if_neg hbracket]
  show readNext n key ((s.text ++ (after.1 ++ t)).takeWhile inToken)
    ((s.text ++ (after.1 ++ t)).drop
      ((s.text ++ (after.1 ++ t)).takeWhile inToken).length) fields = _
  rw [htext, readNext_eq, hrest, List.drop_left, parseMembers_append hquote]

/-! ## The members of an object -/

/-- The text that is taken for a value. -/
def reading (m : Member Value) : Text :=
  match m.value with
  | .scalar s => s.text ++ m.after.1.takeWhile inToken
  | .string s => raw s
  | v => v.text

/-- The end of the value is found: no quote is written in a string, and the brackets of a nested
value match, those in its strings included. -/
def Delimited : Value → Prop
  | .scalar _ => True
  | .string s => '"' ∉ raw s
  | .array blank elems =>
    Matched ['{', '['] ['}', ']'] (blank.1 ++ [','].intercalate (elemTexts elems))
  | .object blank members =>
    Matched ['{', '['] ['}', ']'] (blank.1 ++ [','].intercalate (memberTexts members))

/-- The value is written as it is kept: a string has no escape, and behind a token there is no
white space, unless a line feed begins it. -/
def BareValue (m : Member Value) : Prop :=
  match m.value with
  | .scalar _ => ∀ c, m.after.1.head? = some c → c = '\n'
  | .string s => IsPlain s
  | _ => True

theorem raw_eq_unescape_iff (s : Str) : raw s = unescape s ↔ IsPlain s :=
  ⟨fun h => (length_unescape_eq_iff s).mp (by rw [h]), fun h => (unescape_of_isPlain h).symm⟩

theorem reading_eq_content_iff (m : Member Value) :
    reading m = content m.value ↔ BareValue m := by
  obtain ⟨before, key, gap, lead, v, after⟩ := m
  cases v with
  | scalar s =>
      show s.text ++ after.1.takeWhile inToken = s.text ↔ ∀ c, after.1.head? = some c → c = '\n'
      rw [List.append_right_eq_self]
      obtain ⟨l, hl⟩ := after
      cases l with
      | nil => simp
      | cons c l =>
          have hblank := hl c List.mem_cons_self
          have hcomma : c ≠ ',' := by
            rintro rfl
            exact absurd hblank (by decide)
          simp [inToken, hcomma]
  | string s => exact raw_eq_unescape_iff s
  | array blank elems => exact iff_of_true rfl trivial
  | object blank members => exact iff_of_true rfl trivial

/-- The parts of a member are found where they are. -/
structure Located (m : Member Value) : Prop where
  key : '"' ∉ raw m.key
  lead : ∀ c ∈ m.lead.1, c = ' ' ∨ c = '\n'
  value : Delimited m.value

/-- A value begins with no white space. -/
theorem head_text (v : Value) : ∀ c, v.text.head? = some c → isBlank c = false := by
  intro c hc
  cases v with
  | scalar s =>
      have htoken := Scalar.isTokenChar_of_mem (List.mem_of_mem_head? hc)
      by_contra hblank
      rw [Bool.not_eq_false, isBlank] at hblank
      simp only [Bool.or_eq_true, decide_eq_true_eq] at hblank
      rcases hblank with ((rfl | rfl) | rfl) | rfl <;> revert htoken <;> decide
  | string s => rw [← Option.some.inj hc]; rfl
  | array blank elems => rw [← Option.some.inj hc]; rfl
  | object blank members => rw [← Option.some.inj hc]; rfl

theorem text_ne_nil (v : Value) : v.text ≠ [] := by
  cases v with
  | scalar s => exact s.text_ne_nil
  | string s => exact List.cons_ne_nil _ _
  | array blank elems => exact List.cons_ne_nil _ _
  | object blank members => exact List.cons_ne_nil _ _

/-- **One pass reads one member.** -/
theorem parseMembers_memberText (n : ℕ) {m : Member Value} (hm : Located m) {t : Text}
    (ht : ∀ c, t.head? = some c → c = ',') (fields : Fields) :
    parseMembers (n + 1) (memberText m m.value.text ++ t) fields =
      parseMembers n t ((raw m.key, reading m) :: fields) := by
  obtain ⟨before, key, gap, lead, v, after⟩ := m
  obtain ⟨hkey, hlead, hvalue⟩ := hm
  have hafter : ∀ c ∈ after.1, c ≠ '"' := fun c hc => ne_of_blank hc rfl
  have hhead : ∀ c, (v.text ++ (after.1 ++ t)).head? = some c → ¬ (c = ' ' ∨ c = '\n') := by
    intro c hc
    rw [List.head?_append_of_ne_nil _ (text_ne_nil v)] at hc
    have hblank := head_text v c hc
    rintro (rfl | rfl) <;> revert hblank <;> decide
  have hsplit : memberText ⟨before, key, gap, lead, v, after⟩ v.text ++ t = before.1 ++
      '"' :: (raw key ++ '"' :: (gap.1 ++ ':' :: (lead.1 ++ (v.text ++ (after.1 ++ t))))) := by
    simp [memberText, quoted]
  rw [hsplit, parseMembers_key n before gap lead fields hkey hlead hhead]
  cases v with
  | scalar s => exact readValue_scalar n _ s after ht fields
  | string s =>
      rw [← parseMembers_append hafter]
      have hstring : (Value.string s).text ++ (after.1 ++ t) =
          '"' :: (raw s ++ '"' :: (after.1 ++ t)) := by
        simp [Value.text, quoted]
      rw [hstring]
      exact readValue_string n _ hvalue _ fields
  | array blank elems =>
      rw [← parseMembers_append hafter]
      have harray : (Value.array blank elems).text ++ (after.1 ++ t) = '[' :: ((blank.1 ++
          [','].intercalate (elemTexts elems)) ++ ']' :: (after.1 ++ t)) := by
        simp [Value.text]
      rw [harray, readValue_nested n _ (Or.inr rfl) (Or.inr rfl) hvalue]
      rfl
  | object blank members =>
      rw [← parseMembers_append hafter]
      have hobject : (Value.object blank members).text ++ (after.1 ++ t) = '{' :: ((blank.1 ++
          [','].intercalate (memberTexts members)) ++ '}' :: (after.1 ++ t)) := by
        simp [Value.text]
      rw [hobject, readValue_nested n _ (Or.inl rfl) (Or.inl rfl) hvalue]
      rfl

/-- There are no more members than characters. -/
theorem length_le_intercalate (ms : List (Member Value)) :
    ms.length ≤ ([','].intercalate (memberTexts ms)).length := by
  have hmember : ∀ m : Member Value, 1 ≤ (memberText m m.value.text).length := by
    intro m
    simp only [memberText, List.length_append, List.length_cons]
    omega
  induction ms with
  | nil => exact Nat.zero_le _
  | cons m ms ih =>
      have hone := hmember m
      rw [memberTexts_eq_map] at ih ⊢
      cases ms with
      | nil => simpa using hone
      | cons m' ms =>
          rw [List.map_cons, List.map_cons, List.intercalate_cons_cons, List.length_append,
            List.length_append, List.length_cons]
          rw [List.map_cons] at ih
          omega

/-- **What the loop finds**: the members, keys and strings as they are written. -/
theorem parseMembers_members {ms : List (Member Value)} (h : ∀ m ∈ ms, Located m) {n : ℕ}
    (hn : ms.length ≤ n) (fields : Fields) :
    parseMembers n ([','].intercalate (memberTexts ms)) fields =
      (ms.map fun m => (raw m.key, reading m)).reverse ++ fields := by
  induction ms generalizing n fields with
  | nil => exact parseMembers_nil n fields
  | cons m ms ih =>
      obtain ⟨hm, hms⟩ := List.forall_mem_cons.mp h
      obtain ⟨n, rfl⟩ : ∃ k, n = k + 1 := ⟨n - 1, by rw [List.length_cons] at hn; omega⟩
      have hle : ms.length ≤ n := Nat.le_of_succ_le_succ hn
      have hpush : ((m :: ms).map fun m => (raw m.key, reading m)).reverse ++ fields =
          (ms.map fun m => (raw m.key, reading m)).reverse ++ (raw m.key, reading m) :: fields := by
        simp
      rw [hpush, ← ih hms hle]
      cases ms with
      | nil =>
          have hlast : [','].intercalate (memberTexts [m]) = memberText m m.value.text ++ [] := by
            rw [memberTexts_eq_map, List.map_singleton, List.intercalate_singleton,
              List.append_nil]
          rw [hlast, parseMembers_memberText n hm (fun c hc => by simp at hc)]
          rfl
      | cons m' ms =>
          have hmore : [','].intercalate (memberTexts (m :: m' :: ms)) = memberText m m.value.text ++
              (',' :: [','].intercalate (memberTexts (m' :: ms))) := by
            rw [memberTexts_eq_map, memberTexts_eq_map, List.map_cons, List.map_cons,
              List.intercalate_cons_cons, List.append_assoc]
            rfl
          have hcomma : ∀ c ∈ [','], c ≠ '"' := List.forall_mem_singleton.mpr (by decide)
          have hnext : ∀ c, (',' :: [','].intercalate (memberTexts (m' :: ms))).head? = some c →
              c = ',' := fun c hc => (Option.some.inj hc).symm
          rw [hmore, parseMembers_memberText n hm hnext]
          exact parseMembers_append hcomma n _ _

/-! ## Responses -/

/-- An object value. -/
structure Object where
  blank : Blank
  members : List (Member Value)

/-- What stands between the braces. -/
def Object.body (o : Object) : Text := o.blank.1 ++ [','].intercalate (memberTexts o.members)

def resultKey : Text := "result".toList

/-- A JSON object with an object as its `result`, among members before and after it.  A JSON-RPC
response with such a result is one; of two members of one name the last one counts. -/
structure Response where
  lead : Blank
  front : List (Member Value)
  result : Member Object
  back : List (Member Value)
  trail : Blank
  key_result : unescape result.key = resultKey
  last : ∀ m ∈ back, unescape m.key ≠ resultKey

namespace Response

/-- The text before the key of the result. -/
def head (r : Response) : Text :=
  r.lead.1 ++ '{' :: (memberTexts r.front).flatMap (fun t => t ++ [',']) ++ r.result.before.1

/-- The text behind the result. -/
def tail (r : Response) : Text :=
  r.result.after.1 ++ (memberTexts r.back).flatMap (fun t => ',' :: t) ++ '}' :: r.trail.1

/-- The response as it is received. -/
def text (r : Response) : Text :=
  r.lead.1 ++ '{' :: [','].intercalate (memberTexts r.front ++
    memberText r.result ('{' :: r.result.value.body ++ ['}']) :: memberTexts r.back) ++
    '}' :: r.trail.1

theorem text_eq (r : Response) : r.text = r.head ++ (quoted r.result.key ++
    (r.result.gap.1 ++ ':' :: (r.result.lead.1 ++ '{' :: (r.result.value.body ++
      '}' :: r.tail)))) := by
  have hback : ∀ (s : Text) (l : List Text),
      [','].intercalate (s :: l) = s ++ l.flatMap (fun t => ',' :: t) := by
    intro s l
    induction l generalizing s with
    | nil => simp
    | cons t l ih => rw [List.intercalate_cons_cons, ih]; simp
  have hfront : ∀ (s : Text) (l l' : List Text), [','].intercalate (l ++ s :: l') =
      l.flatMap (fun t => t ++ [',']) ++ [','].intercalate (s :: l') := by
    intro s l l'
    induction l with
    | nil => rfl
    | cons t l ih =>
        rw [List.cons_append, List.intercalate_cons_of_ne_nil (by simp), ih]
        simp
  rw [text, hfront, hback, head, tail, memberText]
  simp

/-- The members of the result: keys and strings unescaped, other values as their text, the last
member first. -/
def fields (r : Response) : Fields :=
  (r.result.value.members.map fun m => (unescape m.key, content m.value)).reverse

/-- Every key of the result is mapped to its value. -/
def Read (r : Response) : Prop :=
  ∃ fields, parseJSONResponse r.text = some fields ∧
    ∀ key ∈ r.fields.map Prod.fst, fields.lookup key = r.fields.lookup key

/-- The positions are found: the first `"result"` of the text is the key of the result, the value
follows the colon with blanks and line feeds between, the braces of the result match, those in its
strings included, and so do the positions of its members. -/
structure Located (r : Response) : Prop where
  key : raw r.result.key = resultKey
  first : ∀ i < r.head.length, ¬ "\"result\"".toList <+: r.text.drop i
  lead : ∀ c ∈ r.result.lead.1, c = ' ' ∨ c = '\n'
  braces : Matched ['{'] ['}'] r.result.value.body
  members : ∀ m ∈ r.result.value.members, WalletPro.Located m

/-- Keys and values are written as they are kept. -/
def Bare (r : Response) : Prop :=
  ∀ m ∈ r.result.value.members, IsPlain m.key ∧ BareValue m

/-- **What is read where the positions are right.** -/
theorem parseJSONResponse_text {r : Response} (h : r.Located) : parseJSONResponse r.text =
    some (r.result.value.members.map fun m => (raw m.key, reading m)).reverse := by
  have hkey : quoted r.result.key = "\"result\"".toList := by
    rw [quoted, h.key]
    rfl
  obtain ⟨rest, hrest⟩ : ∃ rest, rest = r.result.gap.1 ++ ':' :: (r.result.lead.1 ++
    '{' :: (r.result.value.body ++ '}' :: r.tail)) := ⟨_, rfl⟩
  have htext : r.text = r.head ++ ("\"result\"".toList ++ rest) := by rw [text_eq, hkey, hrest]
  have hresult : cut "\"result\"".toList r.text = some (r.head, "\"result\"".toList ++ rest) := by
    have hfirst := h.first
    rw [htext] at hfirst ⊢
    exact cut_append_of_isPrefix (List.prefix_append _ _) hfirst
  have hgap : ':' ∉ "\"result\"".toList ++ r.result.gap.1 := by
    rw [List.mem_append, not_or]
    exact ⟨by decide, fun hc => ne_of_blank hc rfl rfl⟩
  have hcolon : cut [':'] ("\"result\"".toList ++ rest) = some ("\"result\"".toList ++
      r.result.gap.1, ':' :: (r.result.lead.1 ++ '{' :: (r.result.value.body ++ '}' :: r.tail))) := by
    rw [hrest, ← List.append_assoc, cut_append_cons hgap]
  have hvalue : skipBlank (r.result.lead.1 ++ '{' :: (r.result.value.body ++ '}' :: r.tail)) =
      '{' :: (r.result.value.body ++ '}' :: r.tail) :=
    skipBlank_append h.lead fun c hc => by
      rw [← Option.some.inj hc]
      decide
  have hbody : (balanced ['{'] ['}'] 1 (r.result.value.body ++ '}' :: r.tail)).dropLast =
      r.result.value.body := by
    rw [balanced_append h.braces (by decide) (by decide), List.dropLast_concat]
  have hlength : r.result.value.members.length ≤ r.result.value.body.length :=
    (length_le_intercalate _).trans (by rw [Object.body, List.length_append]; omega)
  have hmembers : parseMembers r.result.value.body.length r.result.value.body [] =
      (r.result.value.members.map fun m => (raw m.key, reading m)).reverse := by
    have hblank : ∀ c ∈ r.result.value.blank.1, c ≠ '"' := fun c hc => ne_of_blank hc rfl
    rw [← List.append_nil (List.reverse _), ← parseMembers_members h.members hlength []]
    exact parseMembers_append hblank _ _ _
  rw [parseJSONResponse, hresult]
  show (cut [':'] ("\"result\"".toList ++ rest) >>= _) = _
  rw [hcolon]
  show (some _ : Option Fields) = _
  rw [List.drop_one, List.tail_cons, hvalue, List.head?_cons, if_pos rfl, List.drop_one,
    List.tail_cons, hbody, hmembers]

/-- What is written as it is kept is read, and nothing else is. -/
theorem parseJSONResponse_of_bare {r : Response} (h : r.Located) (hbare : r.Bare) :
    parseJSONResponse r.text = some r.fields := by
  have hmembers : (r.result.value.members.map fun m => (raw m.key, reading m)) =
      r.result.value.members.map fun m => (unescape m.key, content m.value) :=
    List.map_congr_left fun m hm => Prod.ext ((raw_eq_unescape_iff m.key).mpr (hbare m hm).1)
      ((reading_eq_content_iff m).mpr (hbare m hm).2)
  rw [parseJSONResponse_text h, fields, hmembers]

theorem keys_fields (r : Response) :
    r.fields.map Prod.fst = (r.result.value.members.map fun m => unescape m.key).reverse := by
  rw [fields, List.map_reverse, List.map_map]
  rfl

section Read

variable {r : Response} (h : r.Located)
  (hkeys : (r.result.value.members.map fun m => unescape m.key).Nodup) (hread : r.Read)
include h hkeys hread

/-- The keys that were read are those of the result in some order.  A key with an escape is longer
as it is written, so there is none. -/
theorem isPlain_keys_of_read : ∀ m ∈ r.result.value.members, IsPlain m.key := by
  obtain ⟨fields, hparse, hlookup⟩ := hread
  rw [parseJSONResponse_text h, Option.some_inj] at hparse
  have hnodup : (r.fields.map Prod.fst).Nodup := by
    rw [keys_fields]
    exact List.nodup_reverse.mpr hkeys
  have hperm : (r.result.value.members.map fun m => unescape m.key).Perm
      (r.result.value.members.map fun m => raw m.key) := by
    have hlength : fields.length ≤ r.fields.length := by simp [← hparse, Response.fields]
    have hperm := perm_of_lookup_eq hlookup hnodup hlength
    rw [keys_fields, ← hparse, List.map_reverse, List.map_map] at hperm
    exact ((List.reverse_perm _).symm.trans hperm).trans (List.reverse_perm _)
  have hsum := (hperm.map List.length).sum_eq
  rw [List.map_map, List.map_map] at hsum
  intro m hm
  by_contra hescape
  have hlt : (unescape m.key).length < (raw m.key).length :=
    (length_unescape_le_raw m.key).lt_of_ne fun heq =>
      hescape ((length_unescape_eq_iff m.key).mp heq)
  exact hsum.not_lt (List.sum_lt_sum _ _ (fun m _ => length_unescape_le_raw m.key) ⟨m, hm, hlt⟩)

theorem bare_of_read : r.Bare := by
  have hplain := isPlain_keys_of_read h hkeys hread
  obtain ⟨fields, hparse, hlookup⟩ := hread
  rw [parseJSONResponse_text h, Option.some_inj] at hparse
  have hsame : fields.map Prod.fst = r.fields.map Prod.fst := by
    rw [keys_fields, ← hparse, List.map_reverse, List.map_map]
    exact congrArg _ (List.map_congr_left fun m hm =>
      (raw_eq_unescape_iff m.key).mpr (hplain m hm))
  have hnodup : (r.fields.map Prod.fst).Nodup := by
    rw [keys_fields]
    exact List.nodup_reverse.mpr hkeys
  refine fun m hm => ⟨hplain m hm, (reading_eq_content_iff m).mp ?_⟩
  have hcontent : (unescape m.key, content m.value) ∈ r.fields :=
    List.mem_reverse.mpr (List.mem_map_of_mem hm)
  have hreading : (unescape m.key, reading m) ∈ fields := by
    rw [← hparse, List.mem_reverse, ← (raw_eq_unescape_iff m.key).mpr (hplain m hm)]
    exact List.mem_map_of_mem hm
  have hfound := hlookup _ (List.mem_map_of_mem (f := Prod.fst) hcontent)
  rw [lookup_of_mem (hsame ▸ hnodup) hreading, lookup_of_mem hnodup hcontent] at hfound
  exact Option.some.inj hfound

end Read

/-- A key with a quote in it is never read, wherever the scan goes. -/
theorem quote_notMem_of_read {r : Response} (hread : r.Read) {m : Member Value}
    (hm : m ∈ r.result.value.members) : '"' ∉ unescape m.key := by
  obtain ⟨fields, hparse, hlookup⟩ := hread
  have hkeys : ∀ f ∈ fields, '"' ∉ f.1 := by
    simp only [parseJSONResponse, Option.bind_eq_bind, Option.bind_eq_some_iff] at hparse
    obtain ⟨result, -, colon, -, hfields⟩ := hparse
    rw [← Option.some.inj hfields]
    split_ifs with hobject harray
    · exact quote_notMem_parseMembers _ _ (List.forall_mem_nil _)
    · exact List.forall_mem_singleton.mpr (by decide : '"' ∉ "_array".toList)
    · exact List.forall_mem_singleton.mpr (by decide : '"' ∉ "_value".toList)
  have hkey : unescape m.key ∈ r.fields.map Prod.fst := by
    rw [keys_fields, List.mem_reverse]
    exact List.mem_map_of_mem hm
  obtain ⟨text, htext⟩ : ∃ text, r.fields.lookup (unescape m.key) = some text := by
    obtain ⟨f, hf, hfst⟩ := List.mem_map.mp hkey
    exact Option.isSome_iff_exists.mp (List.lookup_isSome_iff.mpr ⟨f, hf, beq_iff_eq.mpr hfst.symm⟩)
  exact hkeys _ (mem_of_lookup_eq_some ((hlookup _ hkey).trans htext))

/-- Where no string of the result holds a quote or a bracket, only the first `"result"` and the
white space behind the colons are left to be right. -/
theorem located_of_clean {r : Response} (hkey : raw r.result.key = resultKey)
    (hfirst : ∀ i < r.head.length, ¬ "\"result\"".toList <+: r.text.drop i)
    (hlead : ∀ c ∈ r.result.lead.1, c = ' ' ∨ c = '\n')
    (hleads : ∀ m ∈ r.result.value.members, ∀ c ∈ m.lead.1, c = ' ' ∨ c = '\n')
    (hclean : ∀ s ∈ memberStrings r.result.value.members, '"' ∉ raw s ∧ BracketFree s) :
    r.Located where
  key := hkey
  first := hfirst
  lead := hlead
  braces := (brackets_braces.matched_blank _).append <| brackets_braces.matched_intercalate <|
    brackets_braces.matched_memberTexts _ fun s hs => (hclean s hs).2
  members m hm := by
    have hvalue : ∀ s ∈ m.value.strings, '"' ∉ raw s ∧ BracketFree s :=
      fun s hs => hclean s (mem_memberStrings hm (Or.inr hs))
    refine ⟨(hclean _ (mem_memberStrings hm (Or.inl rfl))).1, hleads m hm, ?_⟩
    cases hv : m.value with
    | scalar s => trivial
    | string s =>
        rw [hv] at hvalue
        exact (hvalue s List.mem_cons_self).1
    | array blank elems =>
        rw [hv] at hvalue
        exact (brackets_both.matched_blank _).append <| brackets_both.matched_intercalate <|
          brackets_both.matched_elemTexts elems fun s hs => (hvalue s hs).2
    | object blank members =>
        rw [hv] at hvalue
        exact (brackets_both.matched_blank _).append <| brackets_both.matched_intercalate <|
          brackets_both.matched_memberTexts members fun s hs => (hvalue s hs).2

/-- **The result is read just when it is written as it is kept**, where the positions are right;
the loop ends on every text. -/
theorem read_iff_bare {r : Response} (h : r.Located) :
    (∀ (jsonObj : Text) (n : ℕ), jsonObj.length ≤ n →
      parseMembers n jsonObj [] = parseMembers jsonObj.length jsonObj []) ∧
    (r.Bare → r.Read) ∧
    ((r.result.value.members.map fun m => unescape m.key).Nodup → r.Read → r.Bare) :=
  ⟨fun _ _ hn => parseMembers_of_length_le hn le_rfl [],
    fun hbare => ⟨r.fields, parseJSONResponse_of_bare h hbare, fun _ _ => rfl⟩,
    bare_of_read h⟩

end Response

/-! ## Responses of the node -/

def noBlank : Blank := ⟨[], List.forall_mem_nil _⟩

/-- A member without white space. -/
def compact {α : Type} (key : String) (value : α) : Member α where
  before := noBlank
  key := escape key.toList
  gap := noBlank
  lead := noBlank
  value := value
  after := noBlank

def stringValue (s : String) : Value := .string (escape s.toList)

/-- **The client writes strings as JSON does**, control characters without a letter apart. -/
theorem toList_escapeJSONString {input : String}
    (h : ∀ c ∈ input.toList, ' ' ≤ c ∨ c ∈ ['\x08', '\x0c', '\n', '\r', '\t']) :
    (escapeJSONString input).toList = raw (escape input.toList) := by
  rw [escapeJSONString, String.toList_ofList, raw, escape, List.flatMap_map]
  refine List.flatMap_congr fun c hc => ?_
  have hchar := h c hc
  unfold escapeChar
  split_ifs with hquote hbackslash hb hf hn hr ht hplain
  any_goals rfl
  have hspace : ' ' ≤ c := by simpa [hb, hf, hn, hr, ht] using hchar
  exact absurd ⟨hspace, hquote, hbackslash⟩ hplain

/-- A string is read as the client would write it. -/
theorem reading_compact (key : String) {s : String}
    (h : ∀ c ∈ s.toList, ' ' ≤ c ∨ c ∈ ['\x08', '\x0c', '\n', '\r', '\t']) :
    reading (compact key (stringValue s)) = (escapeJSONString s).toList :=
  (toList_escapeJSONString h).symm

/-- The response of the node to the request `1`, with further members before the result. -/
def nodeResponse (front members : List (Member Value)) : Response where
  lead := noBlank
  front := compact "jsonrpc" (stringValue "2.0") :: compact "id" (stringValue "1") :: front
  result := compact "result" ⟨noBlank, members⟩
  back := []
  trail := ⟨['\n'], List.forall_mem_singleton.mpr rfl⟩
  key_result := unescape_escape _
  last := List.forall_mem_nil _

/-- A receipt whose log has a member named like the result. -/
def receipt : Response :=
  nodeResponse [] [compact "hash" (stringValue "0x1"),
    compact "logs" (.array noBlank
      [⟨noBlank, .object noBlank [compact "result" (stringValue "a: b, c")], noBlank⟩]),
    compact "status" (.scalar (.bool true))]

theorem read_iff_bare_receipt : receipt.Read := by
  have hleads : ∀ m ∈ receipt.result.value.members, ∀ c ∈ m.lead.1, c = ' ' ∨ c = '\n' := by
    refine List.forall_mem_cons.mpr ⟨List.forall_mem_nil _, ?_⟩
    refine List.forall_mem_cons.mpr ⟨List.forall_mem_nil _, ?_⟩
    exact List.forall_mem_singleton.mpr (List.forall_mem_nil _)
  have hlocated : receipt.Located :=
    Response.located_of_clean (by decide +kernel) (by decide +kernel) (List.forall_mem_nil _)
      hleads (by decide +kernel)
  have hbare : receipt.Bare := by
    refine List.forall_mem_cons.mpr ⟨⟨by decide +kernel, ?_⟩, ?_⟩
    · exact (by decide +kernel : IsPlain (escape "0x1".toList))
    refine List.forall_mem_cons.mpr ⟨⟨by decide +kernel, trivial⟩, ?_⟩
    refine List.forall_mem_singleton.mpr ⟨by decide +kernel, fun c hc => ?_⟩
    exact absurd hc (Option.some_ne_none c).symm
  exact (Response.read_iff_bare hlocated).2.1 hbare

/-- The wrong place may hold the same members. -/
example : parseJSONResponse (nodeResponse [compact "context" (.object noBlank [compact "result"
    (.object noBlank [compact "nonce" (stringValue "2")])])]
    [compact "nonce" (stringValue "2")]).text = some [("nonce".toList, "2".toList)] := by
  decide +kernel

theorem not_read {r : Response} (fields : Fields) (key : Text)
    (h : parseJSONResponse r.text = some fields) (hkey : key ∈ r.fields.map Prod.fst)
    (hne : fields.lookup key ≠ r.fields.lookup key) : ¬ r.Read := by
  rintro ⟨fields', h', hread⟩
  rw [h, Option.some_inj] at h'
  exact hne (by rw [h']; exact hread key hkey)

/-- An escaped quote, a brace in a string, and a field with a member named like the result. -/
theorem not_read_quote_brace_result :
    ¬ (nodeResponse [] [compact "memo" (stringValue "a\"b")]).Read ∧
    ¬ (nodeResponse [] [compact "memo" (stringValue "\x7d"),
      compact "nonce" (stringValue "1")]).Read ∧
    ¬ (nodeResponse [compact "context" (.object noBlank
        [compact "result" (.object noBlank [compact "nonce" (stringValue "1")])])]
      [compact "nonce" (stringValue "2")]).Read := by
  refine ⟨?_, ?_, ?_⟩
  · exact not_read [("memo".toList, "a\\".toList)] "memo".toList (by decide +kernel)
      (by decide +kernel) (by decide +kernel)
  · exact not_read [] "nonce".toList (by decide +kernel) (by decide +kernel) (by decide +kernel)
  · exact not_read [("nonce".toList, "1".toList)] "nonce".toList (by decide +kernel)
      (by decide +kernel) (by decide +kernel)

end BhtBhte.WalletPro
