import Mathlib.Data.List.Forall2
import Mathlib.Data.List.GetD
import Mathlib.Data.List.Nodup
import Mathlib.Data.List.Perm.Subperm
import Mathlib.Tactic.Ring

/-!
# Slices, loops and optional lists

Slices of a list, loops that accumulate, and lists of optional values.  A loop that does two things
is two loops, one that is never given up is a fold, and a list of optional values that are all there
is a list of values.

## Main definitions

* `slice` — the part of a list between two offsets.
* `firstMatch` — the first entry with a property, and its position.
-/
namespace BhtBhte.Lib
variable {α β γ ε : Type}

/-- The `n` entries from the offset on. -/
def slice (data : List α) (off n : ℕ) : List α := (data.drop off).take n

/-- The first entry that a loop stops at, and where it lies. -/
def firstMatch (p : α → Bool) (l : List α) : Option (ℕ × α) :=
  (l.findIdx? p).bind fun i => l[i]?.map fun a => (i, a)

theorem firstMatch_eq_some {p : α → Bool} {l : List α} {i : ℕ} {a : α} :
    firstMatch p l = some (i, a) ↔
      l[i]? = some a ∧ p a = true ∧ ∀ j < i, ∀ b, l[j]? = some b → p b = false := by
  simp only [firstMatch, Option.bind_eq_some_iff, Option.map_eq_some_iff,
    List.findIdx?_eq_some_iff_getElem, Prod.mk.injEq]
  constructor
  · rintro ⟨k, ⟨hlt, hmatch, hfirst⟩, b, hb, rfl, rfl⟩
    have hat : l[k] = b := by rwa [List.getElem?_eq_getElem hlt, Option.some.injEq] at hb
    refine ⟨hb, hat ▸ hmatch, fun j hj c hc => ?_⟩
    have hnot := hfirst j hj
    obtain ⟨-, rfl⟩ := List.getElem?_eq_some_iff.mp hc
    rwa [Bool.not_eq_true] at hnot
  · rintro ⟨ha, hmatch, hfirst⟩
    obtain ⟨hlt, hat⟩ := List.getElem?_eq_some_iff.mp ha
    refine ⟨i, ⟨hlt, hat ▸ hmatch, fun j hj => ?_⟩, a, ha, rfl, rfl⟩
    rw [hfirst j hj _ (List.getElem?_eq_getElem (hj.trans hlt))]
    exact Bool.false_ne_true

theorem length_slice {data : List α} {off n : ℕ} (h : off + n ≤ data.length) :
    (slice data off n).length = n := by
  rw [slice, List.length_take, List.length_drop]
  omega

/-- The whole of the part in front. -/
theorem slice_left {a : List α} {n : ℕ} (h : a.length = n) (b : List α) :
    slice (a ++ b) 0 n = a := by
  rw [slice, List.drop_zero, ← h, List.take_left]

/-- All of the data. -/
theorem slice_all {data : List α} {n : ℕ} (h : data.length = n) : slice data 0 n = data := by
  rw [slice, List.drop_zero, ← h, List.take_length]

theorem slice_append_right (a b : List α) (off n : ℕ) :
    slice (a ++ b) (a.length + off) n = slice b off n := by
  rw [slice, slice, List.drop_append, List.drop_eq_nil_of_le (by omega), List.nil_append,
    Nat.add_sub_cancel_left]

theorem slice_append_left {a b : List α} {off n : ℕ} (h : off + n ≤ a.length) :
    slice (a ++ b) off n = slice a off n := by
  rw [slice, slice, List.drop_append_of_le_length (by omega), List.take_append_of_le_length]
  rw [List.length_drop]
  omega

/-- The whole of the part in the middle. -/
theorem slice_middle {a b : List α} {off n : ℕ} (ha : a.length = off) (hb : b.length = n)
    (c : List α) : slice (a ++ b ++ c) off n = b := by
  rw [slice, ← ha, ← hb, List.append_assoc, List.drop_left, List.take_left]

/-- A piece of a concatenation. -/
theorem slice_flatten (front : List (List α)) (piece : List α) (back : List (List α)) {off n : ℕ}
    (hoff : front.flatten.length = off) (hn : piece.length = n) :
    slice (front ++ piece :: back).flatten off n = piece := by
  rw [List.flatten_append, List.flatten_cons, ← List.append_assoc]
  exact slice_middle hoff hn _

/-- Two slices that follow each other. -/
theorem slice_append_slice (data : List α) (off n n' : ℕ) :
    slice data off n ++ slice data (off + n) n' = slice data off (n + n') := by
  rw [slice, slice, slice, List.take_add, List.drop_drop]

theorem getD_slice (data : List α) (off n j : ℕ) (d : α) :
    (slice data off n).getD j d = if j < n then data.getD (off + j) d else d := by
  rw [slice, List.getD_eq_getElem?_getD, List.getElem?_take, List.getElem?_drop,
    List.getD_eq_getElem?_getD]
  split
  · rfl
  · rfl

theorem slice_eq_map_getD {data : List α} {off n : ℕ} (h : off + n ≤ data.length) (d : α) :
    slice data off n = (List.range n).map fun j => data.getD (off + j) d := by
  refine List.ext_getElem (by rw [length_slice h]; simp) fun j hj _ => ?_
  rw [length_slice h] at hj
  rw [← List.getD_eq_getElem _ d, getD_slice, if_pos hj]
  simp

theorem drop_flatMap {f : α → List β} {size : ℕ} (hf : ∀ a, (f a).length = size) (l : List α)
    (k : ℕ) : (l.flatMap f).drop (size * k) = (l.drop k).flatMap f := by
  induction k generalizing l with
  | zero => rfl
  | succ k ih =>
      cases l with
      | nil => rw [List.flatMap_nil, List.drop_nil, List.drop_nil, List.flatMap_nil]
      | cons a l =>
          rw [List.flatMap_cons, Nat.mul_succ, Nat.add_comm, ← List.drop_drop, ← hf a,
            List.drop_left, hf a, ih, List.drop_succ_cons]

theorem take_flatMap {f : α → List β} {size : ℕ} (hf : ∀ a, (f a).length = size) (l : List α)
    (k : ℕ) : (l.flatMap f).take (size * k) = (l.take k).flatMap f := by
  induction k generalizing l with
  | zero => rw [Nat.mul_zero, List.take_zero, List.take_zero, List.flatMap_nil]
  | succ k ih =>
      cases l with
      | nil => rw [List.flatMap_nil, List.take_nil, List.take_nil, List.flatMap_nil]
      | cons a l =>
          rw [List.flatMap_cons, Nat.mul_succ, Nat.add_comm, List.take_succ_cons,
            List.flatMap_cons, ← ih, ← hf a, List.take_length_add_append]

/-- A piece of a concatenation of pieces of one size. -/
theorem slice_flatMap_mul {f : α → List β} {size : ℕ} (hf : ∀ a, (f a).length = size)
    (l : List α) (off n : ℕ) :
    slice (l.flatMap f) (size * off) (size * n) = (slice l off n).flatMap f := by
  rw [slice, drop_flatMap hf, take_flatMap hf, slice]

theorem length_flatMap_range {f : ℕ → List α} {size : ℕ} (hf : ∀ i, (f i).length = size) (n : ℕ) :
    ((List.range n).flatMap f).length = n * size := by
  induction n with
  | zero => simp
  | succ n ih =>
      rw [List.range_succ, List.flatMap_append, List.length_append, ih, Nat.succ_mul]
      simp [hf]

/-- A loop over two indices. -/
theorem flatMap_range_mul (f : ℕ → List α) (m n : ℕ) :
    (List.range (m * n)).flatMap f =
      (List.range m).flatMap fun i => (List.range n).flatMap fun j => f (n * i + j) := by
  induction m with
  | zero => rw [Nat.zero_mul]; rfl
  | succ m ih =>
      rw [Nat.succ_mul, List.range_add, List.flatMap_append, ih, List.range_succ,
        List.flatMap_append, List.flatMap_singleton, List.flatMap_map, Nat.mul_comm]

/-- A slice of pieces of one size is a piece. -/
theorem slice_flatMap {f : ℕ → List α} {size : ℕ} (hf : ∀ i, (f i).length = size) {n i : ℕ}
    (hi : i < n) : slice ((List.range n).flatMap f) (i * size) size = f i := by
  have hsplit : List.range n = List.range i ++ [i] ++ (List.range' (i + 1) (n - (i + 1))) := by
    rw [← List.range_succ, List.range_eq_range', List.range_eq_range']
    have h := (@List.range'_append_1 0 (i + 1) (n - (i + 1))).symm
    rwa [Nat.add_sub_cancel' hi, Nat.zero_add] at h
  rw [hsplit, List.flatMap_append, List.flatMap_append, List.flatMap_singleton]
  exact slice_middle (length_flatMap_range hf i) (hf i) _

/-- The slices of one size, one after the other. -/
theorem flatMap_slice (data : List α) (off size n : ℕ) :
    ((List.range n).flatMap fun i => slice data (off + i * size) size) =
      slice data off (n * size) := by
  induction n with
  | zero => simp [slice]
  | succ n ih =>
      rw [List.range_succ, List.flatMap_append, List.flatMap_singleton, ih, slice_append_slice,
        Nat.succ_mul]

theorem map_range_getD (l : List α) (d : α) :
    ((List.range l.length).map fun i => l.getD i d) = l := by
  apply List.ext_getElem (by simp)
  intro i h₁ h₂
  rw [List.getElem_map, List.getElem_range, List.getD_eq_getElem _ _ h₂]

/-- Going through the entries of a vector by their indices. -/
theorem flatMap_range_getD {v : List α} {n : ℕ} (hv : v.length = n) (d : α)
    (f : α → List β) : ((List.range n).flatMap fun i => f (v.getD i d)) = v.flatMap f := by
  rw [← hv]
  conv_rhs => rw [← map_range_getD v d, List.flatMap_map]

theorem map_range_getD_length {v : List α} {n : ℕ} (hv : v.length = n) (d : α)
    (f : α → β) : ((List.range n).map fun i => f (v.getD i d)) = v.map f := by
  rw [← hv]
  conv_rhs => rw [← map_range_getD v d, List.map_map]
  rfl

/-! ## Loops -/

/-- A loop that appends one value in each round and carries another one along. -/
theorem foldl_push (f : α → β) (g : γ → α → γ) (l : List α) (v : List β) (c : γ) :
    l.foldl (fun s i => (s.1 ++ [f i], g s.2 i)) (v, c) = (v ++ l.map f, l.foldl g c) := by
  induction l generalizing v c with
  | nil => simp
  | cons a l ih => simp [ih]

theorem foldl_push_pair (f : α → β) (g : α → γ) (l : List α) :
    l.foldl (fun s i => (s.1 ++ [f i], s.2 ++ [g i])) ([], []) = (l.map f, l.map g) := by
  have hcarried : ∀ (l : List α) (v : List γ),
      l.foldl (fun v i => v ++ [g i]) v = v ++ l.map g := by
    intro l
    induction l with
    | nil => simp
    | cons a l ih => simp [ih]
  rw [foldl_push f (fun v i => v ++ [g i]), hcarried, List.nil_append, List.nil_append]

/-- A loop that carries two values along. -/
theorem foldl_prod (f : β → α → β) (g : γ → α → γ) (l : List α) (b : β) (c : γ) :
    l.foldl (fun s i => (f s.1 i, g s.2 i)) (b, c) = (l.foldl f b, l.foldl g c) := by
  induction l generalizing b c with
  | nil => rfl
  | cons a l ih => exact ih _ _

/-- A loop that appends a list in each round. -/
theorem foldl_append_flatMap (f : α → List β) (l : List α) (out : List β) :
    l.foldl (fun out i => out ++ f i) out = out ++ l.flatMap f := by
  induction l generalizing out with
  | nil => simp
  | cons a l ih => simp [ih]

/-- A loop over positions that writes each of them, when writing twice is writing once. -/
theorem getElem?_foldl_modify {f : α → α} (hf : ∀ a, f (f a) = f a) (l : List α) (ks : List ℕ)
    (k : ℕ) :
    (ks.foldl (fun l k => l.modify k f) l)[k]? =
      (l[k]?).map fun a => if k ∈ ks then f a else a := by
  induction ks generalizing l with
  | nil => simp
  | cons k' ks ih =>
      rw [List.foldl_cons, ih, List.getElem?_modify]
      cases l[k]? with
      | none => rfl
      | some a =>
          by_cases hk : k' = k
          · subst hk
            by_cases hks : k' ∈ ks <;> simp [hks, hf]
          · have hk' : k ≠ k' := fun h => hk h.symm
            simp [hk, hk']

theorem length_foldl_modify (f : α → α) (l : List α) (ks : List ℕ) :
    (ks.foldl (fun l k => l.modify k f) l).length = l.length := by
  induction ks generalizing l with
  | nil => rfl
  | cons k ks ih => rw [List.foldl_cons, ih, List.length_modify]

/-- A loop that writes the first places, one after the other. -/
theorem foldl_set_range (f : ℕ → α) (l : List α) {n : ℕ} (hn : n ≤ l.length) :
    (List.range n).foldl (fun l i => l.set i (f i)) l = (List.range n).map f ++ l.drop n := by
  induction n with
  | zero => rfl
  | succ n ih =>
      have hlen : ((List.range n).map f).length = n := by simp
      rw [List.range_succ, List.foldl_append, ih (by omega), List.foldl_cons, List.foldl_nil,
        List.set_append_right _ _ (by omega), hlen, Nat.sub_self,
        List.drop_eq_getElem_cons (by omega), List.set_cons_zero, List.map_append,
        List.append_assoc]
      rfl

/-! ## Optional values -/

theorem mapM_cons_eq_some {f : α → Option β} {a : α} {l : List α} {bs : List β}
    (h : (a :: l).mapM f = some bs) :
    ∃ b bs', f a = some b ∧ l.mapM f = some bs' ∧ bs = b :: bs' := by
  rw [List.mapM_cons] at h
  obtain ⟨b, hb, hrest⟩ := Option.bind_eq_some_iff.mp h
  obtain ⟨bs', hbs', heq⟩ := Option.bind_eq_some_iff.mp hrest
  exact ⟨b, bs', hb, hbs', (Option.some.inj heq).symm⟩

theorem mapM_eq_some {f : α → Option β} {l : List α} {bs : List β} (h : l.mapM f = some bs) :
    List.Forall₂ (fun a b => f a = some b) l bs := by
  induction l generalizing bs with
  | nil =>
      cases h
      exact .nil
  | cons a l ih =>
      obtain ⟨b, bs', hb, hbs', rfl⟩ := mapM_cons_eq_some h
      exact .cons hb (ih hbs')

theorem mem_of_mapM_eq_some {f : α → Option β} {l : List α} {bs : List β}
    (h : l.mapM f = some bs) {b : β} (hb : b ∈ bs) : ∃ a ∈ l, f a = some b := by
  induction l generalizing bs with
  | nil =>
      cases h
      cases hb
  | cons a l ih =>
      obtain ⟨b', bs', hb', hbs', rfl⟩ := mapM_cons_eq_some h
      rcases List.mem_cons.mp hb with rfl | hmem
      · exact ⟨a, List.mem_cons_self, hb'⟩
      · obtain ⟨x, hx, hfx⟩ := ih hbs' hmem
        exact ⟨x, List.mem_cons_of_mem a hx, hfx⟩

/-- All values of a range are there. -/
theorem mapM_range_eq_some {f : ℕ → Option β} {n : ℕ} {bs : List β}
    (h : (List.range n).mapM f = some bs) :
    bs.length = n ∧ ∀ i < n, ∀ d, f i = some (bs.getD i d) := by
  have hall := mapM_eq_some h
  have hlen : bs.length = n := by rw [← hall.length_eq, List.length_range]
  refine ⟨hlen, fun i hi d => ?_⟩
  have hget := hall.get (by simpa using hi) (by omega : i < bs.length)
  rw [List.getD_eq_getElem _ _ (by omega)]
  simpa using hget

theorem mapM_range_of_forall {f : ℕ → Option β} {g : ℕ → β} {n : ℕ} (h : ∀ i < n, f i = some (g i)) :
    (List.range n).mapM f = some ((List.range n).map g) := by
  induction n with
  | zero => rfl
  | succ n ih =>
      rw [List.range_succ, List.mapM_append, ih fun i hi => h i (by omega)]
      simp [h n (by omega)]

/-- An invariant of the rounds of a loop that may be given up. -/
theorem foldlM_range_induction {f : β → ℕ → Option β} {n : ℕ} {s s' : β} (P : ℕ → β → Prop)
    (h : (List.range n).foldlM f s = some s') (hzero : P 0 s)
    (hstep : ∀ i < n, ∀ t t', P i t → f t i = some t' → P (i + 1) t') : P n s' := by
  induction n generalizing s' with
  | zero =>
      cases h
      exact hzero
  | succ n ih =>
      rw [List.range_succ, List.foldlM_append] at h
      obtain ⟨t, ht, hlast⟩ := Option.bind_eq_some_iff.mp h
      rw [List.foldlM_cons] at hlast
      obtain ⟨t', ht', hend⟩ := Option.bind_eq_some_iff.mp hlast
      cases hend
      exact hstep n (by omega) t s' (ih ht fun i hi => hstep i (by omega)) ht'

/-- A loop that follows a known sequence of states. -/
theorem foldlM_range_of_forall {f : β → ℕ → Option β} (g : ℕ → β) {n : ℕ}
    (h : ∀ i < n, f (g i) i = some (g (i + 1))) : (List.range n).foldlM f (g 0) = some (g n) := by
  induction n with
  | zero => rfl
  | succ n ih =>
      rw [List.range_succ, List.foldlM_append, ih fun i hi => h i (by omega)]
      simp [h n (by omega)]

/-- An invariant under which no round is given up. -/
theorem foldlM_eq_foldl {f : β → α → Option β} {g : β → α → β} {P : β → Prop} {l : List α} {b : β}
    (hb : P b) (h : ∀ b, P b → ∀ a ∈ l, f b a = some (g b a) ∧ P (g b a)) :
    l.foldlM f b = some (l.foldl g b) ∧ P (l.foldl g b) := by
  induction l generalizing b with
  | nil => exact ⟨rfl, hb⟩
  | cons a l ih =>
      obtain ⟨hstep, hnext⟩ := h b hb a List.mem_cons_self
      rw [List.foldlM_cons, hstep, List.foldl_cons]
      exact ih hnext fun b hb a ha => h b hb a (List.mem_cons_of_mem _ ha)

/-! ## Results that may be errors -/

/-- Either every result is there, or an error of one of them is the error of all. -/
theorem mapM_ok_or_error (f : α → Except ε β) (l : List α) :
    (∃ bs, l.mapM f = .ok bs ∧ ∀ a ∈ l, ∃ b, f a = .ok b) ∨
      ∃ a ∈ l, ∃ e, f a = .error e ∧ l.mapM f = .error e := by
  induction l with
  | nil => exact .inl ⟨[], rfl, by simp⟩
  | cons a l ih =>
      rw [List.mapM_cons]
      cases ha : f a with
      | error e => exact .inr ⟨a, List.mem_cons_self, e, ha, rfl⟩
      | ok b =>
          rcases ih with ⟨bs, hbs, hall⟩ | ⟨a', ha', e, hfa', he⟩
          · refine .inl ⟨b :: bs, by rw [hbs]; rfl, fun a' ha' => ?_⟩
            rcases List.mem_cons.mp ha' with rfl | ha'
            · exact ⟨b, ha⟩
            · exact hall a' ha'
          · exact .inr ⟨a', List.mem_cons_of_mem a ha', e, hfa', by rw [he]; rfl⟩

/-- What each entry is printed as, and read back from. -/
theorem mapM_map_ok {f : β → Except ε α} {g : α → β} {l : List α}
    (h : ∀ a ∈ l, f (g a) = .ok a) : (l.map g).mapM f = .ok l := by
  induction l with
  | nil => rfl
  | cons a l ih =>
      rw [List.map_cons, List.mapM_cons, h a List.mem_cons_self,
        ih fun a' ha' => h a' (List.mem_cons_of_mem a ha')]
      rfl

/-! ## Association lists -/

section Lookup

variable [BEq α] [LawfulBEq α]

theorem mem_of_lookup_eq_some {l : List (α × β)} {k : α} {b : β} (h : l.lookup k = some b) :
    (k, b) ∈ l := by
  obtain ⟨l₁, l₂, rfl, -⟩ := List.lookup_eq_some_iff.mp h
  exact List.mem_append_right _ List.mem_cons_self

/-- Where keys are distinct, every entry is found. -/
theorem lookup_of_mem {l : List (α × β)} (hl : (l.map Prod.fst).Nodup) {k : α} {b : β}
    (h : (k, b) ∈ l) : l.lookup k = some b := by
  obtain ⟨l₁, l₂, rfl⟩ := List.append_of_mem h
  refine List.lookup_eq_some_iff.mpr ⟨l₁, l₂, rfl, fun p hp => bne_iff_ne.mpr ?_⟩
  rw [List.map_append, List.nodup_append] at hl
  exact (hl.2.2 _ (List.mem_map_of_mem hp) _ (List.mem_map_of_mem List.mem_cons_self)).symm

/-- Of entries with distinct keys, those without a value left out, each is found as it was given,
also in the list the other way round. -/
theorem lookup_reverse_filterMap {γ : Type*} {key : γ → α} {value : γ → Option β} {es : List γ}
    (hkeys : (es.map key).Nodup) {e : γ} (he : e ∈ es) :
    ((es.filterMap fun e => (value e).map fun b => (key e, b)).reverse).lookup (key e) =
      value e := by
  have hsub : ((es.filterMap fun e => (value e).map fun b => (key e, b)).map Prod.fst).Sublist
      (es.map key) := by
    clear hkeys he
    induction es with
    | nil => exact List.Sublist.refl _
    | cons e es ih =>
        cases hv : value e with
        | none => simpa [hv] using ih.cons (key e)
        | some b => simpa [hv] using ih.cons_cons (key e)
  cases hv : value e with
  | some b =>
      refine lookup_of_mem ?_ (List.mem_reverse.mpr (List.mem_filterMap.mpr ⟨e, he, by rw [hv]; rfl⟩))
      rw [List.map_reverse]
      exact List.nodup_reverse.mpr (hkeys.sublist hsub)
  | none =>
      refine List.lookup_eq_none_iff.mpr fun p hp => bne_iff_ne.mpr ?_
      obtain ⟨e', he', hp⟩ := List.mem_filterMap.mp (List.mem_reverse.mp hp)
      obtain ⟨b, hb, rfl⟩ := Option.map_eq_some_iff.mp hp
      intro heq
      rw [List.inj_on_of_nodup_map hkeys he he' heq, hb] at hv
      cases hv

/-- Keys that are distinct and found alike in a list with no more entries are its keys. -/
theorem perm_of_lookup_eq {l l' : List (α × β)}
    (h : ∀ k ∈ l'.map Prod.fst, l.lookup k = l'.lookup k) (hl' : (l'.map Prod.fst).Nodup)
    (hlength : l.length ≤ l'.length) : (l'.map Prod.fst).Perm (l.map Prod.fst) := by
  have hsub : l'.map Prod.fst ⊆ l.map Prod.fst := by
    intro k hk
    obtain ⟨⟨k, b⟩, hmem, rfl⟩ := List.mem_map.mp hk
    have hfound : l.lookup k = some b := (h k hk).trans (lookup_of_mem hl' hmem)
    exact List.mem_map_of_mem (f := Prod.fst) (mem_of_lookup_eq_some hfound)
  exact (List.subperm_of_subset hl' hsub).perm_of_length_le (by simpa using hlength)

end Lookup

end BhtBhte.Lib
