import Mathlib.Algebra.BigOperators.Group.List.Basic
import Mathlib.Algebra.Group.Basic
import Mathlib.Data.List.FinRange
import Mathlib.Data.List.OfFn
import Mathlib.Data.List.Nodup
import Mathlib.Data.Set.Function
import Mathlib.Logic.Equiv.Fin.Basic
import Mathlib.Order.Basic
import Mathlib.Tactic.Abel
import Mathlib.Tactic.Common

/-!
# Finite maps with an arbitrary iteration order

A finite map is a list of entries with strictly increasing keys, so two maps with the
same lookups are equal.  The order of the list carries no meaning: a program that
ranges over a map does so in the order of a permutation it does not control, and
`range` takes that permutation as an argument.

## Main definitions

* `FinMap K V` with `get?`, `insert`, `erase` and `filter`.
* `range σ m` — the entries in the order chosen by `σ`.
* `rekey f l` — write the entries of a list under the keys `f k`, later ones last.
* `total f m` — the sum of `f` over the entries.
-/
namespace BhtBhte.Lib

/-- A finite map: entries with strictly increasing keys. -/
structure FinMap (K V : Type) [LinearOrder K] where
  entries : List (K × V)
  sorted : entries.Pairwise fun a b => a.1 < b.1

/-- A choice of iteration order for every map size. -/
abbrev RangeOrder := (n : ℕ) → Equiv.Perm (Fin n)

namespace FinMap
variable {K V W : Type} [LinearOrder K]

instance [DecidableEq V] : DecidableEq (FinMap K V) := fun m m' =>
  decidable_of_iff (m.entries = m'.entries) (by cases m; cases m'; simp)

instance : EmptyCollection (FinMap K V) := ⟨⟨[], .nil⟩⟩
instance : Inhabited (FinMap K V) := ⟨∅⟩

/-- The value stored under a key. -/
def get? (m : FinMap K V) (k : K) : Option V := (m.entries.find? (·.1 = k)).map Prod.snd

/-- The keys in increasing order. -/
def keys (m : FinMap K V) : List K := m.entries.map Prod.fst

/-- Write a value under a key, replacing what was there. -/
def insert (m : FinMap K V) (k : K) (v : V) : FinMap K V where
  entries := m.entries.filter (·.1 < k) ++ (k, v) :: m.entries.filter (k < ·.1)
  sorted := by
    simp only [List.pairwise_append, List.pairwise_cons, List.mem_filter, List.mem_cons,
      decide_eq_true_eq]
    refine ⟨m.sorted.filter _, ⟨fun a ha => ha.2, m.sorted.filter _⟩, ?_⟩
    rintro a ⟨-, ha⟩ b (rfl | ⟨-, hb⟩)
    · exact ha
    · exact ha.trans hb

/-- Keep the entries that satisfy a test. -/
def filter (m : FinMap K V) (p : K → V → Bool) : FinMap K V where
  entries := m.entries.filter fun e => p e.1 e.2
  sorted := m.sorted.filter _

/-- Apply a function to every value. -/
def mapValues (m : FinMap K V) (f : V → W) : FinMap K W where
  entries := m.entries.map fun e => (e.1, f e.2)
  sorted := List.pairwise_map.mpr m.sorted

/-- Remove a key. -/
def erase (m : FinMap K V) (k : K) : FinMap K V := m.filter fun k' _ => k' ≠ k

/-! ## Lookup -/

theorem nodup_keys (m : FinMap K V) : m.keys.Nodup :=
  List.pairwise_map.mpr (m.sorted.imp ne_of_lt)

theorem nodup_entries (m : FinMap K V) : m.entries.Nodup :=
  m.nodup_keys.of_map

theorem eq_of_mem_entries {m : FinMap K V} {k : K} {v v' : V} (h : (k, v) ∈ m.entries)
    (h' : (k, v') ∈ m.entries) : v = v' := by
  have := List.inj_on_of_nodup_map m.nodup_keys h h' rfl
  exact (Prod.mk.inj this).2

theorem get?_eq_some {m : FinMap K V} {k : K} {v : V} :
    m.get? k = some v ↔ (k, v) ∈ m.entries := by
  constructor
  · intro h
    obtain ⟨e, he, rfl⟩ := Option.map_eq_some_iff.mp h
    have hk : e.1 = k := by simpa using List.find?_some he
    rw [← hk]
    exact List.mem_of_find?_eq_some he
  · intro h
    cases hf : m.entries.find? (·.1 = k) with
    | none =>
        have := List.find?_eq_none.mp hf _ h
        simp at this
    | some e =>
        have hk : e.1 = k := by simpa using List.find?_some hf
        have hmem : (k, e.2) ∈ m.entries := by
          rw [← hk]; exact List.mem_of_find?_eq_some hf
        rw [get?, hf, Option.map_some, eq_of_mem_entries hmem h]

theorem mem_keys {m : FinMap K V} {k : K} : k ∈ m.keys ↔ ∃ v, m.get? k = some v := by
  simp only [keys, List.mem_map, get?_eq_some, Prod.exists, exists_and_right, exists_eq_right]

theorem get?_eq_none {m : FinMap K V} {k : K} : m.get? k = none ↔ k ∉ m.keys := by
  rw [mem_keys, ← Option.not_isSome_iff_eq_none, Option.isSome_iff_exists]

/-- Maps with the same lookups are equal. -/
@[ext] theorem ext {m m' : FinMap K V} (h : ∀ k, m.get? k = m'.get? k) : m = m' := by
  have hmem : ∀ e, e ∈ m.entries ↔ e ∈ m'.entries := by
    rintro ⟨k, v⟩
    rw [← get?_eq_some, ← get?_eq_some, h]
  have hperm : m.entries.Perm m'.entries :=
    (List.perm_ext_iff_of_nodup m.nodup_entries m'.nodup_entries).mpr hmem
  have heq : m.entries = m'.entries :=
    hperm.eq_of_pairwise (fun a b _ _ hab hba => absurd (hab.trans hba) (lt_irrefl _))
      m.sorted m'.sorted
  cases m; cases m'; simp_all

@[simp] theorem get?_empty (k : K) : (∅ : FinMap K V).get? k = none := rfl

theorem mem_entries_insert {m : FinMap K V} {k k' : K} {v v' : V} :
    (k', v') ∈ (m.insert k v).entries ↔
      (k' = k ∧ v' = v) ∨ (k' ≠ k ∧ (k', v') ∈ m.entries) := by
  simp only [insert, List.mem_append, List.mem_cons, List.mem_filter, decide_eq_true_eq,
    Prod.mk.injEq]
  constructor
  · rintro (⟨h, hlt⟩ | h | ⟨h, hlt⟩)
    · exact .inr ⟨ne_of_lt hlt, h⟩
    · exact .inl h
    · exact .inr ⟨ne_of_gt hlt, h⟩
  · rintro (h | ⟨hne, h⟩)
    · exact .inr (.inl h)
    · rcases lt_or_gt_of_ne hne with hlt | hlt
      · exact .inl ⟨h, hlt⟩
      · exact .inr (.inr ⟨h, hlt⟩)

theorem get?_insert (m : FinMap K V) (k k' : K) (v : V) :
    (m.insert k v).get? k' = if k' = k then some v else m.get? k' := by
  ext v'
  rw [get?_eq_some, mem_entries_insert]
  by_cases h : k' = k
  · simp [h, eq_comm]
  · simp [h, get?_eq_some]

@[simp] theorem get?_insert_self (m : FinMap K V) (k : K) (v : V) :
    (m.insert k v).get? k = some v := by rw [get?_insert, if_pos rfl]

theorem get?_insert_of_ne (m : FinMap K V) {k k' : K} (v : V) (h : k' ≠ k) :
    (m.insert k v).get? k' = m.get? k' := by rw [get?_insert, if_neg h]

theorem get?_filter (m : FinMap K V) (p : K → V → Bool) (k : K) :
    (m.filter p).get? k = (m.get? k).filter (p k) := by
  ext v
  rw [get?_eq_some, Option.filter_eq_some_iff, get?_eq_some]
  simp [filter]

theorem get?_mapValues (m : FinMap K V) (f : V → W) (k : K) :
    (m.mapValues f).get? k = (m.get? k).map f := by
  ext v
  rw [get?_eq_some, Option.map_eq_some_iff]
  simp only [get?_eq_some, mapValues, List.mem_map, Prod.mk.injEq, Prod.exists]
  constructor
  · rintro ⟨k', v', h, rfl, rfl⟩
    exact ⟨v', h, rfl⟩
  · rintro ⟨v', h, rfl⟩
    exact ⟨k, v', h, rfl, rfl⟩

/-- A function changes no value of a map exactly when it changes none that is looked up. -/
theorem mapValues_eq_self_iff {m : FinMap K V} {f : V → V} :
    m.mapValues f = m ↔ ∀ k v, m.get? k = some v → f v = v := by
  constructor
  · intro h k v hv
    have hmapped := get?_mapValues m f k
    rw [h, hv, Option.map_some, Option.some.injEq] at hmapped
    exact hmapped.symm
  · intro h
    ext1 k
    rw [get?_mapValues]
    cases hv : m.get? k with
    | none => rfl
    | some v => rw [Option.map_some, h k v hv]

@[simp] theorem get?_erase_self (m : FinMap K V) (k : K) : (m.erase k).get? k = none := by
  rw [erase, get?_filter]
  cases m.get? k <;> simp

theorem get?_erase_of_ne (m : FinMap K V) {k k' : K} (h : k' ≠ k) :
    (m.erase k).get? k' = m.get? k' := by
  rw [erase, get?_filter]
  cases m.get? k' <;> simp [h]

/-- Erasing one after the other removes all of the keys. -/
theorem get?_foldl_erase {β : Type} (f : β → K) (l : List β) (m : FinMap K V) (k : K) :
    (l.foldl (fun m b => m.erase (f b)) m).get? k = if k ∈ l.map f then none else m.get? k := by
  induction l generalizing m with
  | nil => simp
  | cons b l ih =>
      rw [List.foldl_cons, ih, List.map_cons]
      by_cases hl : k ∈ l.map f
      · rw [if_pos hl, if_pos (List.mem_cons_of_mem _ hl)]
      · rw [if_neg hl]
        by_cases hb : k = f b
        · rw [if_pos (by simp [hb]), hb, get?_erase_self]
        · rw [if_neg (by simp [hb, hl]), get?_erase_of_ne _ hb]

theorem mem_keys_foldl_erase {β : Type} {f : β → K} {l : List β} {m : FinMap K V} {k : K} :
    k ∈ (l.foldl (fun m b => m.erase (f b)) m).keys ↔ k ∈ m.keys ∧ k ∉ l.map f := by
  rw [mem_keys, mem_keys, get?_foldl_erase]
  by_cases h : k ∈ l.map f <;> simp [h]

theorem mem_keys_insert {m : FinMap K V} {k k' : K} {v : V} :
    k' ∈ (m.insert k v).keys ↔ k' = k ∨ k' ∈ m.keys := by
  rw [mem_keys, mem_keys, get?_insert]
  by_cases h : k' = k <;> simp [h]

/-- The last write to a key stays. -/
theorem insert_insert (m : FinMap K V) (k : K) (v v' : V) :
    (m.insert k v).insert k v' = m.insert k v' := by
  ext1 k'
  simp only [get?_insert]
  split <;> rfl

/-- Writing the value a key already has changes nothing. -/
theorem insert_eq_self {m : FinMap K V} {k : K} {v : V} (h : m.get? k = some v) :
    m.insert k v = m := by
  ext1 k'
  rw [get?_insert]
  split
  · next hk => rw [hk, h]
  · rfl

/-- Filtering keeps an entry whose value passes. -/
theorem get?_filter_of_keep {m : FinMap K V} {p : K → V → Bool} {k : K}
    (h : ∀ v, m.get? k = some v → p k v = true) : (m.filter p).get? k = m.get? k := by
  rw [get?_filter]
  cases hv : m.get? k with
  | none => rfl
  | some v => exact Option.filter_eq_some_iff.mpr ⟨rfl, h v hv⟩

/-- Filtering drops an entry whose value fails. -/
theorem get?_filter_of_drop {m : FinMap K V} {p : K → V → Bool} {k : K}
    (h : ∀ v, m.get? k = some v → p k v = false) : (m.filter p).get? k = none := by
  rw [get?_filter, Option.filter_eq_none_iff]
  intro v hv
  rw [h v hv]
  exact Bool.false_ne_true

/-- Two entries stand in the order of their keys. -/
theorem entries_insert_insert {k k' : K} (h : k < k') (v v' : V) :
    (((∅ : FinMap K V).insert k' v').insert k v).entries = [(k, v), (k', v')] := by
  show List.filter _ [(k', v')] ++ (k, v) :: List.filter _ [(k', v')] = _
  rw [List.filter_cons_of_neg (by simpa using h.le), List.filter_cons_of_pos (by simpa using h)]
  rfl

/-! ## Ranging over a map -/

/-- The entries in the order chosen by `σ`. -/
def range (σ : RangeOrder) (m : FinMap K V) : List (K × V) :=
  List.ofFn fun i => m.entries.get (σ m.entries.length i)

theorem range_perm (σ : RangeOrder) (m : FinMap K V) : (m.range σ).Perm m.entries := by
  have h := Equiv.Perm.ofFn_comp_perm (σ m.entries.length) m.entries.get
  rwa [List.ofFn_get] at h

theorem mem_range {σ : RangeOrder} {m : FinMap K V} {e : K × V} :
    e ∈ m.range σ ↔ e ∈ m.entries := (m.range_perm σ).mem_iff

/-! ## Keys up to a function -/

section Spelling
variable {K' : Type}

/-- No two keys of the map go to the same place. -/
def NoClash (f : K → K') (m : FinMap K V) : Prop := Set.InjOn f {k | k ∈ m.keys}

/-- Keys that go to the same place hold the same value. -/
def Consistent (f : K → K') (m : FinMap K V) : Prop :=
  ∀ k₁ k₂ v₁ v₂, m.get? k₁ = some v₁ → m.get? k₂ = some v₂ → f k₁ = f k₂ → v₁ = v₂

/-- A key of the map that goes to `k'` holds `v`. -/
def Reads (f : K → K') (m : FinMap K V) (k' : K') (v : V) : Prop :=
  ∃ k, f k = k' ∧ m.get? k = some v

/-- Up to `f` on keys, the two maps hold the same entries. -/
def Agree (f : K → K') (m m' : FinMap K V) : Prop := ∀ k' v, m.Reads f k' v ↔ m'.Reads f k' v

theorem NoClash.consistent {f : K → K'} {m : FinMap K V} (h : m.NoClash f) : m.Consistent f := by
  intro k₁ k₂ v₁ v₂ h₁ h₂ hf
  rw [h (mem_keys.mpr ⟨v₁, h₁⟩) (mem_keys.mpr ⟨v₂, h₂⟩) hf, h₂] at h₁
  exact (Option.some.inj h₁).symm

theorem NoClash.insert {f : K → K'} {m : FinMap K V} (h : m.NoClash f) {k : K}
    (hk : ∀ k' ∈ m.keys, f k' = f k → k' = k) (v : V) : (m.insert k v).NoClash f := by
  intro k₁ h₁ k₂ h₂ hf
  rcases mem_keys_insert.mp h₁ with rfl | h₁'
  · rcases mem_keys_insert.mp h₂ with rfl | h₂
    · rfl
    · exact (hk k₂ h₂ hf.symm).symm
  · rcases mem_keys_insert.mp h₂ with rfl | h₂
    · exact hk k₁ h₁' hf
    · exact h h₁' h₂ hf

theorem Consistent.insert {f : K → K'} {m : FinMap K V} (h : m.Consistent f) {k : K} {v : V}
    (hk : ∀ k' v', m.get? k' = some v' → f k' = f k → k' = k ∨ v' = v) :
    (m.insert k v).Consistent f := by
  intro k₁ k₂ v₁ v₂ h₁ h₂ hf
  rw [get?_insert] at h₁ h₂
  split at h₁
  · next heq₁ =>
      cases h₁
      split at h₂
      · cases h₂; rfl
      · next hne₂ =>
          exact ((hk k₂ v₂ h₂ (heq₁ ▸ hf.symm)).resolve_left hne₂).symm
  · next hne₁ =>
      split at h₂
      · next heq₂ =>
          cases h₂
          exact (hk k₁ v₁ h₁ (heq₂ ▸ hf)).resolve_left hne₁
      · exact h k₁ k₂ v₁ v₂ h₁ h₂ hf

theorem Agree.refl (f : K → K') (m : FinMap K V) : m.Agree f m := fun _ _ => Iff.rfl

theorem Agree.symm {f : K → K'} {m m' : FinMap K V} (h : m.Agree f m') : m'.Agree f m :=
  fun k' v => (h k' v).symm

theorem Agree.trans {f : K → K'} {m₁ m₂ m₃ : FinMap K V} (h : m₁.Agree f m₂)
    (h' : m₂.Agree f m₃) : m₁.Agree f m₃ := fun k' v => (h k' v).trans (h' k' v)

/-- After a write that no other key contradicts, its place reads the new value alone. -/
theorem reads_insert {f : K → K'} {m : FinMap K V} {k : K} {v : V}
    (hk : ∀ k' v', m.get? k' = some v' → f k' = f k → k' = k ∨ v' = v) (a : K') (u : V) :
    (m.insert k v).Reads f a u ↔ (f k = a ∧ u = v) ∨ (f k ≠ a ∧ m.Reads f a u) := by
  constructor
  · rintro ⟨k', rfl, hget⟩
    rw [get?_insert] at hget
    split at hget
    · next heq =>
        cases hget
        exact .inl ⟨by rw [heq], rfl⟩
    · next hne =>
        by_cases hf : f k' = f k
        · exact .inl ⟨hf.symm, (hk k' u hget hf).resolve_left hne⟩
        · exact .inr ⟨Ne.symm hf, k', rfl, hget⟩
  · rintro (⟨rfl, rfl⟩ | ⟨hne, k', rfl, hget⟩)
    · exact ⟨k, rfl, get?_insert_self m k u⟩
    · refine ⟨k', rfl, ?_⟩
      rwa [get?_insert_of_ne]
      rintro rfl
      exact hne rfl

/-- The same write keeps two maps in agreement. -/
theorem Agree.insert {f : K → K'} {m m' : FinMap K V} (h : m.Agree f m') {k : K} {v : V}
    (hk : ∀ k' v', m.get? k' = some v' → f k' = f k → k' = k ∨ v' = v)
    (hk' : ∀ k' v', m'.get? k' = some v' → f k' = f k → k' = k ∨ v' = v) :
    (m.insert k v).Agree f (m'.insert k v) := by
  intro a u
  rw [reads_insert hk, reads_insert hk', h a u]

/-- Maps that agree hold the same value under a key that is the only spelling of its place in
both. -/
theorem Agree.get?_eq {f : K → K'} {m m' : FinMap K V} (h : m.Agree f m') {k : K}
    (hk : ∀ k' ∈ m.keys, f k' = f k → k' = k) (hk' : ∀ k' ∈ m'.keys, f k' = f k → k' = k) :
    m.get? k = m'.get? k := by
  ext v
  constructor
  · intro hv
    obtain ⟨k₁, hf, hk₁⟩ := (h (f k) v).mp ⟨k, rfl, hv⟩
    rwa [hk' k₁ (mem_keys.mpr ⟨v, hk₁⟩) hf] at hk₁
  · intro hv
    obtain ⟨k₁, hf, hk₁⟩ := (h (f k) v).mpr ⟨k, rfl, hv⟩
    rwa [hk k₁ (mem_keys.mpr ⟨v, hk₁⟩) hf] at hk₁

end Spelling

/-! ## Copies under new keys -/

section Rekey
variable {K' : Type} [LinearOrder K']

/-- Write the listed entries under the keys `f k`, in order. -/
def rekey (f : K → K') (l : List (K × V)) : FinMap K' V :=
  l.foldl (fun out e => out.insert (f e.1) e.2) ∅

omit [LinearOrder K] in
private theorem get?_foldl_of_not_mem (f : K → K') (k' : K') :
    ∀ (l : List (K × V)) (acc : FinMap K' V), (∀ e ∈ l, f e.1 ≠ k') →
      (l.foldl (fun out e => out.insert (f e.1) e.2) acc).get? k' = acc.get? k' := by
  intro l
  induction l with
  | nil => intro acc _; rfl
  | cons e l ih =>
      intro acc h
      rw [List.foldl_cons, ih _ fun e' he' => h e' (List.mem_cons_of_mem _ he'),
        get?_insert_of_ne _ _ (h e List.mem_cons_self).symm]

omit [LinearOrder K] in
private theorem get?_foldl_of_mem (f : K → K') {k' : K'} {v : V} :
    ∀ (l : List (K × V)) (acc : FinMap K' V), (∃ e ∈ l, f e.1 = k') →
      (∀ e ∈ l, f e.1 = k' → e.2 = v) →
      (l.foldl (fun out e => out.insert (f e.1) e.2) acc).get? k' = some v := by
  intro l
  induction l with
  | nil => rintro acc ⟨e, he, -⟩; cases he
  | cons e l ih =>
      intro acc hmem hval
      have htail : ∀ e' ∈ l, f e'.1 = k' → e'.2 = v :=
        fun e' he' => hval e' (List.mem_cons_of_mem _ he')
      rw [List.foldl_cons]
      by_cases hl : ∃ e' ∈ l, f e'.1 = k'
      · exact ih _ hl htail
      · -- only the head writes there
        obtain ⟨e₁, he₁, hk⟩ := hmem
        have he : e₁ = e := by
          rcases List.mem_cons.mp he₁ with h | h
          · exact h
          · exact absurd ⟨e₁, h, hk⟩ hl
        subst he
        rw [get?_foldl_of_not_mem f k' l _ fun e' he' hk' => hl ⟨e', he', hk'⟩, hk,
          get?_insert_self, hval e₁ List.mem_cons_self hk]

omit [LinearOrder K] in
/-- Keys outside the image stay unwritten. -/
theorem get?_rekey_of_not_mem {f : K → K'} {l : List (K × V)} {k' : K'}
    (h : ∀ e ∈ l, f e.1 ≠ k') : (rekey f l).get? k' = none := by
  rw [rekey, get?_foldl_of_not_mem f k' l ∅ h, get?_empty]

/-- In a consistent map the order of the entries does not matter. -/
theorem get?_rekey_eq_some {f : K → K'} {m : FinMap K V} {l : List (K × V)}
    (hl : l.Perm m.entries) (hf : m.Consistent f) {k' : K'} {v : V} :
    (rekey f l).get? k' = some v ↔ m.Reads f k' v := by
  have hval : ∀ e₁ ∈ l, ∀ e₂ ∈ l, f e₂.1 = f e₁.1 → e₂.2 = e₁.2 := fun e₁ h₁ e₂ h₂ =>
    hf e₂.1 e₁.1 e₂.2 e₁.2 (get?_eq_some.mpr (hl.mem_iff.mp h₂))
      (get?_eq_some.mpr (hl.mem_iff.mp h₁))
  constructor
  · intro h
    by_cases hex : ∃ e ∈ l, f e.1 = k'
    · obtain ⟨e, he, rfl⟩ := hex
      have h₁ := get?_foldl_of_mem f l ∅ ⟨e, he, rfl⟩ (hval e he)
      have hv : e.2 = v := Option.some.inj (h₁.symm.trans h)
      exact ⟨e.1, rfl, get?_eq_some.mpr (hl.mem_iff.mp (hv ▸ he))⟩
    · rw [get?_rekey_of_not_mem fun e he hk => hex ⟨e, he, hk⟩] at h
      cases h
  · rintro ⟨k, rfl, hk⟩
    have he : (k, v) ∈ l := hl.mem_iff.mpr (get?_eq_some.mp hk)
    exact get?_foldl_of_mem f l ∅ ⟨_, he, rfl⟩ (hval _ he)

/-- Consistent maps that agree have the same copy, in any order. -/
theorem rekey_eq_of_agree {f : K → K'} {m m' : FinMap K V} {l l' : List (K × V)}
    (hl : l.Perm m.entries) (hl' : l'.Perm m'.entries) (hf : m.Consistent f)
    (hf' : m'.Consistent f) (h : m.Agree f m') : rekey f l = rekey f l' := by
  ext1 k'
  ext v
  rw [get?_rekey_eq_some hl hf, get?_rekey_eq_some hl' hf']
  exact h k' v

omit [LinearOrder K] in
/-- Every entry of a rekeyed map comes from a listed one. -/
theorem exists_of_get?_rekey {f : K → K'} {l : List (K × V)} {k' : K'} {v : V}
    (h : (rekey f l).get? k' = some v) : ∃ e ∈ l, f e.1 = k' ∧ e.2 = v := by
  have hfold : ∀ (l : List (K × V)) (acc : FinMap K' V),
      (l.foldl (fun out e => out.insert (f e.1) e.2) acc).get? k' = some v →
      (∃ e ∈ l, f e.1 = k' ∧ e.2 = v) ∨ acc.get? k' = some v := by
    intro l
    induction l with
    | nil => exact fun acc h => .inr h
    | cons e l ih =>
        intro acc h
        rcases ih _ h with ⟨e', he', heq⟩ | h
        · exact .inl ⟨e', List.mem_cons_of_mem _ he', heq⟩
        · rw [get?_insert] at h
          split at h
          · next hk => exact .inl ⟨e, List.mem_cons_self, hk.symm, Option.some.inj h⟩
          · exact .inr h
  exact (hfold l ∅ h).resolve_right (by rw [get?_empty]; simp)

omit [LinearOrder K] in
/-- Every key of a rekeyed map is an image. -/
theorem exists_of_mem_keys_rekey {f : K → K'} {l : List (K × V)} {k' : K'}
    (h : k' ∈ (rekey f l).keys) : ∃ e ∈ l, f e.1 = k' := by
  by_contra hne
  obtain ⟨v, hv⟩ := mem_keys.mp h
  rw [get?_rekey_of_not_mem fun e he hk => hne ⟨e, he, hk⟩] at hv
  cases hv

end Rekey

/-- The image of every key is written. -/
theorem mem_keys_rekey {K' : Type} [LinearOrder K'] (f : K → K') {m : FinMap K V}
    {l : List (K × V)} (hl : l.Perm m.entries) {k : K} (h : k ∈ m.keys) :
    f k ∈ (rekey f l).keys := by
  obtain ⟨e, he, rfl⟩ := List.mem_map.mp h
  have hfold : ∀ (l : List (K × V)) (acc : FinMap K' V), (e ∈ l ∨ f e.1 ∈ acc.keys) →
      f e.1 ∈ (l.foldl (fun out e => out.insert (f e.1) e.2) acc).keys := by
    intro l
    induction l with
    | nil => exact fun acc h => h.resolve_left List.not_mem_nil
    | cons e' l ih =>
        intro acc h
        refine ih _ ?_
        rcases h with h | h
        · rcases List.mem_cons.mp h with rfl | h
          · exact .inr (mem_keys_insert.mpr (.inl rfl))
          · exact .inl h
        · exact .inr (mem_keys_insert.mpr (.inr h))
  exact hfold l ∅ (.inl (hl.mem_iff.mpr he))

theorem noClash_of_fixed {f : K → K} {m : FinMap K V} (h : ∀ k ∈ m.keys, f k = k) :
    m.NoClash f := by
  intro k hk k' hk' heq
  rwa [h k hk, h k' hk'] at heq

/-- Rekeying with a function that fixes every key is a copy. -/
theorem rekey_eq_self {f : K → K} {m : FinMap K V} {l : List (K × V)}
    (hl : l.Perm m.entries) (h : ∀ k ∈ m.keys, f k = k) : rekey f l = m := by
  ext1 k
  ext v
  rw [get?_rekey_eq_some hl (noClash_of_fixed h).consistent]
  constructor
  · rintro ⟨k₁, hk, hv⟩
    rwa [← hk, h k₁ (mem_keys.mpr ⟨v, hv⟩)]
  · intro hv
    exact ⟨k, h k (mem_keys.mpr ⟨v, hv⟩), hv⟩

/-- The keys of a copy are fixed when `f` is idempotent. -/
theorem fixed_of_mem_keys_rekey {f : K → K} (hf : ∀ k, f (f k) = f k) {l : List (K × V)} {k : K}
    (h : k ∈ (rekey f l).keys) : f k = k := by
  obtain ⟨e, -, rfl⟩ := exists_of_mem_keys_rekey h
  exact hf e.1

/-- A consistent map agrees with its copy. -/
theorem Consistent.agree_rekey {f : K → K} (hf : ∀ k, f (f k) = f k) {m : FinMap K V}
    {l : List (K × V)} (hl : l.Perm m.entries) (h : m.Consistent f) : m.Agree f (rekey f l) := by
  intro k' v
  constructor
  · rintro ⟨k, rfl, hk⟩
    exact ⟨f k, hf k, (get?_rekey_eq_some hl h).mpr ⟨k, rfl, hk⟩⟩
  · rintro ⟨k₁, rfl, hk₁⟩
    obtain ⟨k, rfl, hk⟩ := (get?_rekey_eq_some hl h).mp hk₁
    exact ⟨k, (hf k).symm, hk⟩

/-- Maps under fixed keys that agree are equal. -/
theorem Agree.eq_of_fixed {f : K → K} {m m' : FinMap K V} (h : m.Agree f m')
    (hm : ∀ k ∈ m.keys, f k = k) (hm' : ∀ k ∈ m'.keys, f k = k) : m = m' := by
  rw [← rekey_eq_self (l := m.entries) (List.Perm.refl _) hm,
    ← rekey_eq_self (l := m'.entries) (List.Perm.refl _) hm']
  exact rekey_eq_of_agree (List.Perm.refl _) (List.Perm.refl _) (noClash_of_fixed hm).consistent
    (noClash_of_fixed hm').consistent h

/-! ## Sums over a map -/

section Total
variable {M : Type} [AddCommGroup M]

/-- The sum of `f` over the stored values. -/
def total (f : V → M) (m : FinMap K V) : M := (m.entries.map fun e => f e.2).sum

/-- A write replaces the old summand of its key by the new one. -/
theorem total_insert (f : V → M) (m : FinMap K V) (k : K) (v : V) :
    (m.insert k v).total f = m.total f - ((m.get? k).map f).getD 0 + f v := by
  have hsplit : ∀ l : List (K × V), l.Pairwise (fun a b => a.1 < b.1) →
      (l.map fun e => f e.2).sum = ((l.filter (·.1 < k)).map fun e => f e.2).sum +
        (((l.find? (·.1 = k)).map Prod.snd).map f).getD 0 +
        ((l.filter (k < ·.1)).map fun e => f e.2).sum := by
    intro l
    induction l with
    | nil => simp
    | cons e l ih =>
        intro hs
        obtain ⟨hhead, htail⟩ := List.pairwise_cons.mp hs
        rcases lt_trichotomy e.1 k with hlt | heq | hgt
        · simp [ih htail, hlt, hlt.ne, hlt.le, add_assoc]
        · have hl : l.filter (·.1 < k) = [] := by
            simp only [List.filter_eq_nil_iff, decide_eq_true_eq, not_lt]
            intro e' he'
            exact heq ▸ (hhead e' he').le
          have hg : l.filter (k < ·.1) = l := by
            simp only [List.filter_eq_self, decide_eq_true_eq]
            intro e' he'
            exact heq ▸ hhead e' he'
          simp [heq, hl, hg]
        · have hl : l.filter (·.1 < k) = [] := by
            simp only [List.filter_eq_nil_iff, decide_eq_true_eq, not_lt]
            intro e' he'
            exact (hgt.trans (hhead e' he')).le
          have hf : l.find? (·.1 = k) = none := by
            simp only [List.find?_eq_none, decide_eq_true_eq]
            intro e' he'
            exact (hgt.trans (hhead e' he')).ne'
          have hg : l.filter (k < ·.1) = l := by
            simp only [List.filter_eq_self, decide_eq_true_eq]
            intro e' he'
            exact hgt.trans (hhead e' he')
          simp [hgt, hgt.ne', hgt.le, hl, hf, hg]
  rw [total, total, hsplit m.entries m.sorted, insert]
  simp only [List.map_append, List.map_cons, List.sum_append, List.sum_cons, get?]
  abel

/-- Entries that go to different keys keep their sum. -/
theorem total_rekey {K' : Type} [LinearOrder K'] (f : V → M) {g : K → K'} {m : FinMap K V}
    {l : List (K × V)} (hl : l.Perm m.entries) (hg : m.NoClash g) :
    (rekey g l).total f = m.total f := by
  have hfold : ∀ (l : List (K × V)) (acc : FinMap K' V), (l.map fun e => g e.1).Nodup →
      (∀ e ∈ l, g e.1 ∉ acc.keys) →
      (l.foldl (fun out e => out.insert (g e.1) e.2) acc).total f =
        acc.total f + (l.map fun e => f e.2).sum := by
    intro l
    induction l with
    | nil => simp
    | cons e l ih =>
        intro acc hnodup hnew
        rw [List.map_cons, List.nodup_cons] at hnodup
        rw [List.foldl_cons, ih _ hnodup.2, total_insert,
          get?_eq_none.mpr (hnew e List.mem_cons_self), List.map_cons, List.sum_cons]
        · simp [add_assoc]
        · intro e' he' hmem
          rcases mem_keys_insert.mp hmem with heq | hmem
          · exact hnodup.1 (List.mem_map.mpr ⟨e', he', heq⟩)
          · exact hnew e' (List.mem_cons_of_mem _ he') hmem
  have hkeys : ((m.entries.map Prod.fst).map g).Nodup := m.nodup_keys.map_on fun k hk k' hk' =>
    hg hk hk'
  rw [List.map_map] at hkeys
  rw [rekey, hfold l ∅ ((hl.map _).nodup_iff.mpr hkeys) fun e _ hmem => by cases hmem]
  rw [(hl.map _).sum_eq]
  show 0 + m.total f = m.total f
  rw [zero_add]

end Total

end FinMap

end BhtBhte.Lib
