import Mathlib.Algebra.BigOperators.Group.List.Basic
import Mathlib.Algebra.Order.Ring.Nat
import Mathlib.Data.List.Chain
import Mathlib.Data.List.Nodup
import Mathlib.Tactic.Common

/-!
# Breadth-first search for a path

A queue of paths, a list of visited vertices, and a vertex that is visited when its path leaves the
queue.  The paths in the queue have at most two lengths, shorter ones first, so the first path that
reaches the goal is a shortest one.  Every walk to a vertex that is not visited yet still has to
pass through the queue (`SearchInv.frontier`): when the queue runs empty there is none.
`searchLoop_spec`: with fuel for every edge the search answers with a shortest walk, or there is
none.

## Main definitions

* `Walk R s t p` — a walk from `s` to `t` along `R`.
* `searchLoop` — the search, with fuel.
-/
namespace BhtBhte.Lib

variable {α : Type*}

/-- A list of vertices that starts at `s`, ends at `t` and follows `R`. -/
structure Walk (R : α → α → Prop) (s t : α) (p : List α) : Prop where
  head : p.head? = some s
  last : p.getLast? = some t
  chain : p.IsChain R

/-- A walk goes on by one vertex. -/
theorem Walk.concat {R : α → α → Prop} {s t u : α} {p : List α} (h : Walk R s t p)
    (hR : R t u) : Walk R s u (p ++ [u]) where
  head := by
    rw [List.head?_append, h.head]
    rfl
  last := List.getLast?_concat
  chain := by
    refine h.chain.append (List.isChain_singleton u) fun x hx y hy => ?_
    rw [h.last] at hx
    cases hx
    cases hy
    exact hR

/-- A walk from a vertex that leads nowhere stays there. -/
theorem Walk.eq_of_stuck {R : α → α → Prop} {s t : α} {p : List α} (h : Walk R s t p)
    (hs : ∀ b, ¬ R s b) : s = t := by
  obtain ⟨hhead, hlast, hchain⟩ := h
  cases p with
  | nil => cases hhead
  | cons a p =>
      obtain rfl : a = s := Option.some.inj hhead
      cases p with
      | nil => exact Option.some.inj hlast
      | cons b p => exact absurd (List.isChain_cons_cons.mp hchain).1 (hs b)

/-- A list that begins inside a set and ends outside leaves it somewhere. -/
theorem exists_leaving (V : α → Prop) {a b : α} {l : List α} (ha : V a)
    (hlast : (a :: l).getLast? = some b) (hb : ¬ V b) :
    ∃ l₁ v c l₂, a :: l = l₁ ++ v :: c :: l₂ ∧ V v ∧ ¬ V c := by
  induction l generalizing a with
  | nil =>
      cases hlast
      exact absurd ha hb
  | cons c l ih =>
      by_cases hc : V c
      · have hlast' : (c :: l).getLast? = some b := by
          rwa [List.getLast?_cons_cons] at hlast
        obtain ⟨l₁, v, d, l₂, heq, hv, hd⟩ := ih hc hlast'
        exact ⟨a :: l₁, v, d, l₂, by rw [heq]; rfl, hv, hd⟩
      · exact ⟨[], a, c, l, rfl, ha, hc⟩

variable [DecidableEq α]

/-- The entries that a vertex adds to the queue. -/
def expand (next : α → List α) (visited : List α) (a : α) (p : List α) : List (α × List α) :=
  ((next a).filter (· ∉ a :: visited)).map fun b => (b, p ++ [b])

/-- The search loop: the first path in the queue is taken off, and unless its vertex was
visited before, the neighbours that are not visited go to the end of the queue. -/
def searchLoop (next : α → List α) (goal : α) :
    ℕ → List α → List (α × List α) → Option (List α)
  | 0, _, _ => none
  | _ + 1, _, [] => none
  | fuel + 1, visited, (a, p) :: queue =>
    if a ∈ visited then searchLoop next goal fuel visited queue
    else if a = goal then some p
    else searchLoop next goal fuel (a :: visited) (queue ++ expand next visited a p)

/-! ## The invariant -/

/-- `L` is the length of the path that was taken off last. -/
structure SearchInv (next : α → List α) (s goal : α) (visited : List α)
    (queue : List (α × List α)) (L : ℕ) : Prop where
  notGoal : goal ∉ visited
  paths : ∀ e ∈ queue, Walk (fun a b => b ∈ next a) s e.1 e.2 ∧
    ∃ p, e.2 = p ++ [e.1] ∧ p.Nodup ∧ p ⊆ visited
  sorted : queue.Pairwise fun e e' => e.2.length ≤ e'.2.length
  lengths : ∀ e ∈ queue, L ≤ e.2.length ∧ e.2.length ≤ L + 1
  neighbours : ∀ v ∈ visited, ∀ b ∈ next v, b ∉ visited → ∃ p, (b, p) ∈ queue
  frontier : ∀ t p, Walk (fun a b => b ∈ next a) s t p → t ∉ visited →
    ∃ a q p₁ p₂, (a, q) ∈ queue ∧ a ∉ visited ∧ p = p₁ ++ a :: p₂ ∧ q.length ≤ p₁.length + 1

namespace SearchInv
variable {next : α → List α} {s goal a : α} {visited p : List α} {queue : List (α × List α)}
  {L : ℕ}

omit [DecidableEq α] in
theorem start (next : α → List α) (s goal : α) : SearchInv next s goal [] [(s, [s])] 1 where
  notGoal := List.not_mem_nil
  paths := by
    intro e he
    rw [List.mem_singleton.mp he]
    exact ⟨⟨rfl, rfl, List.isChain_singleton s⟩, [], rfl, List.nodup_nil, List.nil_subset _⟩
  sorted := List.pairwise_singleton ..
  lengths := by
    intro e he
    rw [List.mem_singleton.mp he]
    exact ⟨Nat.le_refl 1, Nat.le_succ 1⟩
  neighbours := by
    intro v hv
    cases hv
  frontier := by
    intro t p hp _
    cases p with
    | nil => cases hp.head
    | cons b p =>
        have hb : b = s := by simpa using hp.head
        subst hb
        exact ⟨b, [b], [], p, List.mem_singleton_self _, List.not_mem_nil, rfl, Nat.le_refl 1⟩

omit [DecidableEq α] in
/-- An entry for a visited vertex is dropped. -/
theorem drop (h : SearchInv next s goal visited ((a, p) :: queue) L) (ha : a ∈ visited) :
    SearchInv next s goal visited queue L where
  notGoal := h.notGoal
  paths e he := h.paths e (List.mem_cons_of_mem _ he)
  sorted := (List.pairwise_cons.mp h.sorted).2
  lengths e he := h.lengths e (List.mem_cons_of_mem _ he)
  neighbours := by
    intro v hv b hb hnew
    obtain ⟨q, hq⟩ := h.neighbours v hv b hb hnew
    rcases List.mem_cons.mp hq with heq | hq
    · cases heq
      exact absurd ha hnew
    · exact ⟨q, hq⟩
  frontier := by
    intro t π hπ ht
    obtain ⟨c, q, p₁, p₂, hq, hc, heq, hle⟩ := h.frontier t π hπ ht
    rcases List.mem_cons.mp hq with hhead | hq
    · cases hhead
      exact absurd ha hc
    · exact ⟨c, q, p₁, p₂, hq, hc, heq, hle⟩

theorem mem_expand {b : α} {q : List α} : (b, q) ∈ expand next visited a p ↔
    (b ∈ next a ∧ b ∉ a :: visited) ∧ q = p ++ [b] := by
  rw [expand, List.mem_map]
  constructor
  · rintro ⟨c, hc, heq⟩
    obtain ⟨rfl, rfl⟩ := Prod.mk.inj heq
    rw [List.mem_filter, decide_eq_true_eq] at hc
    exact ⟨hc, rfl⟩
  · rintro ⟨hb, rfl⟩
    exact ⟨b, List.mem_filter.mpr ⟨hb.1, decide_eq_true hb.2⟩, rfl⟩

omit [DecidableEq α] in
/-- The first path is a shortest one of the queue. -/
theorem head_le (h : SearchInv next s goal visited ((a, p) :: queue) L) {b : α} {q : List α}
    (hmem : (b, q) ∈ (a, p) :: queue) : p.length ≤ q.length := by
  rcases List.mem_cons.mp hmem with hsame | hmem
  · rw [(Prod.mk.inj hsame).2]
  · exact (List.pairwise_cons.mp h.sorted).1 _ hmem

omit [DecidableEq α] in
/-- The first path has no repetition if its vertex is new. -/
theorem nodup_head (h : SearchInv next s goal visited ((a, p) :: queue) L) (ha : a ∉ visited) :
    p.Nodup := by
  obtain ⟨-, p', hp', hnodup, hsubset⟩ := h.paths (a, p) List.mem_cons_self
  dsimp only at hp'
  rw [hp']
  refine List.nodup_append.mpr ⟨hnodup, List.nodup_singleton a, ?_⟩
  rintro x hx y hy rfl
  rw [List.mem_singleton] at hy
  exact ha (hy ▸ hsubset hx)

theorem visit_paths (h : SearchInv next s goal visited ((a, p) :: queue) L) (ha : a ∉ visited) :
    ∀ e ∈ queue ++ expand next visited a p, Walk (fun a b => b ∈ next a) s e.1 e.2 ∧
      ∃ p, e.2 = p ++ [e.1] ∧ p.Nodup ∧ p ⊆ a :: visited := by
  rintro ⟨b, q⟩ he
  rcases List.mem_append.mp he with he | he
  · obtain ⟨hq, q', hq', hnodup, hsubset⟩ := h.paths (b, q) (List.mem_cons_of_mem _ he)
    exact ⟨hq, q', hq', hnodup, List.subset_cons_of_subset _ hsubset⟩
  · obtain ⟨⟨hb, -⟩, rfl⟩ := mem_expand.mp he
    obtain ⟨hwalk, p', hp', -, hsubset⟩ := h.paths (a, p) List.mem_cons_self
    dsimp only at hwalk hp'
    refine ⟨hwalk.concat hb, p, rfl, h.nodup_head ha, ?_⟩
    rw [hp']
    intro x hx
    rcases List.mem_append.mp hx with hx | hx
    · exact List.mem_cons_of_mem _ (hsubset hx)
    · rw [List.mem_singleton.mp hx]
      exact List.mem_cons_self

theorem visit_lengths (h : SearchInv next s goal visited ((a, p) :: queue) L) :
    ∀ e ∈ queue ++ expand next visited a p,
      p.length ≤ e.2.length ∧ e.2.length ≤ p.length + 1 := by
  have hfirst := h.lengths (a, p) List.mem_cons_self
  dsimp only at hfirst
  rintro ⟨b, q⟩ he
  rcases List.mem_append.mp he with he | he
  · have hb := h.lengths (b, q) (List.mem_cons_of_mem _ he)
    dsimp only at hb ⊢
    exact ⟨h.head_le (List.mem_cons_of_mem _ he), by omega⟩
  · obtain ⟨-, rfl⟩ := mem_expand.mp he
    simp

theorem visit_sorted (h : SearchInv next s goal visited ((a, p) :: queue) L) :
    (queue ++ expand next visited a p).Pairwise fun e e' => e.2.length ≤ e'.2.length := by
  refine List.pairwise_append.mpr ⟨(List.pairwise_cons.mp h.sorted).2, ?_, ?_⟩
  · refine List.pairwise_of_forall_mem_list fun e he e' he' => ?_
    obtain ⟨-, heq⟩ := mem_expand.mp he
    obtain ⟨-, heq'⟩ := mem_expand.mp he'
    rw [heq, heq', List.length_append, List.length_append]
    exact Nat.le_refl _
  · intro e he e' he'
    obtain ⟨-, heq'⟩ := mem_expand.mp he'
    have hle := (h.visit_lengths e (List.mem_append_left _ he)).2
    rw [heq', List.length_append]
    exact hle

theorem visit_neighbours (h : SearchInv next s goal visited ((a, p) :: queue) L) :
    ∀ v ∈ a :: visited, ∀ b ∈ next v, b ∉ a :: visited →
      ∃ q, (b, q) ∈ queue ++ expand next visited a p := by
  intro v hv b hb hnew
  rcases List.mem_cons.mp hv with rfl | hv
  · exact ⟨p ++ [b], List.mem_append_right _ (mem_expand.mpr ⟨⟨hb, hnew⟩, rfl⟩)⟩
  · obtain ⟨q, hq⟩ := h.neighbours v hv b hb fun hmem => hnew (List.mem_cons_of_mem _ hmem)
    rcases List.mem_cons.mp hq with heq | hq
    · cases heq
      exact absurd List.mem_cons_self hnew
    · exact ⟨q, List.mem_append_left _ hq⟩

/-- A walk from a visited vertex to a new one passes a vertex of the queue. -/
theorem visit_leaves (h : SearchInv next s goal visited ((a, p) :: queue) L) {t : α}
    {π p₁ p₂ : List α} (hπ : Walk (fun a b => b ∈ next a) s t π) (ht : t ∉ a :: visited)
    (heq : π = p₁ ++ a :: p₂) (hle : p.length ≤ p₁.length + 1) :
    ∃ c q p₁ p₂, (c, q) ∈ queue ++ expand next visited a p ∧ c ∉ a :: visited ∧
      π = p₁ ++ c :: p₂ ∧ q.length ≤ p₁.length + 1 := by
  have hlast : (a :: p₂).getLast? = some t := by
    have := hπ.last
    rwa [heq, List.getLast?_append_of_ne_nil _ (List.cons_ne_nil _ _)] at this
  obtain ⟨l₁, v, d, l₂, hsplit, hv, hd⟩ :=
    exists_leaving (· ∈ a :: visited) List.mem_cons_self hlast ht
  have hedge : d ∈ next v := by
    have hchain := hπ.chain
    rw [heq, hsplit, List.isChain_append] at hchain
    exact (List.isChain_cons_cons.mp (List.isChain_append.mp hchain.2.1).2.1).1
  obtain ⟨r, hr⟩ := h.visit_neighbours v hv d hedge hd
  have hlen : r.length ≤ p.length + 1 := (h.visit_lengths _ hr).2
  refine ⟨d, r, p₁ ++ l₁ ++ [v], l₂, hr, hd, ?_, ?_⟩
  · rw [heq, hsplit]
    simp
  · simp only [List.length_append, List.length_singleton]
    omega

theorem visit_frontier (h : SearchInv next s goal visited ((a, p) :: queue) L) :
    ∀ t π, Walk (fun a b => b ∈ next a) s t π → t ∉ a :: visited →
      ∃ c q p₁ p₂, (c, q) ∈ queue ++ expand next visited a p ∧ c ∉ a :: visited ∧
        π = p₁ ++ c :: p₂ ∧ q.length ≤ p₁.length + 1 := by
  intro t π hπ ht
  have ht' : t ∉ visited := fun hmem => ht (List.mem_cons_of_mem _ hmem)
  obtain ⟨c, q, p₁, p₂, hq, hc, heq, hle⟩ := h.frontier t π hπ ht'
  by_cases hca : c = a
  · -- the walk goes through `a`, and leaves the visited vertices somewhere behind it
    subst hca
    exact h.visit_leaves hπ ht heq ((h.head_le hq).trans hle)
  · refine ⟨c, q, p₁, p₂, List.mem_append_left _ ?_, ?_, heq, hle⟩
    · rcases List.mem_cons.mp hq with hsame | hq
      · exact absurd (Prod.mk.inj hsame).1 hca
      · exact hq
    · intro hmem
      rcases List.mem_cons.mp hmem with hmem | hmem
      · exact hca hmem
      · exact hc hmem

/-- A vertex is visited and its neighbours go to the end of the queue. -/
theorem visit (h : SearchInv next s goal visited ((a, p) :: queue) L) (ha : a ∉ visited)
    (hgoal : a ≠ goal) :
    SearchInv next s goal (a :: visited) (queue ++ expand next visited a p) p.length where
  notGoal := by
    intro hmem
    rcases List.mem_cons.mp hmem with heq | hmem
    · exact hgoal heq.symm
    · exact h.notGoal hmem
  paths := h.visit_paths ha
  sorted := h.visit_sorted
  lengths := h.visit_lengths
  neighbours := h.visit_neighbours
  frontier := h.visit_frontier

omit [DecidableEq α] in
/-- When the goal comes up, its path is a walk without repetition, and no walk is shorter. -/
theorem found (h : SearchInv next s goal visited ((goal, p) :: queue) L) :
    Walk (fun a b => b ∈ next a) s goal p ∧ p.Nodup ∧
      ∀ q, Walk (fun a b => b ∈ next a) s goal q → p.length ≤ q.length := by
  refine ⟨(h.paths (goal, p) List.mem_cons_self).1, h.nodup_head h.notGoal, ?_⟩
  intro q hq
  obtain ⟨c, r, p₁, p₂, hr, -, heq, hle⟩ := h.frontier goal q hq h.notGoal
  have hpr := h.head_le hr
  rw [heq, List.length_append, List.length_cons]
  omega

end SearchInv

/-! ## Fuel -/

/-- The entries still to come off the queue: those in it, and the neighbours of the vertices
that are not visited. -/
def searchCost (next : α → List α) (nodes visited : List α) (queue : List (α × List α)) : ℕ :=
  queue.length + ((nodes.filter (· ∉ visited)).map fun a => (next a).length).sum

/-- At the start every neighbour is still to come. -/
theorem searchCost_start (next : α → List α) (nodes : List α) (s : α) :
    searchCost next nodes [] [(s, [s])] = 1 + (nodes.map fun a => (next a).length).sum := by
  have hall : nodes.filter (· ∉ []) = nodes :=
    List.filter_eq_self.mpr fun a _ => decide_eq_true List.not_mem_nil
  rw [searchCost, hall, List.length_singleton]

section Cost
variable {next : α → List α} {nodes : List α} {a : α}

theorem sum_visit (hnodup : nodes.Nodup) (visited : List α) (ha : a ∈ nodes)
    (hnew : a ∉ visited) (f : α → ℕ) :
    ((nodes.filter (· ∉ a :: visited)).map f).sum + f a =
      ((nodes.filter (· ∉ visited)).map f).sum := by
  have hmem : a ∈ nodes.filter (· ∉ visited) := List.mem_filter.mpr ⟨ha, decide_eq_true hnew⟩
  have hperm := (List.perm_cons_erase hmem).map f
  have herase : nodes.filter (· ∉ a :: visited) = (nodes.filter (· ∉ visited)).erase a := by
    rw [(hnodup.filter _).erase_eq_filter, List.filter_filter]
    refine List.filter_congr fun b _ => ?_
    by_cases hb : b = a <;> simp [hb]
  rw [herase, hperm.sum_eq, List.map_cons, List.sum_cons, Nat.add_comm]

/-- A visit costs one entry and pays for the neighbours it adds. -/
theorem searchCost_visit (hnodup : nodes.Nodup) (hnext : ∀ a ∉ nodes, next a = [])
    {visited p : List α} {queue : List (α × List α)} (hnew : a ∉ visited) :
    searchCost next nodes (a :: visited) (queue ++ expand next visited a p) + 1 ≤
      searchCost next nodes visited ((a, p) :: queue) := by
  have hexpand : (expand next visited a p).length ≤ (next a).length := by
    rw [expand, List.length_map]
    exact List.length_filter_le _ _
  unfold searchCost
  rw [List.length_append, List.length_cons]
  by_cases ha : a ∈ nodes
  · have hsum := sum_visit hnodup visited ha hnew fun b => (next b).length
    omega
  · have hsame : nodes.filter (· ∉ a :: visited) = nodes.filter (· ∉ visited) := by
      refine List.filter_congr fun b hb => ?_
      have hne : b ≠ a := fun heq => ha (heq ▸ hb)
      simp [hne]
    rw [hnext a ha, List.length_nil] at hexpand
    rw [hsame]
    omega

end Cost

/-- **With fuel for every entry the search finds a shortest walk, and if it finds none, there
is none.** -/
theorem searchLoop_spec {next : α → List α} {s goal : α} {nodes : List α}
    (hnodup : nodes.Nodup) (hnext : ∀ a ∉ nodes, next a = []) :
    ∀ {fuel : ℕ} {visited : List α} {queue : List (α × List α)} {L : ℕ},
      SearchInv next s goal visited queue L → searchCost next nodes visited queue < fuel →
      (∀ p, searchLoop next goal fuel visited queue = some p →
        Walk (fun a b => b ∈ next a) s goal p ∧ p.Nodup ∧
          ∀ q, Walk (fun a b => b ∈ next a) s goal q → p.length ≤ q.length) ∧
      (searchLoop next goal fuel visited queue = none →
        ∀ q, ¬ Walk (fun a b => b ∈ next a) s goal q) := by
  intro fuel
  induction fuel with
  | zero =>
      intro visited queue L _ hfuel
      omega
  | succ fuel ih =>
      intro visited queue L hinv hfuel
      cases queue with
      | nil =>
          refine ⟨fun p hp => by simp [searchLoop] at hp, fun _ q hq => ?_⟩
          obtain ⟨c, r, -, -, hr, -⟩ := hinv.frontier goal q hq hinv.notGoal
          cases hr
      | cons e queue =>
          obtain ⟨a, p⟩ := e
          rw [searchLoop]
          by_cases ha : a ∈ visited
          · rw [if_pos ha]
            refine ih (hinv.drop ha) ?_
            simp only [searchCost, List.length_cons] at hfuel ⊢
            omega
          rw [if_neg ha]
          by_cases hgoal : a = goal
          · rw [if_pos hgoal]
            subst hgoal
            refine ⟨fun q hq => ?_, fun hq => by cases hq⟩
            rw [← Option.some.inj hq]
            exact hinv.found
          · rw [if_neg hgoal]
            have hcost := @searchCost_visit _ _ next nodes a hnodup hnext visited p queue ha
            exact ih (hinv.visit ha hgoal) (by omega)

end BhtBhte.Lib
