import Mathlib.Data.List.Basic
import Mathlib.Tactic.Common

/-!
# Walking up a Merkle tree

A verifier of a Merkle branch starts from a value and hashes it with one sibling per
level, left or right of it by the parity of an index.  The walk knows neither the shape
nor the height of the tree it is compared with.

The compression function is a parameter.  It cannot be injective on a finite type, so soundness asks
only that the pairs hashed by the tree and by the walk do not collide.  Then a walk that ends in the
root started at the subtree its path leads to, or went through a leaf and came from below it
(`MerkleTree.of_walk_eq_root`).

## Main definitions

* `MerkleTree` — a binary tree of any shape, its `root`, its `leaves` and the `pairs`
  it hashes.
* `walk`, `walkPairs` — the verifier's loop and the pairs it hashes.
* `MerkleTree.descend` — the subtree at a path; `branchPath` is the path a walk climbs.
-/
namespace BhtBhte.Lib

variable {α : Type}

/-- A binary tree with values at its leaves. -/
inductive MerkleTree (α : Type) where
  | leaf (a : α)
  | node (l r : MerkleTree α)

namespace MerkleTree

/-- The leaves from left to right. -/
def leaves : MerkleTree α → List α
  | leaf a => [a]
  | node l r => l.leaves ++ r.leaves

/-- The subtree at a path from the root; `true` goes right. -/
def descend : MerkleTree α → List Bool → Option (MerkleTree α)
  | t, [] => some t
  | leaf _, _ :: _ => none
  | node l r, right :: path => (if right then r else l).descend path

variable (h : α → α → α)

/-- The root of a tree. -/
def root : MerkleTree α → α
  | leaf a => a
  | node l r => h l.root r.root

/-- The pairs hashed to compute the root. -/
def pairs : MerkleTree α → List (α × α)
  | leaf _ => []
  | node l r => (l.root h, r.root h) :: (l.pairs ++ r.pairs)

end MerkleTree

/-! ## The walk -/

section Walk
variable (h : α → α → α)

/-- The pair hashed at one level. -/
def walkPair (a sibling : α) (index : ℕ) : α × α :=
  if index % 2 = 0 then (a, sibling) else (sibling, a)

/-- The verifier's loop. -/
def walk : α → List α → ℕ → α
  | a, [], _ => a
  | a, s :: siblings, index =>
    walk (h (walkPair a s index).1 (walkPair a s index).2) siblings (index / 2)

/-- The pairs the loop hashes, from the bottom up. -/
def walkPairs : α → List α → ℕ → List (α × α)
  | _, [], _ => []
  | a, s :: siblings, index =>
    walkPair a s index ::
      walkPairs (h (walkPair a s index).1 (walkPair a s index).2) siblings (index / 2)

/-- The path from the root to where a walk of `n` levels started. -/
def branchPath : ℕ → ℕ → List Bool
  | 0, _ => []
  | n + 1, index => branchPath n (index / 2) ++ [index % 2 == 1]

/-- No two different pairs of the list hash alike. -/
def CollisionFree (ps : List (α × α)) : Prop :=
  ∀ p ∈ ps, ∀ q ∈ ps, h p.1 p.2 = h q.1 q.2 → p = q

instance [DecidableEq α] (ps : List (α × α)) : Decidable (CollisionFree h ps) :=
  inferInstanceAs (Decidable (∀ p ∈ ps, ∀ q ∈ ps, h p.1 p.2 = h q.1 q.2 → p = q))

theorem eq_of_walkPair_eq {a b s s' : α} {index : ℕ}
    (heq : walkPair a s index = walkPair b s' index) : a = b ∧ s = s' := by
  rw [walkPair, walkPair] at heq
  split_ifs at heq
  · exact ⟨congrArg Prod.fst heq, congrArg Prod.snd heq⟩
  · exact ⟨congrArg Prod.snd heq, congrArg Prod.fst heq⟩

variable {h}

/-- **Two walks of one length and index that end alike started alike.** -/
theorem start_eq_of_walk_eq {a b : α} {siblings siblings' : List α} {index : ℕ}
    (hfree : CollisionFree h (walkPairs h a siblings index ++ walkPairs h b siblings' index))
    (hlen : siblings.length = siblings'.length)
    (heq : walk h a siblings index = walk h b siblings' index) : a = b := by
  induction siblings generalizing a b siblings' index with
  | nil =>
      cases siblings' with
      | nil => exact heq
      | cons s' siblings' => cases hlen
  | cons s siblings ih =>
      cases siblings' with
      | nil => cases hlen
      | cons s' siblings' =>
          have hfree' : CollisionFree h
              (walkPairs h (h (walkPair a s index).1 (walkPair a s index).2) siblings (index / 2) ++
                walkPairs h (h (walkPair b s' index).1 (walkPair b s' index).2) siblings'
                  (index / 2)) := by
            have hsub : ∀ {p}, p ∈ walkPairs h (h (walkPair a s index).1 (walkPair a s index).2)
                  siblings (index / 2) ++ walkPairs h (h (walkPair b s' index).1
                    (walkPair b s' index).2) siblings' (index / 2) →
                p ∈ walkPairs h a (s :: siblings) index ++ walkPairs h b (s' :: siblings') index := by
              intro p hp
              rcases List.mem_append.mp hp with hp | hp
              · exact List.mem_append_left _ (List.mem_cons_of_mem _ hp)
              · exact List.mem_append_right _ (List.mem_cons_of_mem _ hp)
            exact fun p hp q hq => hfree p (hsub hp) q (hsub hq)
          have hparent := ih hfree' (Nat.succ.inj hlen) heq
          -- The parents are equal, so the pairs they are hashes of are.
          have hpair := hfree _ (List.mem_append_left _ List.mem_cons_self) _
            (List.mem_append_right _ List.mem_cons_self) hparent
          exact (eq_of_walkPair_eq hpair).1

end Walk

namespace MerkleTree
variable {h : α → α → α}

theorem descend_append (t : MerkleTree α) (p q : List Bool) :
    t.descend (p ++ q) = (t.descend p).bind fun s => s.descend q := by
  induction p generalizing t with
  | nil => rfl
  | cons right p ih =>
      cases t with
      | leaf a => rfl
      | node l r => exact ih _

/-- What a tree has from both of its subtrees, it has from every subtree. -/
theorem subset_of_descend {β : Type} {f : MerkleTree α → List β}
    (hleft : ∀ l r, f l ⊆ f (.node l r)) (hright : ∀ l r, f r ⊆ f (.node l r))
    {t s : MerkleTree α} {path : List Bool} (hs : t.descend path = some s) : f s ⊆ f t := by
  induction path generalizing t with
  | nil =>
      cases hs
      exact List.Subset.refl _
  | cons right path ih =>
      cases t with
      | leaf a => cases hs
      | node l r =>
          have hsub := ih hs
          cases right
          · exact List.Subset.trans hsub (hleft l r)
          · exact List.Subset.trans hsub (hright l r)

/-- What a subtree hashes, the tree hashes. -/
theorem pairs_subset_of_descend {t s : MerkleTree α} {path : List Bool}
    (hs : t.descend path = some s) : s.pairs h ⊆ t.pairs h :=
  subset_of_descend (fun _ _ _ hp => List.mem_cons_of_mem _ (List.mem_append_left _ hp))
    (fun _ _ _ hp => List.mem_cons_of_mem _ (List.mem_append_right _ hp)) hs

theorem leaves_subset_of_descend {t s : MerkleTree α} {path : List Bool}
    (hs : t.descend path = some s) : s.leaves ⊆ t.leaves :=
  subset_of_descend (fun _ _ _ ha => List.mem_append_left _ ha)
    (fun _ _ _ ha => List.mem_append_right _ ha) hs

/-- The root of a tree with two subtrees is the hash of one of its pairs. -/
theorem root_node_mem_pairs {t l r : MerkleTree α} {path : List Bool}
    (hs : t.descend path = some (node l r)) : (l.root h, r.root h) ∈ t.pairs h :=
  pairs_subset_of_descend hs List.mem_cons_self

/-- **A walk that ends in the root** started at the subtree its path leads to; or the
path ends above, at a leaf that is the hash of a pair of the walk. -/
theorem of_walk_eq_root {t : MerkleTree α} {a : α} {siblings : List α} {index : ℕ}
    (hfree : CollisionFree h (t.pairs h ++ walkPairs h a siblings index))
    (hroot : walk h a siblings index = t.root h) :
    (∃ s, t.descend (branchPath siblings.length index) = some s ∧ s.root h = a) ∨
      (t.descend (branchPath siblings.length index) = none ∧
        ∃ b ∈ t.leaves, ∃ p ∈ walkPairs h a siblings index, h p.1 p.2 = b) := by
  induction siblings generalizing a index with
  | nil => exact .inl ⟨t, rfl, hroot.symm⟩
  | cons s siblings ih =>
      have hsub : t.pairs h ++ walkPairs h (h (walkPair a s index).1 (walkPair a s index).2)
          siblings (index / 2) ⊆ t.pairs h ++ walkPairs h a (s :: siblings) index := by
        intro p hp
        rcases List.mem_append.mp hp with hp | hp
        · exact List.mem_append_left _ hp
        · exact List.mem_append_right _ (List.mem_cons_of_mem _ hp)
      have hstep := ih (fun p hp q hq => hfree p (hsub hp) q (hsub hq)) hroot
      rw [List.length_cons, branchPath, descend_append]
      rcases hstep with ⟨u, hu, hparent⟩ | ⟨hnone, b, hb, p, hp, hpb⟩
      · rw [hu]
        cases u with
        | leaf b =>
            -- the tree ends here and the walk comes from further down
            refine .inr ⟨rfl, b, leaves_subset_of_descend hu List.mem_cons_self,
              walkPair a s index, List.mem_cons_self, hparent.symm⟩
        | node l r =>
            have hpair : (l.root h, r.root h) = walkPair a s index :=
              hfree _ (List.mem_append_left _ (root_node_mem_pairs hu)) _
                (List.mem_append_right _ List.mem_cons_self) hparent
            rw [walkPair] at hpair
            left
            by_cases hi : index % 2 = 0
            · rw [if_pos hi, Prod.mk.injEq] at hpair
              exact ⟨l, by simp [descend, hi], hpair.1⟩
            · rw [if_neg hi, Prod.mk.injEq] at hpair
              have hodd : index % 2 = 1 := by omega
              exact ⟨r, by simp [descend, hodd], hpair.2⟩
      · exact .inr ⟨by rw [hnone]; rfl, b, hb, p, List.mem_cons_of_mem _ hp, hpb⟩

/-- The path of a walk ends at a leaf: one sibling for each level above that leaf. -/
def SelectsLeaf (t : MerkleTree α) (n index : ℕ) : Prop :=
  ∃ b, t.descend (branchPath n index) = some (leaf b)

/-- A walk of the right length proves a leaf. -/
theorem mem_leaves_of_selectsLeaf {t : MerkleTree α} {a : α} {siblings : List α} {index : ℕ}
    (hfree : CollisionFree h (t.pairs h ++ walkPairs h a siblings index))
    (hroot : walk h a siblings index = t.root h) (hsel : t.SelectsLeaf siblings.length index) :
    a ∈ t.leaves := by
  obtain ⟨b, hb⟩ := hsel
  rcases of_walk_eq_root hfree hroot with ⟨s, hs, hsa⟩ | ⟨hnone, -⟩
  · cases hs.symm.trans hb
    exact leaves_subset_of_descend hb (List.mem_singleton.mpr hsa.symm)
  · rw [hnone] at hb
    cases hb

/-- Where no leaf is the hash of a pair, a walk from a leaf has the right length. -/
theorem selectsLeaf_of_mem_leaves {t : MerkleTree α} {a : α} {siblings : List α} {index : ℕ}
    (hfree : CollisionFree h (t.pairs h ++ walkPairs h a siblings index))
    (hroot : walk h a siblings index = t.root h)
    (hapart : ∀ b ∈ t.leaves, ∀ p ∈ t.pairs h ++ walkPairs h a siblings index, h p.1 p.2 ≠ b)
    (ha : a ∈ t.leaves) : t.SelectsLeaf siblings.length index := by
  rcases of_walk_eq_root hfree hroot with ⟨s, hs, hsa⟩ | ⟨-, b, hb, p, hp, hpb⟩
  · cases s with
    | leaf b => exact ⟨b, hs⟩
    | node l r =>
        exact absurd hsa (hapart a ha _ (List.mem_append_left _ (root_node_mem_pairs hs)))
  · exact absurd hpb (hapart b hb p (List.mem_append_right _ hp))

end MerkleTree

end BhtBhte.Lib
