import BhtBhte.Network.Routing

/-!
# Shortest paths

The queue of `dijkstraPath` holds a node as often as it was seen before it was taken off, so the
loop is bounded by the entries of the lists and not by the nodes.  Whatever the topology, it ends
within as many rounds as there are entries, with a path of fewest hops along the lists.
-/
namespace BhtBhte.Topology

open BhtBhte.Lib
open BhtBhte.Channel (Hash Address)

variable {nt : NetworkTopology} {a b : Address} {amount : UInt64}

/-- A node lists a channel that has the amount available, and takes `b` for its other end. -/
def NetworkTopology.Hop (nt : NetworkTopology) (amount : UInt64) (a b : Address) : Prop :=
  ∃ node id ch, nt.nodes.get? a = some node ∧ id ∈ node.channels ∧
    nt.channels.get? id = some ch ∧ amount ≤ ch.available ∧ ch.neighbor a = b

theorem mem_next_iff_hop : b ∈ nt.next amount a ↔ nt.Hop amount a b := by
  rw [mem_next, NetworkTopology.listed, NetworkTopology.Hop]
  cases nt.nodes.get? a with
  | none => simp
  | some node => simp

/-- The steps of the search are the hops. -/
theorem next_eq_hop : (fun a b => b ∈ nt.next amount a) = nt.Hop amount := by
  funext a b
  exact propext mem_next_iff_hop

/-! ## Termination -/

theorem next_eq_nil (ha : a ∉ nt.nodes.keys) : nt.next amount a = [] := by
  rw [NetworkTopology.next, NetworkTopology.listed, FinMap.get?_eq_none.mpr ha]
  rfl

/-- The rounds that the loop may still take. -/
def roundsLeft (nt : NetworkTopology) (amount : UInt64) (visited : List Address)
    (heap : List PathState) : ℕ :=
  searchCost (nt.next amount) nt.nodes.keys visited (heap.map fun s => (s.node, s.path))

/-- A visit takes one round and pays for the states it appends. -/
theorem roundsLeft_visit {visited : List Address} {current : PathState} {heap : List PathState}
    (hnew : current.node ∉ visited) :
    roundsLeft nt amount (current.node :: visited)
        (heap ++ extend nt amount (current.node :: visited) current) <
      roundsLeft nt amount visited (current :: heap) := by
  unfold roundsLeft
  rw [List.map_append, map_extend, List.map_cons]
  exact searchCost_visit nt.nodes.nodup_keys (fun _ => next_eq_nil) hnew

/-- **With more rounds than are left the loop ends**, and the fuel of `dijkstraLoop` is one that
suffices. -/
theorem dijkstraRounds_eq (receiver : Address) {fuel : ℕ} : ∀ {rounds : ℕ} {visited heap},
    roundsLeft nt amount visited heap < fuel → roundsLeft nt amount visited heap < rounds →
      dijkstraRounds nt receiver amount rounds visited heap =
        some (dijkstraLoop nt receiver amount fuel visited heap) := by
  induction fuel with
  | zero =>
      intro rounds visited heap hfuel
      omega
  | succ fuel ih =>
      intro rounds visited heap hfuel hrounds
      obtain ⟨rounds, rfl⟩ := Nat.exists_eq_succ_of_ne_zero (show rounds ≠ 0 by omega)
      cases heap with
      | nil => rfl
      | cons current heap =>
          rw [dijkstraRounds, dijkstraLoop]
          by_cases hvisited : current.node ∈ visited
          · rw [if_pos hvisited, if_pos hvisited]
            have hdrop : roundsLeft nt amount visited (current :: heap) =
                roundsLeft nt amount visited heap + 1 := by
              simp only [roundsLeft, searchCost, List.map_cons, List.length_cons]
              omega
            exact ih (by omega) (by omega)
          · rw [if_neg hvisited, if_neg hvisited]
            by_cases hreceiver : current.node = receiver
            · rw [if_pos hreceiver, if_pos hreceiver]
            · rw [if_neg hreceiver, if_neg hreceiver]
              have hvisit := @roundsLeft_visit nt amount visited current heap hvisited
              exact ih (by omega) (by omega)

/-! ## Minimality -/

/-- **`dijkstraPath` ends, returns a path of fewest hops along the lists of the nodes, and returns
none exactly when the receiver cannot be reached.** -/
theorem dijkstraPath_shortest (nt : NetworkTopology) (sender receiver : Address)
    (amount : UInt64) :
    (∃ n, ∀ rounds ≥ n, dijkstraRounds nt receiver amount rounds [] [⟨sender, [sender], amount⟩] =
      some (dijkstraPath nt sender receiver amount)) ∧
    (dijkstraPath nt sender receiver amount ≠ [] →
      Walk (nt.Hop amount) sender receiver (dijkstraPath nt sender receiver amount)) ∧
    (∀ path, Walk (nt.Hop amount) sender receiver path →
      (dijkstraPath nt sender receiver amount).length ≤ path.length) ∧
    (dijkstraPath nt sender receiver amount = [] ↔
      ¬ ∃ path, Walk (nt.Hop amount) sender receiver path) := by
  obtain ⟨hfound, hshortest⟩ := @dijkstraPath_spec nt amount sender receiver
  rw [next_eq_hop] at hfound hshortest
  have hcost : roundsLeft nt amount [] [⟨sender, [sender], amount⟩] < pathFuel nt :=
    searchCost_lt_pathFuel sender
  refine ⟨⟨pathFuel nt, fun rounds hrounds => ?_⟩, fun hne => (hshortest hne).1, ?_, ?_⟩
  · exact dijkstraRounds_eq receiver hcost (lt_of_lt_of_le hcost hrounds)
  · intro path hpath
    exact (hshortest (hfound path hpath)).2.2 path hpath
  · constructor
    · rintro hnil ⟨path, hpath⟩
      exact hfound path hpath hnil
    · intro hnone
      by_contra hne
      exact hnone ⟨_, (hshortest hne).1⟩

end BhtBhte.Topology
