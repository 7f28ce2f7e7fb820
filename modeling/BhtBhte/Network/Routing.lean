import BhtBhte.Lib.Search
import BhtBhte.Network.Topology
import Mathlib.Algebra.Order.BigOperators.Group.List

/-!
# Routing through the channel network

The search reads the lists of channels that the nodes keep, while the channels themselves are in a
map.  `RegisterNode` starts a node with an empty list even if channels lead to it, and `AddChannel`
over an identifier in use leaves it in the lists of the old ends.  Where neither happens the lists
are right about the channels between registered nodes, and the search is a breadth-first search of
that graph.  So there `findPath` answers right (`routesWell_of_run`).
-/
namespace BhtBhte.Topology

open BhtBhte.Lib
open BhtBhte.Channel (Hash Address)

variable {nt : NetworkTopology} {a b : Address} {id : Hash} {amount : UInt64}

/-! ## What a route is -/

/-- There is a node at the address. -/
def NetworkTopology.Registered (nt : NetworkTopology) (a : Address) : Prop :=
  (nt.nodes.get? a).isSome = true

/-- The channel has these two ends, in either order. -/
def NetworkChannel.Joins (ch : NetworkChannel) (a b : Address) : Prop :=
  (ch.node1 = a ∧ ch.node2 = b) ∨ (ch.node1 = b ∧ ch.node2 = a)

/-- A channel in the map joins the two and has the amount available. -/
def NetworkTopology.Linked (nt : NetworkTopology) (amount : UInt64) (a b : Address) : Prop :=
  ∃ id ch, nt.channels.get? id = some ch ∧ amount ≤ ch.available ∧ ch.Joins a b

/-- A path over registered nodes, along channels with the amount available. -/
structure NetworkTopology.IsRoute (nt : NetworkTopology) (amount : UInt64)
    (sender receiver : Address) (path : List Address) : Prop where
  walk : Walk (nt.Linked amount) sender receiver path
  nodup : path.Nodup
  registered : ∀ a ∈ path, nt.Registered a

/-- `findPath` returns a path when there is a route of at most `maxHops + 2` nodes and only
then, and what it returns is a route. -/
def NetworkTopology.RoutesWell (nt : NetworkTopology) : Prop :=
  ∀ sender receiver amount,
    ((∃ path, findPath nt sender receiver amount = .ok path) ↔
      ∃ path, nt.IsRoute amount sender receiver path ∧ path.length ≤ maxHops + 2) ∧
    ∀ path, findPath nt sender receiver amount = .ok path →
      nt.IsRoute amount sender receiver path

/-! ## What a node lists -/

/-- The channels that a node lists. -/
def NetworkTopology.listed (nt : NetworkTopology) (a : Address) : List Hash :=
  match nt.nodes.get? a with
  | none => []
  | some node => node.channels

/-- No channel joins a node that registers to another registered node, and no other node
lists a channel that it would follow to the new one.  When a channel with a registered first
end is added, only its own ends list its identifier. -/
def Op.keepsLists (nt : NetworkTopology) : Op → Prop
  | .registerNode a _ _ _ => ∀ b, nt.Registered b → b ≠ a → ∀ id ch,
      nt.channels.get? id = some ch →
        ¬ ch.Joins a b ∧ (id ∈ nt.listed b → ch.neighbor b ≠ a)
  | .addChannel id node1 node2 _ _ => nt.Registered node1 →
      ∀ c, id ∈ nt.listed c → c = node1 ∨ c = node2
  | .updateChannelCapacity .. => True

/-- Between registered nodes the lists are right about the map of channels. -/
structure NetworkTopology.ListsRight (nt : NetworkTopology) : Prop where
  complete : ∀ a b id ch, nt.Registered a → nt.Registered b → a ≠ b →
    nt.channels.get? id = some ch → ch.Joins a b → id ∈ nt.listed a
  sound : ∀ a b id ch, id ∈ nt.listed a → nt.Registered b →
    nt.channels.get? id = some ch → ch.neighbor a = b → ch.Joins a b

theorem NetworkChannel.Joins.symm {ch : NetworkChannel} (h : ch.Joins a b) : ch.Joins b a :=
  Or.symm h

theorem NetworkChannel.Joins.neighbor {ch : NetworkChannel} (h : ch.Joins a b) :
    ch.neighbor a = b := by
  unfold NetworkChannel.neighbor
  rcases h with ⟨h₁, h₂⟩ | ⟨h₁, h₂⟩
  · rw [if_pos h₁, h₂]
  · split
    · next heq => rw [h₂, ← heq, h₁]
    · exact h₁

/-- An end of a channel is joined to the end it takes for the other one. -/
theorem NetworkChannel.joins_neighbor {ch : NetworkChannel} (h : a = ch.node1 ∨ a = ch.node2) :
    ch.Joins a (ch.neighbor a) := by
  unfold NetworkChannel.neighbor
  split
  · next heq => exact .inl ⟨heq, rfl⟩
  · next hne => exact .inr ⟨rfl, (h.resolve_left (Ne.symm hne)).symm⟩

theorem NetworkTopology.registered_of_listed (h : id ∈ nt.listed a) : nt.Registered a := by
  unfold NetworkTopology.listed at h
  unfold NetworkTopology.Registered
  cases hget : nt.nodes.get? a with
  | none => simp [hget] at h
  | some node => rfl

/-! ## The lists along a run -/

section Lists
variable {node1 node2 : Address} {capacity : UInt64} {clock : Htlc.Clock}

theorem registered_registerNode {publicKey : List UInt8} {region : String} :
    (registerNode a publicKey region clock nt).Registered b ↔ b = a ∨ nt.Registered b := by
  unfold NetworkTopology.Registered registerNode
  by_cases h : b = a
  · simp [h]
  · simp [h, FinMap.get?_insert_of_ne]

theorem listed_registerNode {publicKey : List UInt8} {region : String} :
    (registerNode a publicKey region clock nt).listed b = if b = a then [] else nt.listed b := by
  unfold NetworkTopology.listed registerNode
  by_cases h : b = a
  · simp [h]
  · simp [h, FinMap.get?_insert_of_ne]

theorem registered_addChannel :
    (addChannel id node1 node2 capacity clock nt).Registered b ↔ nt.Registered b := by
  simp only [NetworkTopology.Registered, addChannel, get?_addToNode, Option.isSome_map]

theorem mem_channels_ite {p : Prop} [Decidable p] {node : NetworkNode} {id' : Hash} :
    id' ∈ (if p then node.addChannel id capacity else node).channels ↔
      id' ∈ node.channels ∨ (p ∧ id' = id) := by
  split
  · next hp => simp [NetworkNode.addChannel, hp]
  · next hp => simp [hp]

theorem mem_listed_addChannel {id' : Hash} :
    id' ∈ (addChannel id node1 node2 capacity clock nt).listed b ↔
      id' ∈ nt.listed b ∨ (nt.Registered b ∧ id' = id ∧ (b = node1 ∨ b = node2)) := by
  simp only [NetworkTopology.listed, NetworkTopology.Registered, addChannel, get?_addToNode]
  cases nt.nodes.get? b with
  | none => simp
  | some node =>
      simp only [Option.map_some, mem_channels_ite, Option.isSome_some, true_and]
      constructor
      · rintro ((hold | ⟨h₁, rfl⟩) | ⟨h₂, rfl⟩)
        · exact .inl hold
        · exact .inr ⟨rfl, .inl h₁⟩
        · exact .inr ⟨rfl, .inr h₂⟩
      · rintro (hold | ⟨rfl, h₁ | h₂⟩)
        · exact .inl (.inl hold)
        · exact .inl (.inr ⟨h₁, rfl⟩)
        · exact .inr ⟨h₂, rfl⟩

theorem listsRight_registerNode {publicKey : List UInt8} {region : String}
    (h : nt.ListsRight) (hkeeps : (Op.registerNode a publicKey region clock).keepsLists nt) :
    (registerNode a publicKey region clock nt).ListsRight where
  complete c d id ch hc hd hne hch hjoins := by
    rw [registered_registerNode] at hc hd
    rw [listed_registerNode]
    rcases hc with rfl | hc
    · have hd' := hd.resolve_left hne.symm
      exact absurd hjoins (hkeeps d hd' hne.symm id ch hch).1
    · by_cases hca : c = a
      · subst hca
        have hd' := hd.resolve_left hne.symm
        exact absurd hjoins (hkeeps d hd' hne.symm id ch hch).1
      · rw [if_neg hca]
        rcases hd with rfl | hd
        · exact absurd hjoins.symm (hkeeps c hc hca id ch hch).1
        · exact h.complete c d id ch hc hd hne hch hjoins
  sound c d id ch hlisted hd hch hneighbor := by
    rw [listed_registerNode] at hlisted
    split at hlisted
    · cases hlisted
    · next hca =>
      rcases registered_registerNode.mp hd with rfl | hd
      · have hc := NetworkTopology.registered_of_listed hlisted
        exact absurd hneighbor ((hkeeps c hc hca id ch hch).2 hlisted)
      · exact h.sound c d id ch hlisted hd hch hneighbor

theorem listsRight_addChannel (h : nt.ListsRight)
    (hkeeps : (Op.addChannel id node1 node2 capacity clock).keepsLists nt) :
    (addChannel id node1 node2 capacity clock nt).ListsRight where
  complete c d id' ch hc hd hne hch hjoins := by
    rw [registered_addChannel] at hc hd
    rw [mem_listed_addChannel]
    rw [addChannel, FinMap.get?_insert] at hch
    split at hch
    · next hid =>
      cases hch
      exact .inr ⟨hc, hid, hjoins.elim (fun e => .inl e.1.symm) fun e => .inr e.2.symm⟩
    · exact .inl (h.complete c d id' ch hc hd hne hch hjoins)
  sound c d id' ch hlisted hd hch hneighbor := by
    rw [registered_addChannel] at hd
    rw [mem_listed_addChannel] at hlisted
    rw [addChannel, FinMap.get?_insert] at hch
    split at hch
    · next hid =>
      subst hid
      have hend : c = ch.node1 ∨ c = ch.node2 := by
        cases hch
        rcases hlisted with hold | ⟨-, -, hend⟩
        · by_cases hc : node1 = c
          · exact .inl hc.symm
          · -- a node that is not an end would follow the channel to its first end
            have hfirst : node1 = d := by rwa [NetworkChannel.neighbor, if_neg hc] at hneighbor
            exact hkeeps (hfirst ▸ hd) c hold
        · exact hend
      rw [← hneighbor]
      exact NetworkChannel.joins_neighbor hend
    · next hid =>
      exact h.sound c d id' ch (hlisted.resolve_right fun e => hid e.2.1) hd hch hneighbor

theorem listsRight_updateChannelCapacity (h : nt.ListsRight) {newAvailable : UInt64} :
    (updateChannelCapacity id newAvailable clock nt).ListsRight := by
  unfold updateChannelCapacity
  cases hget : nt.channels.get? id with
  | none => exact h
  | some channel =>
      have hends : ∀ id' ch, (nt.channels.insert id { channel with
          available := newAvailable, lastUpdateTime := clock 0 }).get? id' = some ch →
          ∃ ch₀, nt.channels.get? id' = some ch₀ ∧ ch.node1 = ch₀.node1 ∧
            ch.node2 = ch₀.node2 := by
        intro id' ch hch
        rw [FinMap.get?_insert] at hch
        split at hch
        · next hid =>
          cases hch
          exact ⟨channel, hid ▸ hget, rfl, rfl⟩
        · exact ⟨ch, hch, rfl, rfl⟩
      constructor
      · intro a b id' ch ha hb hne hch hjoins
        obtain ⟨ch₀, hch₀, h₁, h₂⟩ := hends id' ch hch
        rw [NetworkChannel.Joins, h₁, h₂] at hjoins
        exact h.complete a b id' ch₀ ha hb hne hch₀ hjoins
      · intro a b id' ch hlisted hb hch hneighbor
        obtain ⟨ch₀, hch₀, h₁, h₂⟩ := hends id' ch hch
        rw [NetworkChannel.neighbor, h₁, h₂] at hneighbor
        rw [NetworkChannel.Joins, h₁, h₂]
        exact h.sound a b id' ch₀ hlisted hb hch₀ hneighbor

theorem listsRight_exec {op : Op} (h : nt.ListsRight) (hkeeps : op.keepsLists nt) :
    (exec op nt).ListsRight := by
  cases op with
  | registerNode a publicKey region clock => exact listsRight_registerNode h hkeeps
  | addChannel id node1 node2 capacity clock => exact listsRight_addChannel h hkeeps
  | updateChannelCapacity id newAvailable clock => exact listsRight_updateChannelCapacity h

theorem registered_updateChannelCapacity {newAvailable : UInt64} :
    (updateChannelCapacity id newAvailable clock nt).Registered b ↔ nt.Registered b := by
  unfold updateChannelCapacity
  split <;> exact Iff.rfl

theorem listsRight_new : newNetworkTopology.ListsRight where
  complete a b id ch ha := by cases ha
  sound a b id ch hlisted := by cases hlisted

/-- A node is registered once it has registered; nothing takes it away. -/
theorem registered_exec {op : Op} : (exec op nt).Registered a ↔
    nt.Registered a ∨ ∃ publicKey region clock, op = .registerNode a publicKey region clock := by
  cases op with
  | registerNode a' publicKey region clock =>
      rw [exec, registered_registerNode, or_comm]
      refine or_congr Iff.rfl ⟨?_, ?_⟩
      · rintro rfl
        exact ⟨publicKey, region, clock, rfl⟩
      · rintro ⟨_, _, _, heq⟩
        cases heq
        rfl
  | addChannel => simp [exec, registered_addChannel]
  | updateChannelCapacity => simp [exec, registered_updateChannelCapacity]

theorem registered_run {ops : List Op} : (run ops nt).Registered a ↔
    nt.Registered a ∨ ∃ publicKey region clock, .registerNode a publicKey region clock ∈ ops := by
  induction ops generalizing nt with
  | nil => simp [run, runOps]
  | cons op ops ih =>
      have hrun : run (op :: ops) nt = run ops (exec op nt) := rfl
      rw [hrun, ih, registered_exec, or_assoc]
      refine or_congr Iff.rfl ?_
      simp only [List.mem_cons, exists_or, eq_comm (a := op)]

end Lists

/-! ## The search -/

/-- The nodes that a node leads to. -/
def NetworkTopology.next (nt : NetworkTopology) (amount : UInt64) (a : Address) :
    List Address :=
  (nt.listed a).filterMap fun id =>
    match nt.channels.get? id with
    | none => none
    | some ch => if ch.available < amount then none else some (ch.neighbor a)

theorem mem_next : b ∈ nt.next amount a ↔ ∃ id ch, id ∈ nt.listed a ∧
    nt.channels.get? id = some ch ∧ amount ≤ ch.available ∧ ch.neighbor a = b := by
  rw [NetworkTopology.next, List.mem_filterMap]
  constructor
  · rintro ⟨id, hlisted, hsome⟩
    split at hsome
    · cases hsome
    · next ch hch =>
      split at hsome
      · cases hsome
      · next havail =>
        exact ⟨id, ch, hlisted, hch, UInt64.not_lt.mp havail, Option.some.inj hsome⟩
  · rintro ⟨id, ch, hlisted, hch, havail, hneighbor⟩
    refine ⟨id, hlisted, ?_⟩
    rw [hch]
    simp only [UInt64.not_lt.mpr havail, if_false, hneighbor]

/-- What the loop appends is what the search of the library appends. -/
theorem map_extend (visited : List Address) (current : PathState) :
    (extend nt amount (current.node :: visited) current).map (fun s => (s.node, s.path)) =
      expand (nt.next amount) visited current.node current.path := by
  unfold extend expand NetworkTopology.next NetworkTopology.listed
  cases nt.nodes.get? current.node with
  | none => rfl
  | some node =>
      simp only [List.filter_filterMap, List.map_filterMap]
      refine List.filterMap_congr fun id _ => ?_
      cases nt.channels.get? id with
      | none => rfl
      | some ch =>
          by_cases havail : ch.available < amount
          · simp [havail]
          · by_cases hvisited : ch.neighbor current.node ∈ current.node :: visited
            · simp only [havail, if_false, if_pos hvisited, Option.map_none, Option.filter_some,
                decide_not, decide_eq_true hvisited, Bool.not_true, Bool.false_eq_true]
            · simp only [havail, if_false, if_neg hvisited, Option.map_some, Option.filter_some,
                decide_not, decide_eq_false hvisited, Bool.not_false, if_true]

theorem dijkstraLoop_eq (receiver : Address) (fuel : ℕ) : ∀ visited heap,
    dijkstraLoop nt receiver amount fuel visited heap =
      (searchLoop (nt.next amount) receiver fuel visited
        (heap.map fun s => (s.node, s.path))).getD [] := by
  induction fuel with
  | zero => intro visited heap; rfl
  | succ fuel ih =>
      intro visited heap
      cases heap with
      | nil => rfl
      | cons current heap =>
          rw [List.map_cons, dijkstraLoop, searchLoop, ih, ih, List.map_append, map_extend]
          split_ifs <;> rfl

/-- Between registered nodes the search follows the links. -/
theorem mem_next_iff_linked (h : nt.ListsRight) (ha : nt.Registered a) (hb : nt.Registered b)
    (hne : a ≠ b) : b ∈ nt.next amount a ↔ nt.Linked amount a b := by
  rw [mem_next]
  constructor
  · rintro ⟨id, ch, hlisted, hch, havail, hneighbor⟩
    exact ⟨id, ch, hch, havail, h.sound a b id ch hlisted hb hch hneighbor⟩
  · rintro ⟨id, ch, hch, havail, hjoins⟩
    exact ⟨id, ch, h.complete a b id ch ha hb hne hch hjoins, hch, havail, hjoins.neighbor⟩

/-- Only a registered node leads anywhere. -/
theorem registered_of_next (h : b ∈ nt.next amount a) : nt.Registered a := by
  obtain ⟨id, ch, hlisted, -⟩ := mem_next.mp h
  exact NetworkTopology.registered_of_listed hlisted

theorem registered_of_chain : ∀ {path : List Address},
    path.IsChain (fun a b => b ∈ nt.next amount a) → path.getLast? = some b →
      nt.Registered b → ∀ a ∈ path, nt.Registered a
  | [], _, hlast, _ => by cases hlast
  | [a], _, hlast, hb => by
      cases hlast
      rintro c hc
      rwa [List.mem_singleton.mp hc]
  | a :: c :: path, hchain, hlast, hb => by
      rw [List.isChain_cons_cons] at hchain
      rw [List.getLast?_cons_cons] at hlast
      intro d hd
      rcases List.mem_cons.mp hd with rfl | hd
      · exact registered_of_next hchain.1
      · exact registered_of_chain hchain.2 hlast hb d hd

/-- Along a path without repetition over registered nodes, links and steps of the search are
the same. -/
theorem chain_iff (h : nt.ListsRight) {path : List Address} (hnodup : path.Nodup)
    (hregistered : ∀ a ∈ path, nt.Registered a) :
    path.IsChain (fun a b => b ∈ nt.next amount a) ↔ path.IsChain (nt.Linked amount) := by
  induction path with
  | nil => exact iff_of_true List.isChain_nil List.isChain_nil
  | cons a path ih =>
      rw [List.nodup_cons] at hnodup
      have htail := ih hnodup.2 fun b hb => hregistered b (List.mem_cons_of_mem _ hb)
      cases path with
      | nil => exact iff_of_true (List.isChain_singleton a) (List.isChain_singleton a)
      | cons b path =>
          have hne : a ≠ b := fun heq => hnodup.1 (heq ▸ List.mem_cons_self)
          rw [List.isChain_cons_cons, List.isChain_cons_cons, htail,
            mem_next_iff_linked h (hregistered a List.mem_cons_self)
              (hregistered b (List.mem_cons_of_mem _ List.mem_cons_self)) hne]

theorem searchCost_lt_pathFuel (sender : Address) :
    searchCost (nt.next amount) nt.nodes.keys [] [(sender, [sender])] < pathFuel nt := by
  have hle : (nt.nodes.keys.map fun a => (nt.next amount a).length).sum ≤
      (nt.nodes.entries.map fun e => e.2.channels.length).sum := by
    rw [FinMap.keys, List.map_map]
    refine List.sum_le_sum fun e he => ?_
    have hget : nt.nodes.get? e.1 = some e.2 := FinMap.get?_eq_some.mpr he
    calc (nt.next amount e.1).length ≤ (nt.listed e.1).length := List.length_filterMap_le _ _
      _ = e.2.channels.length := by rw [NetworkTopology.listed, hget]
  rw [searchCost_start, pathFuel]
  omega

/-- **The loop of `dijkstraPath` finds a shortest path along the lists, or there is none.** -/
theorem dijkstraPath_spec (sender receiver : Address) :
    (∀ q, Walk (fun a b => b ∈ nt.next amount a) sender receiver q →
      dijkstraPath nt sender receiver amount ≠ []) ∧
    (dijkstraPath nt sender receiver amount ≠ [] →
      Walk (fun a b => b ∈ nt.next amount a) sender receiver
        (dijkstraPath nt sender receiver amount) ∧
      (dijkstraPath nt sender receiver amount).Nodup ∧
      ∀ q, Walk (fun a b => b ∈ nt.next amount a) sender receiver q →
        (dijkstraPath nt sender receiver amount).length ≤ q.length) := by
  have hnext : ∀ a ∉ nt.nodes.keys, nt.next amount a = [] := by
    intro a ha
    rw [NetworkTopology.next, NetworkTopology.listed, FinMap.get?_eq_none.mpr ha]
    rfl
  obtain ⟨hsome, hnone⟩ := searchLoop_spec nt.nodes.nodup_keys hnext
    (SearchInv.start (nt.next amount) sender receiver) (searchCost_lt_pathFuel sender)
  have heq : dijkstraPath nt sender receiver amount =
      (searchLoop (nt.next amount) receiver (pathFuel nt) [] [(sender, [sender])]).getD [] :=
    dijkstraLoop_eq receiver _ [] _
  rw [heq]
  generalize searchLoop (nt.next amount) receiver (pathFuel nt) [] [(sender, [sender])] = found
    at hsome hnone
  cases found with
  | none => exact ⟨fun q hq => absurd hq (hnone rfl q), fun h => absurd rfl h⟩
  | some path =>
      have hpath := hsome path rfl
      refine ⟨fun q _ hnil => ?_, fun _ => hpath⟩
      have hhead := hpath.1.head
      rw [show path = [] from hnil] at hhead
      cases hhead

theorem findPath_ok {sender receiver : Address} {path : List Address} :
    findPath nt sender receiver amount = .ok path ↔
      nt.Registered sender ∧ nt.Registered receiver ∧
        dijkstraPath nt sender receiver amount = path ∧ path ≠ [] ∧
        path.length ≤ maxHops + 2 := by
  unfold findPath NetworkTopology.Registered
  cases nt.nodes.get? sender with
  | none => simp
  | some s =>
      cases nt.nodes.get? receiver with
      | none => simp
      | some r =>
          by_cases hlen : (dijkstraPath nt sender receiver amount).length = 0 ∨
              (dijkstraPath nt sender receiver amount).length > maxHops + 2
          · simp only [Option.isNone_some, Bool.false_eq_true, if_false, hlen, if_true,
              Option.isSome_some, true_and, reduceCtorEq, false_iff]
            rintro ⟨rfl, hne, hle⟩
            rcases hlen with hlen | hlen
            · exact hne (List.length_eq_zero_iff.mp hlen)
            · omega
          · simp only [Option.isNone_some, Bool.false_eq_true, if_false, hlen,
              Option.isSome_some, true_and, Except.ok.injEq]
            rw [not_or, List.length_eq_zero_iff, not_lt] at hlen
            constructor
            · rintro rfl
              exact ⟨rfl, hlen⟩
            · exact fun h => h.1

/-- **Where the lists are right, `findPath` answers right.** -/
theorem routesWell_of_listsRight (h : nt.ListsRight) : nt.RoutesWell := by
  intro sender receiver amount
  obtain ⟨hfound, hshortest⟩ := @dijkstraPath_spec nt amount sender receiver
  have hroute : ∀ path, findPath nt sender receiver amount = .ok path →
      nt.IsRoute amount sender receiver path := by
    intro path hpath
    obtain ⟨-, hreceiver, rfl, hne, -⟩ := findPath_ok.mp hpath
    obtain ⟨hwalk, hnodup, -⟩ := hshortest hne
    have hregistered := registered_of_chain hwalk.chain hwalk.last hreceiver
    exact ⟨⟨hwalk.head, hwalk.last, (chain_iff h hnodup hregistered).mp hwalk.chain⟩,
      hnodup, hregistered⟩
  refine ⟨⟨?_, ?_⟩, hroute⟩
  · rintro ⟨path, hpath⟩
    exact ⟨path, hroute path hpath, (findPath_ok.mp hpath).2.2.2.2⟩
  · rintro ⟨path, hpath, hlen⟩
    have hwalk : Walk (fun a b => b ∈ nt.next amount a) sender receiver path :=
      ⟨hpath.walk.head, hpath.walk.last,
        (chain_iff h hpath.nodup hpath.registered).mpr hpath.walk.chain⟩
    have hne := hfound path hwalk
    refine ⟨_, findPath_ok.mpr ⟨?_, ?_, rfl, hne, ?_⟩⟩
    · exact hpath.registered _ (List.mem_of_head? hpath.walk.head)
    · exact hpath.registered _ (List.mem_of_getLast? hpath.walk.last)
    · exact ((hshortest hne).2.2 path hwalk).trans hlen

/-- **After every run whose steps keep the lists right, `findPath` returns a path exactly when
there is a route that is short enough, and what it returns is a route.** -/
theorem routesWell_of_run (ops : List Op)
    (h : Allowed exec (fun nt op => op.keepsLists nt) ops newNetworkTopology) :
    (run ops newNetworkTopology).RoutesWell :=
  routesWell_of_listsRight
    (run_induction (fun _ _ hright hkeeps => listsRight_exec hright hkeeps) listsRight_new h)

/-! ## Runs that leave the lists right, and runs that do not -/

def firstNode : Address := ⟨List.replicate 20 11, by simp⟩
def secondNode : Address := ⟨List.replicate 20 12, by simp⟩
def thirdNode : Address := ⟨List.replicate 20 13, by simp⟩
def linkID : Hash := ⟨List.replicate 32 14, by simp⟩

/-- A node registers at time `0`. -/
def register (a : Address) : Op := .registerNode a [] "" fun _ => 0

/-- A channel of capacity `10` under the one identifier. -/
def link (a b : Address) : Op := .addChannel linkID a b 10 fun _ => 0

def linkedRun : List Op := [register firstNode, register secondNode, link firstNode secondNode]

theorem routesWell_linkedRun : (run linkedRun newNetworkTopology).RoutesWell := by
  refine routesWell_of_run linkedRun ⟨?_, ?_, ?_, trivial⟩
  · intro b hb
    cases hb
  · intro b hb hne id ch hch
    cases hch
  · intro _ c hc
    have hlisted : (exec (register secondNode)
        (exec (register firstNode) newNetworkTopology)).listed c = [] := by
      simp only [exec, register, listed_registerNode]
      split_ifs <;> rfl
    rw [hlisted] at hc
    cases hc

/-- **A node that registers again loses its list: the channel is in the map, and `findPath`
finds no path along it.** -/
theorem not_routesWell_reregistered :
    ¬ (run (linkedRun ++ [register firstNode]) newNetworkTopology).RoutesWell := by
  intro h
  have hne : firstNode ≠ secondNode := by decide
  have hroute : (run (linkedRun ++ [register firstNode]) newNetworkTopology).IsRoute 1
      firstNode secondNode [firstNode, secondNode] := by
    refine ⟨⟨rfl, rfl, ?_⟩, by simp [hne], ?_⟩
    · exact List.isChain_pair.mpr
        ⟨linkID, _, FinMap.get?_insert_self .., by decide, .inl ⟨rfl, rfl⟩⟩
    · intro a ha
      have hends : a = firstNode ∨ a = secondNode := by simpa using ha
      refine registered_run.mpr (.inr ⟨[], "", fun _ => 0, ?_⟩)
      rcases hends with rfl | rfl
      · exact .head _
      · exact .tail _ (.head _)
  obtain ⟨path, hpath⟩ := (h firstNode secondNode 1).1.mpr ⟨_, hroute, by decide⟩
  obtain ⟨-, -, rfl, hfound, -⟩ := findPath_ok.mp hpath
  obtain ⟨hwalk, -⟩ := (dijkstraPath_spec firstNode secondNode).2 hfound
  have hstuck : (run (linkedRun ++ [register firstNode]) newNetworkTopology).next 1 firstNode =
      [] := by
    have hrun : run (linkedRun ++ [register firstNode]) newNetworkTopology =
        exec (register firstNode) (run linkedRun newNetworkTopology) := runOps_concat ..
    rw [NetworkTopology.next, hrun, register, exec, listed_registerNode, if_pos rfl]
    rfl
  exact hne (hwalk.eq_of_stuck fun b hb => by rw [hstuck] at hb; cases hb)

def reusedRun : List Op := register thirdNode :: linkedRun ++ [link secondNode thirdNode]

/-- **An identifier that is used again stays in the list of an old end, and `findPath` goes
from there to the first of the new ends, along no channel.** -/
theorem not_routesWell_reused : ¬ (run reusedRun newNetworkTopology).RoutesWell := by
  intro h
  have hne : firstNode ≠ secondNode ∧ firstNode ≠ thirdNode := by decide
  have hfirst : (run reusedRun newNetworkTopology).Registered firstNode :=
    registered_run.mpr (.inr ⟨[], "", fun _ => 0, .tail _ (.head _)⟩)
  have hsecond : (run reusedRun newNetworkTopology).Registered secondNode :=
    registered_run.mpr (.inr ⟨[], "", fun _ => 0, .tail _ (.tail _ (.head _))⟩)
  have hlisted : linkID ∈ (run reusedRun newNetworkTopology).listed firstNode := by
    simp only [run, runOps, reusedRun, linkedRun, List.cons_append, List.nil_append,
      List.foldl_cons, List.foldl_nil, exec, register, link, mem_listed_addChannel, registered_registerNode]
    exact .inl (.inr ⟨.inr (.inl trivial), trivial, .inl trivial⟩)
  have hwalk : Walk (fun a b => b ∈ (run reusedRun newNetworkTopology).next 10 a)
      firstNode secondNode [firstNode, secondNode] :=
    ⟨rfl, rfl, List.isChain_pair.mpr (mem_next.mpr
      ⟨linkID, _, hlisted, FinMap.get?_insert_self .., by decide, if_neg (by decide)⟩)⟩
  obtain ⟨hfound, hshortest⟩ :=
    @dijkstraPath_spec (run reusedRun newNetworkTopology) 10 firstNode secondNode
  have hpath := findPath_ok.mpr ⟨hfirst, hsecond, rfl, hfound _ hwalk,
    ((hshortest (hfound _ hwalk)).2.2 _ hwalk).trans (by decide)⟩
  have hroute := (h firstNode secondNode 10).2 _ hpath
  -- the one channel left does not touch the first node
  refine hne.1 (hroute.walk.eq_of_stuck fun b hb => ?_)
  obtain ⟨id, ch, hch, -, hjoins⟩ := hb
  have hends : ch.node1 = secondNode ∧ ch.node2 = thirdNode := by
    change ((FinMap.insert (FinMap.insert ∅ linkID _) linkID _).get? id) = some ch at hch
    rw [FinMap.insert_insert, FinMap.get?_insert] at hch
    split at hch
    · cases hch
      exact ⟨rfl, rfl⟩
    · cases hch
  rw [NetworkChannel.Joins, hends.1, hends.2] at hjoins
  rcases hjoins with ⟨heq, -⟩ | ⟨-, heq⟩
  · exact hne.1 heq.symm
  · exact hne.2 heq.symm

end BhtBhte.Topology
