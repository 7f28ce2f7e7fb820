import BhtBhte.Network.Routing

/-!
# The totals of the channel network

A node keeps the sums over its channels by hand.  `AddChannel` adds to them, but
`UpdateChannelCapacity` writes what a channel has available without a word to its nodes and without
a look at its capacity, `RegisterNode` starts at zero, and a channel that is replaced is not taken
off.  The statistics subtract two sums over the map of channels.  After operations that avoid these
the totals are right (`capacitiesRight_of_run`).
-/
namespace BhtBhte.Topology

open BhtBhte.Lib
open BhtBhte.Channel (Hash Address)

variable {nt : NetworkTopology} {a b : Address} {id : Hash}

def NetworkChannel.Touches (ch : NetworkChannel) (a : Address) : Prop :=
  a = ch.node1 ∨ a = ch.node2

instance (ch : NetworkChannel) (a : Address) : Decidable (ch.Touches a) :=
  inferInstanceAs (Decidable (_ ∨ _))

/-- What one channel adds to the sum of a node. -/
def NetworkChannel.share (f : NetworkChannel → UInt64) (a : Address) (ch : NetworkChannel) : ℤ :=
  if ch.Touches a then (f ch).toNat else 0

/-- The sum of `f` over the channels in the map that touch a node. -/
def NetworkTopology.sumAt (nt : NetworkTopology) (f : NetworkChannel → UInt64) (a : Address) :
    ℤ :=
  nt.channels.total (NetworkChannel.share f a)

/-- The sum of `f` over all channels in the map. -/
def NetworkTopology.sum (nt : NetworkTopology) (f : NetworkChannel → UInt64) : ℤ :=
  nt.channels.total fun ch => ((f ch).toNat : ℤ)

/-- The totals of every node are the sums over its channels, no channel has more available
than its capacity, and the statistics subtract the smaller sum from the larger one. -/
structure NetworkTopology.CapacitiesRight (nt : NetworkTopology) : Prop where
  totalCapacity : ∀ a node, nt.nodes.get? a = some node →
    (node.totalCapacity.toNat : ℤ) = nt.sumAt NetworkChannel.capacity a
  availableCapacity : ∀ a node, nt.nodes.get? a = some node →
    (node.availableCapacity.toNat : ℤ) = nt.sumAt NetworkChannel.available a
  bounded : ∀ id ch, nt.channels.get? id = some ch → ch.available ≤ ch.capacity
  used : (getNetworkStats nt).availableCapacity ≤ (getNetworkStats nt).totalCapacity ∧
    ((getNetworkStats nt).usedCapacity.toNat : ℤ) =
      nt.sum NetworkChannel.capacity - nt.sum NetworkChannel.available

/-- The capacity of the channels under other identifiers. -/
def NetworkTopology.otherCapacity (nt : NetworkTopology) (id : Hash) : ℤ :=
  nt.sum NetworkChannel.capacity -
    ((nt.channels.get? id).map fun ch => (ch.capacity.toNat : ℤ)).getD 0

/-- A node registers while the channels that touch it have no capacity; the channel that a new
one replaces has no capacity or touches no registered node, the new one does not join a
registered node to itself unless its capacity is zero, and all capacities together stay below
`2 ^ 64`; an update stays within the capacity of the channel, and changes nothing where an end
is registered. -/
def Op.keepsSums (nt : NetworkTopology) : Op → Prop
  | .registerNode a _ _ _ => ∀ id ch, nt.channels.get? id = some ch → ch.Touches a →
      ch.capacity = 0
  | .addChannel id node1 node2 capacity _ =>
      (∀ ch, nt.channels.get? id = some ch → ∀ a, nt.Registered a → ch.Touches a →
        ch.capacity = 0) ∧
      (node1 = node2 → nt.Registered node1 → capacity = 0) ∧
      nt.otherCapacity id + capacity.toNat < 2 ^ 64
  | .updateChannelCapacity id newAvailable _ => ∀ ch, nt.channels.get? id = some ch →
      newAvailable ≤ ch.capacity ∧
      ∀ a, nt.Registered a → ch.Touches a → newAvailable = ch.available

/-! ## Sums over the map -/

/-- A write of a channel replaces its share. -/
theorem sumAt_write {f : NetworkChannel → UInt64} {ch : NetworkChannel}
    {nt' : NetworkTopology} (h : nt'.channels = nt.channels.insert id ch) :
    nt'.sumAt f a = nt.sumAt f a - ((nt.channels.get? id).map (NetworkChannel.share f a)).getD 0
      + ch.share f a := by
  rw [NetworkTopology.sumAt, h, FinMap.total_insert, NetworkTopology.sumAt]

theorem sum_write {f : NetworkChannel → UInt64} {ch : NetworkChannel}
    {nt' : NetworkTopology} (h : nt'.channels = nt.channels.insert id ch) :
    nt'.sum f = nt.sum f - ((nt.channels.get? id).map fun ch => ((f ch).toNat : ℤ)).getD 0
      + (f ch).toNat := by
  rw [NetworkTopology.sum, h, FinMap.total_insert, NetworkTopology.sum]

/-- The channels of one node are some of all. -/
theorem sumAt_le_sum (f : NetworkChannel → UInt64) (a : Address) : nt.sumAt f a ≤ nt.sum f := by
  refine List.sum_le_sum fun e _ => ?_
  unfold NetworkChannel.share
  split
  · exact le_rfl
  · exact Int.natCast_nonneg _

/-- No channel has more available than its capacity, so neither have all. -/
theorem sum_available_le (h : ∀ id ch, nt.channels.get? id = some ch → ch.available ≤ ch.capacity) :
    nt.sum NetworkChannel.available ≤ nt.sum NetworkChannel.capacity := by
  refine List.sum_le_sum fun e he => ?_
  exact Int.ofNat_le.mpr (UInt64.le_iff_toNat_le.mp (h e.1 e.2 (FinMap.get?_eq_some.mpr he)))

theorem share_eq_zero {f : NetworkChannel → UInt64} {ch : NetworkChannel}
    (h : ch.Touches a → f ch = 0) : ch.share f a = 0 := by
  unfold NetworkChannel.share
  split
  · next htouches => rw [h htouches]; rfl
  · rfl

/-- Channels whose share is zero sum to zero. -/
theorem sumAt_eq_zero {f : NetworkChannel → UInt64}
    (h : ∀ id ch, nt.channels.get? id = some ch → ch.Touches a → f ch = 0) :
    nt.sumAt f a = 0 := by
  refine List.sum_eq_zero fun x hx => ?_
  obtain ⟨e, he, rfl⟩ := List.mem_map.mp hx
  exact share_eq_zero (h e.1 e.2 (FinMap.get?_eq_some.mpr he))

/-- A channel of no capacity has nothing available. -/
theorem available_eq_zero {ch : NetworkChannel} (hle : ch.available ≤ ch.capacity)
    (h : ch.capacity = 0) : ch.available = 0 := by
  rw [h, UInt64.le_iff_toNat_le] at hle
  exact UInt64.toNat_inj.mp (Nat.le_zero.mp hle)

/-- A sum of words is the sum of their values up to a multiple of `2 ^ 64`. -/
theorem toNat_foldl_emod (f : NetworkChannel → UInt64) (l : List NetworkChannel) (acc : UInt64) :
    ((l.foldl (fun sum channel => sum + f channel) acc).toNat : ℤ) =
      (acc.toNat + (l.map fun channel => ((f channel).toNat : ℤ)).sum) % 2 ^ 64 := by
  induction l generalizing acc with
  | nil =>
      have hlt := acc.toNat_lt
      simp only [List.foldl_nil, List.map_nil, List.sum_nil]
      omega
  | cons channel l ih =>
      rw [List.foldl_cons, ih, List.map_cons, List.sum_cons, UInt64.toNat_add, Int.natCast_mod]
      push_cast
      rw [Int.emod_add_emod, add_assoc]

/-- A sum that stays below `2 ^ 64` is the one that the statistics compute. -/
theorem toNat_statistics {f : NetworkChannel → UInt64} (h : nt.sum f < 2 ^ 64) :
    (((nt.channels.entries.map Prod.snd).foldl (fun sum channel => sum + f channel) 0).toNat : ℤ) =
      nt.sum f := by
  have hsum : ((nt.channels.entries.map Prod.snd).map fun channel => ((f channel).toNat : ℤ)).sum =
      nt.sum f := by
    rw [List.map_map]
    rfl
  have hnonneg : 0 ≤ nt.sum f := by
    refine List.sum_nonneg fun x hx => ?_
    obtain ⟨e, -, rfl⟩ := List.mem_map.mp hx
    exact Int.natCast_nonneg _
  rw [toNat_foldl_emod, hsum, UInt64.toNat_zero, Nat.cast_zero, zero_add,
    Int.emod_eq_of_lt hnonneg h]

/-! ## The totals along a run -/

/-- The totals are right, and all capacities together fit into a word. -/
structure NetworkTopology.SumsRight (nt : NetworkTopology) : Prop where
  totalCapacity : ∀ a node, nt.nodes.get? a = some node →
    (node.totalCapacity.toNat : ℤ) = nt.sumAt NetworkChannel.capacity a
  availableCapacity : ∀ a node, nt.nodes.get? a = some node →
    (node.availableCapacity.toNat : ℤ) = nt.sumAt NetworkChannel.available a
  bounded : ∀ id ch, nt.channels.get? id = some ch → ch.available ≤ ch.capacity
  fits : nt.sum NetworkChannel.capacity < 2 ^ 64

theorem NetworkTopology.SumsRight.capacitiesRight (h : nt.SumsRight) : nt.CapacitiesRight where
  totalCapacity := h.totalCapacity
  availableCapacity := h.availableCapacity
  bounded := h.bounded
  used := by
    have hle := sum_available_le h.bounded
    have htotal : ((getNetworkStats nt).totalCapacity.toNat : ℤ) =
        nt.sum NetworkChannel.capacity := toNat_statistics h.fits
    have havailable : ((getNetworkStats nt).availableCapacity.toNat : ℤ) =
        nt.sum NetworkChannel.available := toNat_statistics (hle.trans_lt h.fits)
    have hword : (getNetworkStats nt).availableCapacity ≤ (getNetworkStats nt).totalCapacity := by
      rw [UInt64.le_iff_toNat_le]
      omega
    refine ⟨hword, ?_⟩
    have hsub : (getNetworkStats nt).usedCapacity.toNat =
        (getNetworkStats nt).totalCapacity.toNat - (getNetworkStats nt).availableCapacity.toNat :=
      UInt64.toNat_sub_of_le _ _ hword
    omega

section Steps
variable {node1 node2 : Address} {capacity : UInt64} {clock : Htlc.Clock}

/-- A total `g` that the nodes keep of `f` stays right when a channel is added. -/
theorem kept_addChannel {g : NetworkNode → UInt64} {f : NetworkChannel → UInt64}
    (hg : ∀ node : NetworkNode, g (node.addChannel id capacity) = g node + capacity)
    (hright : ∀ a node, nt.nodes.get? a = some node → ((g node).toNat : ℤ) = nt.sumAt f a)
    {new : NetworkChannel}
    (hwrite : (addChannel id node1 node2 capacity clock nt).channels = nt.channels.insert id new)
    (hends : new.node1 = node1 ∧ new.node2 = node2) (hnew : f new = capacity)
    (hold : ∀ ch, nt.channels.get? id = some ch → ∀ a, nt.Registered a → ch.Touches a →
      f ch = 0)
    (hself : node1 = node2 → nt.Registered node1 → capacity = 0)
    (hfits : (addChannel id node1 node2 capacity clock nt).sum f < 2 ^ 64)
    {a : Address} {node : NetworkNode}
    (hget : (addChannel id node1 node2 capacity clock nt).nodes.get? a = some node) :
    ((g node).toNat : ℤ) = (addChannel id node1 node2 capacity clock nt).sumAt f a := by
  have hle := (sumAt_le_sum f a).trans_lt hfits
  rw [addChannel, get?_addToNode, get?_addToNode, Option.map_map] at hget
  obtain ⟨node₀, hnode₀, hnode⟩ := Option.map_eq_some_iff.mp hget
  have hregistered : nt.Registered a := by rw [NetworkTopology.Registered, hnode₀]; rfl
  have hgone : ((nt.channels.get? id).map (NetworkChannel.share f a)).getD 0 = 0 := by
    cases hch : nt.channels.get? id with
    | none => rfl
    | some ch => exact share_eq_zero (hold ch hch a hregistered)
  have hshare : new.share f a = if a = node1 ∨ a = node2 then (capacity.toNat : ℤ) else 0 := by
    rw [NetworkChannel.share, hnew, ← hends.1, ← hends.2]
    exact if_congr Iff.rfl rfl rfl
  rw [sumAt_write hwrite, hgone, ← hright a node₀ hnode₀, hshare] at hle ⊢
  rw [← hnode]
  have hadd : ∀ x : UInt64, (x.toNat : ℤ) + capacity.toNat < 2 ^ 64 →
      ((x + capacity).toNat : ℤ) = x.toNat + capacity.toNat := by
    intro x hx
    rw [UInt64.toNat_add, Nat.mod_eq_of_lt (by omega)]
    push_cast
    rfl
  by_cases h₁ : a = node1 <;> by_cases h₂ : a = node2
  · -- a channel from a node to itself is added to it twice
    have hzero := hself (h₁.symm.trans h₂) (h₁ ▸ hregistered)
    simp only [Function.comp_apply, if_pos h₁, if_pos h₂, hg]
    simp [hzero]
  · simp only [Function.comp_apply, if_pos h₁, if_neg h₂, hg]
    rw [if_pos (Or.inl h₁)] at hle ⊢
    rw [hadd _ (by omega)]
    omega
  · simp only [Function.comp_apply, if_neg h₁, if_pos h₂, hg]
    rw [if_pos (Or.inr h₂)] at hle ⊢
    rw [hadd _ (by omega)]
    omega
  · simp only [Function.comp_apply, if_neg h₁, if_neg h₂]
    rw [if_neg (not_or.mpr ⟨h₁, h₂⟩)]
    omega

theorem sumsRight_addChannel (h : nt.SumsRight)
    (hkeeps : (Op.addChannel id node1 node2 capacity clock).keepsSums nt) :
    (addChannel id node1 node2 capacity clock nt).SumsRight := by
  obtain ⟨hold, hself, hother⟩ := hkeeps
  have hbounded : ∀ id' ch, (addChannel id node1 node2 capacity clock nt).channels.get? id' =
      some ch → ch.available ≤ ch.capacity := by
    intro id' ch hch
    rw [addChannel, FinMap.get?_insert] at hch
    split at hch
    · cases hch
      exact UInt64.le_refl capacity
    · exact h.bounded id' ch hch
  have hfits : (addChannel id node1 node2 capacity clock nt).sum NetworkChannel.capacity <
      2 ^ 64 := by
    rw [sum_write rfl]
    exact hother
  refine ⟨fun a node => ?_, fun a node => ?_, hbounded, hfits⟩
  · exact kept_addChannel (fun _ => rfl) h.totalCapacity rfl ⟨rfl, rfl⟩ rfl hold hself hfits
  refine kept_addChannel (fun _ => rfl) h.availableCapacity rfl ⟨rfl, rfl⟩ rfl ?_ hself
    ((sum_available_le hbounded).trans_lt hfits)
  intro ch hch a ha htouches
  exact available_eq_zero (h.bounded id ch hch) (hold ch hch a ha htouches)

theorem sumsRight_registerNode {publicKey : List UInt8} {region : String} (h : nt.SumsRight)
    (hkeeps : (Op.registerNode a publicKey region clock).keepsSums nt) :
    (registerNode a publicKey region clock nt).SumsRight := by
  have havailable : ∀ id ch, nt.channels.get? id = some ch → ch.Touches a →
      ch.available = 0 := fun id ch hch htouches =>
    available_eq_zero (h.bounded id ch hch) (hkeeps id ch hch htouches)
  refine ⟨fun b node hnode => ?_, fun b node hnode => ?_, h.bounded, h.fits⟩ <;>
    rw [registerNode, FinMap.get?_insert] at hnode <;> split at hnode
  · next heq =>
    cases hnode
    rw [heq]
    exact (sumAt_eq_zero hkeeps).symm
  · exact h.totalCapacity b node hnode
  · next heq =>
    cases hnode
    rw [heq]
    exact (sumAt_eq_zero havailable).symm
  · exact h.availableCapacity b node hnode

theorem sumsRight_updateChannelCapacity {newAvailable : UInt64} (h : nt.SumsRight)
    (hkeeps : (Op.updateChannelCapacity id newAvailable clock).keepsSums nt) :
    (updateChannelCapacity id newAvailable clock nt).SumsRight := by
  unfold updateChannelCapacity
  cases hch : nt.channels.get? id with
  | none => exact h
  | some ch =>
      obtain ⟨hle, hsame⟩ := hkeeps ch hch
      have hshare : ∀ {f : NetworkChannel → UInt64} {ch' : NetworkChannel}
          {nt' : NetworkTopology}, nt'.channels = nt.channels.insert id ch' →
          ∀ a, ch'.share f a = ch.share f a → nt'.sumAt f a = nt.sumAt f a := by
        intro f ch' nt' hwrite a heq
        rw [sumAt_write hwrite, hch, Option.map_some, Option.getD_some, heq, sub_add_cancel]
      refine ⟨fun a node hnode => ?_, fun a node hnode => ?_, fun id' ch' hch' => ?_, ?_⟩
      · refine (h.totalCapacity a node hnode).trans (Eq.symm ?_)
        apply hshare
        · rfl
        · rfl
      · have ha : nt.Registered a := by
          change nt.nodes.get? a = some node at hnode
          rw [NetworkTopology.Registered, hnode]
          rfl
        refine (h.availableCapacity a node hnode).trans (hshare rfl a ?_).symm
        unfold NetworkChannel.share
        by_cases htouches : ch.Touches a
        · rw [if_pos htouches, if_pos (by exact htouches), hsame a ha htouches]
        · rw [if_neg htouches, if_neg (by exact htouches)]
      · rw [FinMap.get?_insert] at hch'
        split at hch'
        · cases hch'
          exact hle
        · exact h.bounded id' ch' hch'
      · rw [sum_write rfl, hch, Option.map_some, Option.getD_some, sub_add_cancel]
        exact h.fits

theorem sumsRight_exec {op : Op} (h : nt.SumsRight) (hkeeps : op.keepsSums nt) :
    (exec op nt).SumsRight := by
  cases op with
  | registerNode a publicKey region clock => exact sumsRight_registerNode h hkeeps
  | addChannel id node1 node2 capacity clock => exact sumsRight_addChannel h hkeeps
  | updateChannelCapacity id newAvailable clock => exact sumsRight_updateChannelCapacity h hkeeps

theorem sumsRight_new : newNetworkTopology.SumsRight where
  totalCapacity a node hnode := by cases hnode
  availableCapacity a node hnode := by cases hnode
  bounded id ch hch := by cases hch
  fits := by decide

end Steps

/-- **After every run whose steps keep the sums right, the totals of the nodes are the sums over
their channels, no channel has more available than its capacity, and the statistics do not
wrap around.** -/
theorem capacitiesRight_of_run (ops : List Op)
    (h : Allowed exec (fun nt op => op.keepsSums nt) ops newNetworkTopology) :
    (run ops newNetworkTopology).CapacitiesRight :=
  (run_induction (fun _ _ hright hkeeps => sumsRight_exec hright hkeeps) sumsRight_new
    h).capacitiesRight

theorem capacitiesRight_linkedRun : (run linkedRun newNetworkTopology).CapacitiesRight := by
  refine capacitiesRight_of_run linkedRun ⟨?_, ?_, ⟨?_, ?_, ?_⟩, trivial⟩
  · intro id ch hch
    cases hch
  · intro id ch hch
    cases hch
  · intro ch hch
    cases hch
  · intro heq
    exact absurd heq (by decide)
  · decide

/-- A channel of capacity `10` is said to have `11` available. -/
def raise : Op := .updateChannelCapacity linkID 11 fun _ => 0

/-- **The nodes of the channel keep the old total, and the statistics wrap around.** -/
theorem not_capacitiesRight_raised :
    ¬ (run (linkedRun ++ [raise]) newNetworkTopology).CapacitiesRight ∧
      (getNetworkStats (run (linkedRun ++ [raise]) newNetworkTopology)).usedCapacity.toNat =
        2 ^ 64 - 1 := by
  constructor
  · intro h
    have hle := h.bounded linkID _ (FinMap.get?_insert_self ..)
    revert hle
    decide
  · decide +kernel

end BhtBhte.Topology
