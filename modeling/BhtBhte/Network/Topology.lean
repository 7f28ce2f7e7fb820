import BhtBhte.Lib.Runs
import BhtBhte.Network.Htlc

/-!
# The topology of the channel network

`NetworkTopology`: the registered nodes, the channels between them, and the search for a
path.  A node keeps the identifiers of its channels and its own totals beside the map of
channels.  No pointer of one map is shared with another, so the maps hold values.  Every
reading of the clock is an argument, in the order in which the call makes them.  The score,
the latency and the uptime are never computed with and are left out.
-/
namespace BhtBhte.Topology

open BhtBhte.Lib
open BhtBhte.Channel (Hash Address)
open BhtBhte.Htlc (Clock)

/-- The longest route that is accepted. -/
def maxHops : ℕ := 5

/-- Times are nanoseconds. -/
structure NetworkNode where
  address : Address
  publicKey : List UInt8
  channels : List Hash := []
  totalCapacity : UInt64 := 0
  availableCapacity : UInt64 := 0
  lastSeen : ℕ
  region : String

/-- A channel between two nodes. -/
structure NetworkChannel where
  channelID : Hash
  node1 : Address
  node2 : Address
  capacity : UInt64
  available : UInt64
  htlcCount : UInt32 := 0
  lastUpdateTime : ℕ

/-- The nodes by address and the channels by identifier. -/
structure NetworkTopology where
  nodes : FinMap Address NetworkNode
  channels : FinMap Hash NetworkChannel
  lastUpdate : ℕ

def newNetworkTopology : NetworkTopology where
  nodes := ∅
  channels := ∅
  lastUpdate := 0

/-! ## Writing -/

/-- Register a node; it starts without channels. -/
def registerNode (address : Address) (publicKey : List UInt8) (region : String) (clock : Clock)
    (nt : NetworkTopology) : NetworkTopology :=
  let node : NetworkNode := { address, publicKey, region, lastSeen := clock 0 }
  { nt with nodes := nt.nodes.insert address node, lastUpdate := clock 1 }

/-- A channel as its node writes it down. -/
def NetworkNode.addChannel (node : NetworkNode) (channelID : Hash) (capacity : UInt64) :
    NetworkNode :=
  { node with
    channels := node.channels ++ [channelID]
    totalCapacity := node.totalCapacity + capacity
    availableCapacity := node.availableCapacity + capacity }

/-- The block of `AddChannel` that is written twice, once for each end. -/
def addToNode (address : Address) (channelID : Hash) (capacity : UInt64)
    (nodes : FinMap Address NetworkNode) : FinMap Address NetworkNode :=
  match nodes.get? address with
  | none => nodes
  | some node => nodes.insert address (node.addChannel channelID capacity)

theorem get?_addToNode (a b : Address) (channelID : Hash) (capacity : UInt64)
    (nodes : FinMap Address NetworkNode) :
    (addToNode a channelID capacity nodes).get? b =
      (nodes.get? b).map fun node => if b = a then node.addChannel channelID capacity else node := by
  unfold addToNode
  by_cases hb : b = a
  · subst hb
    cases hget : nodes.get? b with
    | none => simp [hget]
    | some node => simp
  · cases hget : nodes.get? a with
    | none => simp [hb]
    | some node => simp [hb, FinMap.get?_insert_of_ne]

/-- Add a channel, to the map and to the lists of its ends. -/
def addChannel (channelID : Hash) (node1 node2 : Address) (capacity : UInt64) (clock : Clock)
    (nt : NetworkTopology) : NetworkTopology :=
  let channel : NetworkChannel :=
    { channelID, node1, node2, capacity, available := capacity, lastUpdateTime := clock 0 }
  { channels := nt.channels.insert channelID channel
    nodes := addToNode node2 channelID capacity (addToNode node1 channelID capacity nt.nodes)
    lastUpdate := clock 1 }

/-- Set what a channel has available. -/
def updateChannelCapacity (channelID : Hash) (newAvailable : UInt64) (clock : Clock)
    (nt : NetworkTopology) : NetworkTopology :=
  match nt.channels.get? channelID with
  | none => nt
  | some channel =>
    { nt with
      channels := nt.channels.insert channelID
        { channel with available := newAvailable, lastUpdateTime := clock 0 }
      lastUpdate := clock 1 }

/-! ## Finding a path -/

/-- An entry of the queue: a path, the node at its end and what the path can carry. -/
structure PathState where
  node : Address
  path : List Address
  capacity : UInt64

/-- The end of a channel that a node takes for the other one: `Node2` if it is `Node1`
itself, `Node1` in every other case. -/
def NetworkChannel.neighbor (channel : NetworkChannel) (current : Address) : Address :=
  if channel.node1 = current then channel.node2 else channel.node1

/-- The states that one round of the loop appends to the heap. -/
def extend (nt : NetworkTopology) (amount : UInt64) (visited : List Address)
    (current : PathState) : List PathState :=
  match nt.nodes.get? current.node with
  | none => []
  | some node => node.channels.filterMap fun channelID =>
    match nt.channels.get? channelID with
    | none => none
    | some channel =>
      if channel.available < amount then none
      else if channel.neighbor current.node ∈ visited then none
      else some
        { node := channel.neighbor current.node
          path := current.path ++ [channel.neighbor current.node]
          capacity :=
            if channel.available > current.capacity then current.capacity
            else channel.available }

/-- The loop of `dijkstraPath`, with fuel; `heap` is a queue. -/
def dijkstraLoop (nt : NetworkTopology) (receiver : Address) (amount : UInt64) :
    ℕ → List Address → List PathState → List Address
  | 0, _, _ => []
  | _ + 1, _, [] => []
  | fuel + 1, visited, current :: heap =>
    if current.node ∈ visited then dijkstraLoop nt receiver amount fuel visited heap
    else if current.node = receiver then current.path
    else dijkstraLoop nt receiver amount fuel (current.node :: visited)
      (heap ++ extend nt amount (current.node :: visited) current)

/-- The loop of `dijkstraPath`, or `none` if its rounds do not suffice. -/
def dijkstraRounds (nt : NetworkTopology) (receiver : Address) (amount : UInt64) :
    ℕ → List Address → List PathState → Option (List Address)
  | 0, _, _ => none
  | _ + 1, _, [] => some []
  | fuel + 1, visited, current :: heap =>
    if current.node ∈ visited then dijkstraRounds nt receiver amount fuel visited heap
    else if current.node = receiver then some current.path
    else dijkstraRounds nt receiver amount fuel (current.node :: visited)
      (heap ++ extend nt amount (current.node :: visited) current)

/-- A node is expanded once, so no more states come up than the nodes list channels. -/
def pathFuel (nt : NetworkTopology) : ℕ :=
  (nt.nodes.entries.map fun e => e.2.channels.length).sum + 2

/-- The search for a path, from the path of the sender alone. -/
def dijkstraPath (nt : NetworkTopology) (sender receiver : Address) (amount : UInt64) :
    List Address :=
  dijkstraLoop nt receiver amount (pathFuel nt) [] [⟨sender, [sender], amount⟩]

/-- A path between two registered nodes, if it is short enough. -/
def findPath (nt : NetworkTopology) (sender receiver : Address) (amount : UInt64) :
    Except String (List Address) :=
  if (nt.nodes.get? sender).isNone then .error "sender not in network"
  else if (nt.nodes.get? receiver).isNone then .error "receiver not in network"
  else
    let path := dijkstraPath nt sender receiver amount
    if path.length = 0 ∨ path.length > maxHops + 2 then
      .error "no path found with available capacity"
    else .ok path

/-! ## Statistics -/

/-- The utilisation is the quotient of `usedCapacity` and `totalCapacity` as floats. -/
structure NetworkStats where
  nodeCount : UInt32
  channelCount : UInt32
  totalCapacity : UInt64
  availableCapacity : UInt64
  activeHTLCs : UInt32
  usedCapacity : UInt64
  lastUpdate : ℕ

/-- The sums do not depend on the order in which the map is ranged over. -/
def getNetworkStats (nt : NetworkTopology) : NetworkStats :=
  let channels := nt.channels.entries.map Prod.snd
  let totalCapacity := channels.foldl (fun sum channel => sum + channel.capacity) 0
  let availableCapacity := channels.foldl (fun sum channel => sum + channel.available) 0
  { nodeCount := UInt32.ofNat nt.nodes.entries.length
    channelCount := UInt32.ofNat channels.length
    totalCapacity
    availableCapacity
    activeHTLCs := channels.foldl (fun sum channel => sum + channel.htlcCount) 0
    usedCapacity := totalCapacity - availableCapacity
    lastUpdate := nt.lastUpdate }

/-! ## Runs -/

inductive Op where
  | registerNode (address : Address) (publicKey : List UInt8) (region : String) (clock : Clock)
  | addChannel (channelID : Hash) (node1 node2 : Address) (capacity : UInt64) (clock : Clock)
  | updateChannelCapacity (channelID : Hash) (newAvailable : UInt64) (clock : Clock)

def exec : Op → NetworkTopology → NetworkTopology
  | .registerNode address publicKey region clock =>
      Topology.registerNode address publicKey region clock
  | .addChannel channelID node1 node2 capacity clock =>
      Topology.addChannel channelID node1 node2 capacity clock
  | .updateChannelCapacity channelID newAvailable clock =>
      Topology.updateChannelCapacity channelID newAvailable clock

def run (ops : List Op) (nt : NetworkTopology) : NetworkTopology := runOps exec ops nt

end BhtBhte.Topology
