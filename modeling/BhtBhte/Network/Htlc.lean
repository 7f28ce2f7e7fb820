import BhtBhte.Channel.Manager
import BhtBhte.Lib.Bytes
import BhtBhte.Lib.FinMap

/-!
# Hash time-locked contracts

`HTLCManager` and its operations.  As in the channel manager, a contract is an object on
the heap and the map leads from an identifier to a pointer.  An operation may fail and
still write: a late `OpenHTLC` marks the contract as expired before it returns its error.
Every reading of the clock is an argument, in the order in which the call makes them.
SHA-256 is a parameter.  The list of hops is never written and is left out.
-/
namespace BhtBhte.Htlc

open BhtBhte.Lib
open BhtBhte.Channel (ByteArrayOf Hash Address generateChannelID)

def htlcTimeoutMin : ℤ := 60 * 60 * 10 ^ 9
def htlcTimeoutMax : ℤ := 7 * 24 * 60 * 60 * 10 ^ 9

/-- The states of a contract. -/
inductive HTLCState where
  | statePending
  | stateOpen
  | stateSettled
  | stateExpired
  | stateRefunded
  deriving DecidableEq

def HTLCState.string : HTLCState → String
  | .statePending => "Pending"
  | .stateOpen => "Open"
  | .stateSettled => "Settled"
  | .stateExpired => "Expired"
  | .stateRefunded => "Refunded"

/-- The preimage of a contract that was never opened. -/
def zeroPreimage : Hash := ⟨List.replicate 32 0, by simp⟩

/-- Times are nanoseconds; `0` is the time that was never set. -/
structure HTLC where
  htlcID : Hash
  channelID : Hash
  sender : Address
  receiver : Address
  amount : UInt64
  hashLock : Hash
  preimage : Hash := zeroPreimage
  state : HTLCState := .statePending
  timeout : ℕ
  createdAt : ℕ
  settledAt : ℕ := 0
  fee : UInt64

/-- The manager with the heap its contracts live on. -/
structure HTLCManager where
  heap : List HTLC
  htlcs : FinMap Hash ℕ
  byChannel : Hash → List Hash
  byHashLock : Hash → Option Hash

def newHTLCManager : HTLCManager where
  heap := []
  htlcs := ∅
  byChannel _ := []
  byHashLock _ := none

/-- The pointer and the object behind an identifier. -/
def HTLCManager.lookup (m : HTLCManager) (htlcID : Hash) : Option (ℕ × HTLC) :=
  (m.htlcs.get? htlcID).bind fun k => (m.heap[k]?).map fun htlc => (k, htlc)

/-- Write the object behind a pointer. -/
def HTLCManager.store (m : HTLCManager) (k : ℕ) (htlc : HTLC) : HTLCManager :=
  { m with heap := m.heap.set k htlc }

/-- The readings of the clock that one call makes. -/
abbrev Clock := ℕ → ℕ

/-- An identifier is made as that of a channel is. -/
def generateHTLCID (random : ByteArrayOf 24) (now : ℕ) : Hash := generateChannelID random now

/-! ## Operations -/

/-- Lock an amount under a hash until a time. -/
def createHTLC (channelID : Hash) (sender receiver : Address) (amount : UInt64) (timeout : ℤ)
    (hashLock : Hash) (fee : UInt64) (random : ByteArrayOf 24) (clock : Clock) (m : HTLCManager) :
    Except String Unit × HTLCManager :=
  if timeout < htlcTimeoutMin then (.error "timeout too short: minimum 1h0m0s", m)
  else if timeout > htlcTimeoutMax then (.error "timeout too long: maximum 168h0m0s", m)
  else
    let htlcID := generateHTLCID random (clock 0)
    let htlc : HTLC :=
      { htlcID, channelID, sender, receiver, amount, hashLock, fee
        timeout := clock 1 + timeout.toNat, createdAt := clock 2 }
    (.ok (),
      { heap := m.heap ++ [htlc]
        htlcs := m.htlcs.insert htlcID m.heap.length
        byChannel := Function.update m.byChannel channelID (m.byChannel channelID ++ [htlcID])
        byHashLock := Function.update m.byHashLock hashLock (some htlcID) })

/-- Open a contract with a preimage.  A late one expires. -/
def openHTLC (sha256 : Hash → Hash) (htlcID preimage : Hash) (clock : Clock) (m : HTLCManager) :
    Except String Unit × HTLCManager :=
  match m.lookup htlcID with
  | none => (.error "HTLC not found", m)
  | some (k, htlc) =>
    if htlc.state ≠ .statePending then (.error ("HTLC not pending: " ++ htlc.state.string), m)
    else if clock 0 > htlc.timeout then
      (.error "HTLC expired", m.store k { htlc with state := .stateExpired })
    else if sha256 preimage ≠ htlc.hashLock then
      (.error "preimage does not match hash lock", m)
    else
      (.ok (), m.store k { htlc with preimage, state := .stateOpen, settledAt := clock 1 })

/-- Settle an opened contract. -/
def settleHTLC (htlcID : Hash) (m : HTLCManager) : Except String Unit × HTLCManager :=
  match m.lookup htlcID with
  | none => (.error "HTLC not found", m)
  | some (k, htlc) =>
    if htlc.state ≠ .stateOpen then (.error ("HTLC not open: " ++ htlc.state.string), m)
    else (.ok (), m.store k { htlc with state := .stateSettled })

/-- Give a contract back that has timed out. -/
def refundHTLC (htlcID : Hash) (clock : Clock) (m : HTLCManager) :
    Except String Unit × HTLCManager :=
  match m.lookup htlcID with
  | none => (.error "HTLC not found", m)
  | some (k, htlc) =>
    if htlc.state ≠ .statePending then (.error ("HTLC not pending: " ++ htlc.state.string), m)
    else if clock 0 < htlc.timeout then (.error "HTLC not yet expired", m)
    else (.ok (), m.store k { htlc with state := .stateRefunded })

/-- The body of the loop of `ExpireHTLCs`. -/
def HTLC.expire (now : ℕ) (htlc : HTLC) : HTLC :=
  if htlc.state = .statePending ∧ now > htlc.timeout then { htlc with state := .stateExpired }
  else htlc

/-- The order of the map does not matter: each round writes the object of its own entry. -/
def expireHTLCs (clock : Clock) (m : HTLCManager) : HTLCManager :=
  { m with heap := m.htlcs.entries.foldl (fun heap e => heap.modify e.2 (.expire (clock 0))) m.heap }

/-! ## Queries -/

/-- The pointer that the map of hash locks leads to; a map without the identifier gives `nil`. -/
def getHTLCByHashLock (hashLock : Hash) (m : HTLCManager) : Except String (Option ℕ) :=
  match m.byHashLock hashLock with
  | none => .error "HTLC not found for hash lock"
  | some htlcID => .ok (m.htlcs.get? htlcID)

/-- The body of the loop of `GetChannelCapacity`. -/
def HTLCManager.addLocked (m : HTLCManager) (participant : Address) (lockedAmount : UInt64)
    (id : Hash) : UInt64 :=
  match m.lookup id with
  | none => lockedAmount
  | some (_, htlc) =>
    if htlc.state = .statePending ∨ htlc.state = .stateOpen then
      if htlc.sender = participant then lockedAmount + htlc.amount else lockedAmount
    else lockedAmount

/-- The sum of what a party has locked in a channel. -/
def getChannelCapacity (channelID : Hash) (participant : Address) (m : HTLCManager) : UInt64 :=
  (m.byChannel channelID).foldl (m.addLocked participant) 0

/-! ## Runs -/

inductive Op where
  | createHTLC (channelID : Hash) (sender receiver : Address) (amount : UInt64) (timeout : ℤ)
      (hashLock : Hash) (fee : UInt64) (random : ByteArrayOf 24) (clock : Clock)
  | openHTLC (htlcID preimage : Hash) (clock : Clock)
  | settleHTLC (htlcID : Hash)
  | refundHTLC (htlcID : Hash) (clock : Clock)
  | expireHTLCs (clock : Clock)

def Op.apply (sha256 : Hash → Hash) : Op → HTLCManager → Except String Unit × HTLCManager
  | .createHTLC channelID sender receiver amount timeout hashLock fee random clock, m =>
      Htlc.createHTLC channelID sender receiver amount timeout hashLock fee random clock m
  | .openHTLC htlcID preimage clock, m => Htlc.openHTLC sha256 htlcID preimage clock m
  | .settleHTLC htlcID, m => Htlc.settleHTLC htlcID m
  | .refundHTLC htlcID clock, m => Htlc.refundHTLC htlcID clock m
  | .expireHTLCs clock, m => (.ok (), Htlc.expireHTLCs clock m)

/-- What happened to a contract. -/
inductive Event where
  | opened (k : ℕ) (preimage : Hash) (now : ℕ)
  | settled (k : ℕ)
  | refunded (k : ℕ) (now : ℕ)
  deriving DecidableEq

/-- The contract an event is about. -/
def Event.pointer : Event → ℕ
  | .opened k _ _ => k
  | .settled k => k
  | .refunded k _ => k

/-- What an operation does to a contract when it succeeds. -/
def Op.events (m : HTLCManager) : Op → List Event
  | .openHTLC htlcID preimage clock =>
      (m.htlcs.get? htlcID).toList.map fun k => .opened k preimage (clock 0)
  | .settleHTLC htlcID => (m.htlcs.get? htlcID).toList.map .settled
  | .refundHTLC htlcID clock => (m.htlcs.get? htlcID).toList.map fun k => .refunded k (clock 0)
  | _ => []

/-- A manager with the events so far. -/
structure World where
  manager : HTLCManager
  events : List Event

def newWorld : World := ⟨newHTLCManager, []⟩

def exec (sha256 : Hash → Hash) (op : Op) (w : World) : World :=
  match op.apply sha256 w.manager with
  | (.error _, m) => { w with manager := m }
  | (.ok _, m) => { manager := m, events := w.events ++ op.events w.manager }

def run (sha256 : Hash → Hash) (ops : List Op) (w : World) : World :=
  ops.foldl (fun w op => exec sha256 op w) w

/-- The events of one contract. -/
def World.history (w : World) (k : ℕ) : List Event := w.events.filter (·.pointer = k)

end BhtBhte.Htlc
