import BhtBhte.Lib.Text
import Mathlib.Data.Fin.VecNotation

/-!
# Payment channels

`ChannelManager` and its operations.  A channel is an object behind a pointer: the
manager's map leads from an identifier to a position on the heap, and a channel that
leaves the map stays where it is.  Operations that fail leave the manager unchanged.
Amounts and sequence numbers are 64-bit words and wrap.  Signature recovery and SHA-256
are parameters; times are nanoseconds and an argument of the operation that reads the
clock.  The totals sent and received are never read or written and are left out.
-/
namespace BhtBhte.Channel

open BhtBhte.Lib

/-- A byte string of fixed length, as `common.Hash` and `common.Address`. -/
abbrev ByteArrayOf (n : ℕ) := { l : List UInt8 // l.length = n }
abbrev Hash := ByteArrayOf 32
abbrev Address := ByteArrayOf 20

/-- `Hash.Hex`: all digits, after `0x`. -/
def hashHex (h : Hash) : String := "0x" ++ String.ofList (hexEncode h.1)

/-- The cryptographic functions the manager calls.  `sigToAddress` is `SigToPub` followed
by `PubkeyToAddress`. -/
structure Crypto where
  sha256 : List UInt8 → List UInt8
  sigToAddress : List UInt8 → List UInt8 → Option Address

def challengePeriod : ℕ := 7 * 24 * 60 * 60 * 10 ^ 9
def maxChannelAmount : UInt64 := 1000000000000000000
def maxChannelBalance : UInt64 := 1000000000000000000

/-- The states of a channel. -/
inductive ChannelState where
  | stateOpen
  | stateClosing
  | stateClosed
  | stateDisputed
  deriving DecidableEq

def ChannelState.string : ChannelState → String
  | .stateOpen => "Open"
  | .stateClosing => "Closing"
  | .stateClosed => "Closed"
  | .stateDisputed => "Disputed"

/-- A channel between two parties. -/
structure PaymentChannel where
  channelID : Hash
  participants : Fin 2 → Address
  balance : Fin 2 → UInt64
  sequence : UInt64 := 0
  state : ChannelState := .stateOpen
  openTime : ℕ
  closeTime : ℕ := 0
  challengeEnd : ℕ := 0
  disputeNonce : UInt64 := 0

/-- The manager with the heap its channels live on. -/
structure Manager where
  heap : List PaymentChannel
  channels : Hash → Option ℕ
  byParticipant : Address → List Hash
  byState : ChannelState → List Hash

def newChannelManager : Manager where
  heap := []
  channels _ := none
  byParticipant _ := []
  byState _ := []

/-- The pointer and the object behind an identifier. -/
def Manager.lookup (m : Manager) (channelID : Hash) : Option (ℕ × PaymentChannel) :=
  (m.channels channelID).bind fun k => (m.heap[k]?).map fun channel => (k, channel)

/-- Write the object behind a pointer. -/
def Manager.store (m : Manager) (k : ℕ) (channel : PaymentChannel) : Manager :=
  { m with heap := m.heap.set k channel }

/-- Move an identifier from one list of the state index to another. -/
def Manager.updateStateIndex (m : Manager) (channelID : Hash) (old new : ChannelState) :
    Manager :=
  let moved := Function.update m.byState old ((m.byState old).filter (· ≠ channelID))
  { m with byState := Function.update moved new (moved new ++ [channelID]) }

/-- The low 64 bits of a time, most significant byte first. -/
def timeBytes (now : ℕ) : List UInt8 :=
  (List.range 8).map fun i => UInt8.ofNat (now / 256 ^ (7 - i))

/-- Random bytes, the last eight of them overwritten by the clock. -/
def generateChannelID (random : ByteArrayOf 24) (now : ℕ) : Hash :=
  ⟨random.1 ++ timeBytes now, by simp [random.2, timeBytes]⟩

/-- `%d`. -/
def decimal (n : UInt64) : String := String.ofList (Nat.toDigits 10 n.toNat)

/-- The text whose digest is signed. -/
def sigData (channelID : Hash) (newBalance : Fin 2 → UInt64) (seq : UInt64) : String :=
  hashHex channelID ++ decimal (newBalance 0) ++ decimal (newBalance 1) ++ decimal seq

/-- The three numbers of an update as they are printed. -/
def digits (newBalance : Fin 2 → UInt64) (seq : UInt64) : String :=
  decimal (newBalance 0) ++ decimal (newBalance 1) ++ decimal seq

/-- The three numbers apart. -/
def pieces (newBalance : Fin 2 → UInt64) (seq : UInt64) : List (List Char) :=
  [(decimal (newBalance 0)).toList, (decimal (newBalance 1)).toList, (decimal seq).toList]

/-! ## Operations -/

/-- Open a channel with an initial balance of the first party. -/
def openChannel (p1 p2 : Address) (initialBalance : UInt64) (random : ByteArrayOf 24) (now : ℕ)
    (m : Manager) : Except String Manager :=
  if p1 = p2 then .error "cannot create channel with same participant"
  else if initialBalance > maxChannelAmount then
    .error ("initial balance exceeds maximum: " ++ decimal initialBalance ++ " > " ++
      decimal maxChannelAmount)
  else
    let channelID := generateChannelID random now
    let withFirst := Function.update m.byParticipant p1 (m.byParticipant p1 ++ [channelID])
    .ok
      { heap := m.heap ++ [{ channelID := channelID, participants := ![p1, p2]
                             balance := ![initialBalance, 0], openTime := now }]
        channels := Function.update m.channels channelID (some m.heap.length)
        byParticipant := Function.update withFirst p2 (withFirst p2 ++ [channelID])
        byState := Function.update m.byState .stateOpen (m.byState .stateOpen ++ [channelID]) }

/-- Either participant's signature passes. -/
def verifyChannelSignature (C : Crypto) (channel : PaymentChannel) (newBalance : Fin 2 → UInt64)
    (seq : UInt64) (signature : List UInt8) : Bool :=
  if signature.length = 0 then false
  else if signature.length < 64 then false
  else
    match C.sigToAddress (C.sha256 (sigData channel.channelID newBalance seq).toUTF8.toList)
        signature with
    | none => false
    | some signerAddr =>
      if signerAddr ≠ channel.participants 0 ∧ signerAddr ≠ channel.participants 1 then false
      else true

/-- Set the balances of an open channel, given a signature and a higher sequence number. -/
def updateBalance (C : Crypto) (channelID : Hash) (newBalance : Fin 2 → UInt64) (seq : UInt64)
    (signature : List UInt8) (m : Manager) : Except String Manager :=
  match m.lookup channelID with
  | none => .error "channel not found"
  | some (k, channel) =>
    if channel.state ≠ .stateOpen then .error ("channel not open: " ++ channel.state.string)
    else if seq ≤ channel.sequence then
      .error ("invalid sequence: " ++ decimal seq ++ " <= " ++ decimal channel.sequence)
    else
      let totalOld := channel.balance 0 + channel.balance 1
      let totalNew := newBalance 0 + newBalance 1
      if totalNew ≠ totalOld then
        .error ("balance mismatch: total changed from " ++ decimal totalOld ++ " to " ++
          decimal totalNew)
      else if newBalance 0 > maxChannelBalance then
        .error ("balance 0 exceeds maximum: " ++ decimal maxChannelBalance)
      else if newBalance 1 > maxChannelBalance then
        .error ("balance 1 exceeds maximum: " ++ decimal maxChannelBalance)
      else if !verifyChannelSignature C channel newBalance seq signature then
        .error "invalid signature"
      else .ok (m.store k { channel with balance := newBalance, sequence := seq })

/-- Begin to close an open channel. -/
def closeChannel (channelID : Hash) (initiator : UInt8) (now : ℕ) (m : Manager) :
    Except String Manager :=
  match m.lookup channelID with
  | none => .error "channel not found"
  | some (k, channel) =>
    if channel.state ≠ .stateOpen then .error ("channel not open: " ++ channel.state.string)
    else if initiator > 1 then .error ("invalid initiator: " ++ toString initiator.toNat)
    else
      let closing := { channel with
        state := .stateClosing, closeTime := now, challengeEnd := now + challengePeriod }
      .ok ((m.store k closing).updateStateIndex channelID .stateOpen .stateClosing)

/-- Close a channel after its challenge period. -/
def confirmClose (channelID : Hash) (now : ℕ) (m : Manager) : Except String Manager :=
  match m.lookup channelID with
  | none => .error "channel not found"
  | some (k, channel) =>
    if channel.state ≠ .stateClosing then .error ("channel not closing: " ++ channel.state.string)
    else if now < channel.challengeEnd then .error "challenge period not ended"
    else
      .ok ((m.store k { channel with state := .stateClosed }).updateStateIndex channelID
        .stateClosing .stateClosed)

/-- The state is written before it is compared, so neither comparison holds and the index
is never moved. -/
def disputeChannel (channelID : Hash) (m : Manager) : Except String Manager :=
  match m.lookup channelID with
  | none => .error "channel not found"
  | some (k, channel) =>
    if channel.state = .stateClosed then .error "channel already closed"
    else
      let disputed := { channel with
        state := .stateDisputed, disputeNonce := channel.disputeNonce + 1 }
      let m' := m.store k disputed
      .ok (if disputed.state = .stateClosing then
          m'.updateStateIndex channelID .stateClosing .stateDisputed
        else if disputed.state = .stateOpen then
          m'.updateStateIndex channelID .stateOpen .stateDisputed
        else m')

/-! ## Queries -/

/-- The channels behind some identifiers; identifiers that lead nowhere are skipped. -/
def Manager.getChannels (m : Manager) (channelIDs : List Hash) : List (ℕ × PaymentChannel) :=
  channelIDs.filterMap m.lookup

def getChannelsByParticipant (addr : Address) (m : Manager) : List (ℕ × PaymentChannel) :=
  m.getChannels (m.byParticipant addr)

def getChannelsByState (state : ChannelState) (m : Manager) : List (ℕ × PaymentChannel) :=
  m.getChannels (m.byState state)

def getOpenChannels (m : Manager) : List (ℕ × PaymentChannel) := getChannelsByState .stateOpen m

/-- The operations that write. -/
inductive Op where
  | openChannel (p1 p2 : Address) (initialBalance : UInt64) (random : ByteArrayOf 24) (now : ℕ)
  | updateBalance (channelID : Hash) (newBalance : Fin 2 → UInt64) (seq : UInt64)
      (signature : List UInt8)
  | closeChannel (channelID : Hash) (initiator : UInt8) (now : ℕ)
  | confirmClose (channelID : Hash) (now : ℕ)
  | disputeChannel (channelID : Hash)

def Op.apply (C : Crypto) : Op → Manager → Except String Manager
  | .openChannel p1 p2 d random now, m => Channel.openChannel p1 p2 d random now m
  | .updateBalance id nb seq sig, m => Channel.updateBalance C id nb seq sig m
  | .closeChannel id initiator now, m => Channel.closeChannel id initiator now m
  | .confirmClose id now, m => Channel.confirmClose id now m
  | .disputeChannel id, m => Channel.disputeChannel id m

/-- A call that succeeds: the channel it finds, the guards it passes and what it leaves. -/
inductive Effect (C : Crypto) (m : Manager) : Op → Manager → Prop
  | opened {p1 p2 d random now} (hne : p1 ≠ p2) (hle : d ≤ maxChannelAmount) :
      Effect C m (.openChannel p1 p2 d random now)
        (let id := generateChannelID random now
        let withFirst := Function.update m.byParticipant p1 (m.byParticipant p1 ++ [id])
        { heap := m.heap ++ [{ channelID := id, participants := ![p1, p2]
                               balance := ![d, 0], openTime := now }]
          channels := Function.update m.channels id (some m.heap.length)
          byParticipant := Function.update withFirst p2 (withFirst p2 ++ [id])
          byState := Function.update m.byState .stateOpen (m.byState .stateOpen ++ [id]) })
  | updated {id nb seq sig k ch} (hlook : m.lookup id = some (k, ch))
      (hopen : ch.state = .stateOpen) (hseq : ch.sequence < seq)
      (htotal : nb 0 + nb 1 = ch.balance 0 + ch.balance 1)
      (hmax : ∀ i, nb i ≤ maxChannelBalance)
      (hsig : verifyChannelSignature C ch nb seq sig = true) :
      Effect C m (.updateBalance id nb seq sig) (m.store k { ch with balance := nb, sequence := seq })
  | closing {id initiator now k ch} (hlook : m.lookup id = some (k, ch))
      (hopen : ch.state = .stateOpen) :
      Effect C m (.closeChannel id initiator now)
        ((m.store k { ch with
            state := .stateClosing, closeTime := now
            challengeEnd := now + challengePeriod }).updateStateIndex id .stateOpen .stateClosing)
  | closed {id now k ch} (hlook : m.lookup id = some (k, ch)) (hclosing : ch.state = .stateClosing) :
      Effect C m (.confirmClose id now)
        ((m.store k { ch with state := .stateClosed }).updateStateIndex id .stateClosing
          .stateClosed)
  | disputed {id k ch} (hlook : m.lookup id = some (k, ch)) (hclosed : ch.state ≠ .stateClosed) :
      Effect C m (.disputeChannel id)
        (m.store k { ch with state := .stateDisputed, disputeNonce := ch.disputeNonce + 1 })

theorem effect_of_apply {C : Crypto} {op : Op} {m m' : Manager} (h : op.apply C m = .ok m') :
    Effect C m op m' := by
  cases op with
  | openChannel p1 p2 d random now =>
      simp only [Op.apply, openChannel] at h
      split_ifs at h with hne hle
      cases h
      exact .opened hne (UInt64.not_lt.mp hle)
  | updateBalance id nb seq sig =>
      simp only [Op.apply, updateBalance] at h
      split at h
      · cases h
      · next k ch hlook =>
        split_ifs at h with hopen hseq htotal hzero hone hsig
        cases h
        exact .updated hlook (not_not.mp hopen) (UInt64.not_le.mp hseq) (not_not.mp htotal)
          (Fin.forall_fin_two.mpr ⟨UInt64.not_lt.mp hzero, UInt64.not_lt.mp hone⟩)
          (by simpa using hsig)
  | closeChannel id initiator now =>
      simp only [Op.apply, closeChannel] at h
      split at h
      · cases h
      · next k ch hlook =>
        split_ifs at h with hopen
        cases h
        exact .closing hlook (not_not.mp hopen)
  | confirmClose id now =>
      simp only [Op.apply, confirmClose] at h
      split at h
      · cases h
      · next k ch hlook =>
        split_ifs at h with hclosing
        cases h
        exact .closed hlook (not_not.mp hclosing)
  | disputeChannel id =>
      simp only [Op.apply, disputeChannel, reduceCtorEq, if_false] at h
      split at h
      · cases h
      · next k ch hlook =>
        split_ifs at h with hclosed
        cases h
        exact .disputed hlook hclosed

end BhtBhte.Channel
