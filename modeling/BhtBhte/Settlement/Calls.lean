import BhtBhte.Lib.Reentrant
import BhtBhte.Settlement.Contract

/-!
# Runs of the settlement contract

A world is the contract's storage with a time-stamped trace of what happened to it:
the events it emitted and the ether it paid out.  Reverting drops storage and trace
together.  A run is a list of transactions, each a tree of calls at one block
timestamp, so a recipient may call back into the contract while it is being paid.
-/
namespace BhtBhte.Settlement

open BhtBhte.Lib

/-- A call to an entry point that can change the contract. -/
inductive Call where
  | approveAnchor (blockHeight : ℕ) (stateRoot txHash : Bytes32)
  | submitAnchor (blockHeight : ℕ) (stateRoot txHash : Bytes32) (proof : List UInt8)
  | initiateWithdrawal (l2TxHash : Bytes32) (recipient : Address) (amount anchorHeight : ℕ)
      (merkleProof : List Bytes32) (leafIndex : ℕ)
  | processWithdrawal (l2TxHash : Bytes32)
  | challengeWithdrawal (l2TxHash : Bytes32) (reason : String) (evidence : List UInt8)
  | submitFraudProof (blockHeight : ℕ) (invalidStateRoot validStateRoot : Bytes32)
      (proof : List UInt8)
  | resolveFraudProof (blockHeight : ℕ) (isFraud : Bool)
  | updateBridge (newBridge : Address)
  | updateSequencer (newSequencer : Address)
  | setAnchorValidator (validator : Address) (enabled : Bool)
  | setAnchorThreshold (newThreshold : ℕ)
  | pause
  | unpause
  | transferOwnership (newOwner : Address)
  | renounceOwnership
  | addVerifiedMLDSACommitment (message : Bytes32) (signature pubkey : List UInt8)
  | batchAddVerifiedMLDSACommitments (messages : List Bytes32)
      (signatures pubkeys : List (List UInt8))
  | receive (value : ℕ)

/-- What the trace records. -/
inductive Item where
  | event (e : Event)
  | payout (l2TxHash : Bytes32) (recipient : Address) (amount : ℕ)
  deriving DecidableEq

/-- One trace entry with the block timestamp it was made at. -/
structure Entry where
  time : ℕ
  item : Item
  deriving DecidableEq

structure World where
  contract : State
  trace : List Entry

/-- Append events at one timestamp. -/
def World.emit (w : World) (time : ℕ) (events : List Event) : World :=
  { w with trace := w.trace ++ events.map fun e => ⟨time, .event e⟩ }

/-- The entry points that never hand control out. -/
def Call.body (P : Primitives) (msg : Msg) : Call → State →
    Except String (State × List Event)
  | .approveAnchor h r t, c => Settlement.approveAnchor P msg h r t c
  | .submitAnchor h r t p, c => Settlement.submitAnchor P msg h r t p c
  | .initiateWithdrawal l r a h p i, c => Settlement.initiateWithdrawal P msg l r a h p i c
  | .processWithdrawal _, _ => .error "hands control out"
  | .challengeWithdrawal l r e, c => Settlement.challengeWithdrawal msg l r e c
  | .submitFraudProof h i v p, c => Settlement.submitFraudProof msg h i v p c
  | .resolveFraudProof h f, c => Settlement.resolveFraudProof msg h f c
  | .updateBridge b, c => Settlement.updateBridge msg b c
  | .updateSequencer s, c => Settlement.updateSequencer msg s c
  | .setAnchorValidator v e, c => Settlement.setAnchorValidator msg v e c
  | .setAnchorThreshold t, c => Settlement.setAnchorThreshold msg t c
  | .pause, c => Settlement.pause msg c
  | .unpause, c => Settlement.unpause msg c
  | .transferOwnership o, c => Settlement.transferOwnership msg o c
  | .renounceOwnership, c => Settlement.renounceOwnership msg c
  | .addVerifiedMLDSACommitment m s k, c => Settlement.addVerifiedMLDSACommitment P msg m s k c
  | .batchAddVerifiedMLDSACommitments m s k, c =>
    Settlement.batchAddVerifiedMLDSACommitments P msg m s k c
  | .receive v, c => Settlement.receive v c

/-- A call by `sender` in a block at `time`.  Only `processWithdrawal` hands control
to somebody else, after the value has been sent. -/
def enter (P : Primitives) (time : ℕ) (call : Address × Call) (w : World) : Outcome World :=
  match call.2 with
  | .processWithdrawal l2TxHash =>
    match processWithdrawalEnter ⟨call.1, time⟩ l2TxHash w.contract with
    | .error _ => .revert
    | .ok c =>
      let withdrawal := w.contract.withdrawals l2TxHash
      .callOut
        { contract := c
          trace := w.trace ++
            [⟨time, .payout l2TxHash withdrawal.recipient withdrawal.amount⟩] }
        fun w' =>
          let (c', events) := processWithdrawalExit l2TxHash w'.contract
          some (World.emit { w' with contract := c' } time events)
  | _ =>
    match call.2.body P ⟨call.1, time⟩ w.contract with
    | .error _ => .revert
    | .ok (c, events) => .done (World.emit { w with contract := c } time events)

/-- One transaction: a tree of calls in a block at `time`. -/
structure Transaction where
  time : ℕ
  action : Action (Address × Call)

/-- The world after a list of transactions. -/
def run (P : Primitives) : List Transaction → World → World
  | [], w => w
  | t :: ts, w => run P ts (t.action.exec (enter P t.time) w)

/-- The worlds that transactions reach from a deployment. -/
def Reachable (P : Primitives) (w : World) : Prop :=
  ∃ msg bridge sequencer verifier c ts,
    constructor msg bridge sequencer verifier = .ok c ∧ w = run P ts ⟨c, []⟩

/-- The worlds in which somebody outside the contract can have control, at any depth
of nested calls. -/
inductive Visible (P : Primitives) : World → Prop
  | deployed {msg bridge sequencer verifier c}
      (h : constructor msg bridge sequencer verifier = .ok c) : Visible P ⟨c, []⟩
  | done {time call w w'} (hw : Visible P w) (h : enter P time call w = .done w') : Visible P w'
  | callOut {time call w w' resume} (hw : Visible P w)
      (h : enter P time call w = .callOut w' resume) : Visible P w'
  | resume {time call w w' resume v v'} (h : enter P time call w = .callOut w' resume)
      (hv : Visible P v) (hr : resume v = some v') : Visible P v'

/-- A property of every deployed contract that every entry point preserves, at its
external call included, holds wherever somebody outside has control. -/
theorem Visible.induction {P : Primitives} {Inv : World → Prop}
    (hinit : ∀ msg bridge sequencer verifier c,
      constructor msg bridge sequencer verifier = .ok c → Inv ⟨c, []⟩)
    (hstep : ∀ time, Preserved (enter P time) Inv) {w : World} (hw : Visible P w) : Inv w := by
  induction hw with
  | deployed h => exact hinit _ _ _ _ _ h
  | done _ h ih => exact (hstep _).done ih h
  | callOut _ h ih => exact (hstep _).callOut ih h
  | resume h _ hr ih => exact (hstep _).resume h ih hr

/-- A property of every deployed contract that every entry point preserves, at its
external call included, holds in every reachable world. -/
theorem Reachable.induction {P : Primitives} {Inv : World → Prop}
    (hinit : ∀ msg bridge sequencer verifier c,
      constructor msg bridge sequencer verifier = .ok c → Inv ⟨c, []⟩)
    (hstep : ∀ time, Preserved (enter P time) Inv) {w : World} (hw : Reachable P w) : Inv w := by
  obtain ⟨msg, bridge, sequencer, verifier, c, ts, hc, rfl⟩ := hw
  have hrun : ∀ (ts : List Transaction) (w : World), Inv w → Inv (run P ts w) := by
    intro ts
    induction ts with
    | nil => intro w hw; exact hw
    | cons t ts ih => intro w hw; exact ih _ ((hstep t.time).exec t.action w hw)
  exact hrun ts _ (hinit msg bridge sequencer verifier c hc)

theorem Reachable.visible {P : Primitives} {w : World} (hw : Reachable P w) : Visible P w :=
  Reachable.induction (fun _ _ _ _ _ h => .deployed h)
    (fun _ => ⟨fun hw h => .done hw h, fun hw h => .callOut hw h, fun h hv hr => .resume h hv hr⟩)
    hw

/-! ## What one call does

Every later invariant reads the two lemmas of this section instead of the entry
points. -/

/-- A returning call ran its body. -/
theorem enter_eq_done {P : Primitives} {time : ℕ} {msg : Address × Call} {w w' : World}
    (h : enter P time msg w = .done w') :
    ∃ c events, msg.2.body P ⟨msg.1, time⟩ w.contract = .ok (c, events) ∧
      w' = World.emit { w with contract := c } time events := by
  unfold enter at h
  split at h
  · split at h <;> cases h
  · split at h
    · cases h
    · rename_i c events hbody
      cases h
      exact ⟨c, events, hbody, rfl⟩

/-- Control is handed out only by `processWithdrawal`, with the flag already set. -/
theorem enter_eq_callOut {P : Primitives} {time : ℕ} {msg : Address × Call} {w w' : World}
    {resume : World → Option World} (h : enter P time msg w = .callOut w' resume) :
    ∃ l2TxHash c, msg.2 = .processWithdrawal l2TxHash ∧
      processWithdrawalEnter ⟨msg.1, time⟩ l2TxHash w.contract = .ok c ∧
      w' = { contract := c
             trace := w.trace ++ [⟨time, .payout l2TxHash
               (w.contract.withdrawals l2TxHash).recipient
               (w.contract.withdrawals l2TxHash).amount⟩] } ∧
      resume = fun v => some (World.emit { v with contract := (processWithdrawalExit l2TxHash
        v.contract).1 } time (processWithdrawalExit l2TxHash v.contract).2) := by
  unfold enter at h
  split at h
  · rename_i l2TxHash hcall
    split at h
    · cases h
    · rename_i c hc
      cases h
      exact ⟨l2TxHash, c, hcall, hc, rfl, rfl⟩
  · split at h <;> cases h

/-- An invariant of the bodies, of the payments and of what follows a payment is one of every
call. -/
theorem Preserved.of_calls {P : Primitives} {Inv : World → Prop} {time : ℕ}
    (hbody : ∀ {msg : Msg} {call : Call} {w : World} {c : State} {events : List Event}, Inv w →
      call.body P msg w.contract = .ok (c, events) →
      Inv (World.emit { w with contract := c } msg.timestamp events))
    (hpay : ∀ {msg : Msg} {l : Bytes32} {w : World} {c : State}, Inv w →
      processWithdrawalEnter msg l w.contract = .ok c →
      Inv { contract := c
            trace := w.trace ++ [⟨msg.timestamp, .payout l (w.contract.withdrawals l).recipient
              (w.contract.withdrawals l).amount⟩] })
    (hexit : ∀ {l : Bytes32} {w : World}, Inv w →
      Inv (World.emit { w with contract := (processWithdrawalExit l w.contract).1 } time
        (processWithdrawalExit l w.contract).2)) :
    Preserved (enter P time) Inv where
  done := by
    intro msg w w' hw h
    obtain ⟨c, events, hok, rfl⟩ := enter_eq_done h
    exact hbody hw hok
  callOut := by
    intro msg w w' resume hw h
    obtain ⟨l, c, -, henter, rfl, -⟩ := enter_eq_callOut h
    exact hpay hw henter
  resume := by
    intro msg w w' resume v v' h hv hres
    obtain ⟨l, c, -, -, -, rfl⟩ := enter_eq_callOut h
    cases hres
    exact hexit hv

end BhtBhte.Settlement
