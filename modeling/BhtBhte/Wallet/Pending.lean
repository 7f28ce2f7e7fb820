import BhtBhte.Lib.Bytes
import BhtBhte.Lib.FinMap
import BhtBhte.Lib.Locks
import BhtBhte.Lib.Runs
import BhtBhte.Wallet.Transaction

/-!
# The pending transactions of a wallet

`Signtx`, `calculateTxHash` and `RemovePendingTx` of `wallet.go`.  `Signtx` holds the mutex of the
wallet for writing when it calls `calculateTxHash`, which asks for it again to read.  The nonce is
the number of pending transactions, which a removal lowers.  The fields of a wallet that these calls
do not read are left out.  So no call of `Signtx` ends, and `orderly_iff` says which runs are
orderly.
-/
namespace BhtBhte.Wallet

open BhtBhte.Lib
open BhtBhte.Lib.Locked (locking reading)
open BhtBhte.Channel (ByteArrayOf Address)

/-- A pending transaction. -/
structure PendingTx where
  hash : ByteArrayOf 32
  toAddress : Address
  value : UInt64
  gasPrice : UInt64
  gasLimit : UInt64
  nonce : UInt64
  timestamp : Int64
  deriving DecidableEq

/-- The wallet, as far as these calls read it. -/
structure GoWallet where
  pendingTxs : FinMap (ByteArrayOf 32) PendingTx

/-- The mutex of a wallet. -/
inductive Mutex where
  | mu
  deriving DecidableEq

/-- Computations of the wallet with their operations on the mutex. -/
abbrev Guarded := Locked Mutex GoWallet

/-- What a caller of `Signtx` asks for. -/
structure Payment where
  toAddress : Address
  value : UInt64
  gasPrice : UInt64
  gasLimit : UInt64
  data : List UInt8

namespace GoWallet

/-- The nonce that is assigned next. -/
def nextNonce (w : GoWallet) : UInt64 := UInt64.ofNat w.pendingTxs.keys.length

/-- Keep a transaction under its hash. -/
def store (pendingTx : PendingTx) (w : GoWallet) : GoWallet where
  pendingTxs := w.pendingTxs.insert pendingTx.hash pendingTx

/-- Forget the transaction of a hash. -/
def remove (hash : ByteArrayOf 32) (w : GoWallet) : GoWallet where
  pendingTxs := w.pendingTxs.erase hash

end GoWallet

namespace Guarded
variable (C : GoCrypto)

/-- The hash of a payment with a nonce, under the mutex. -/
def calculateTxHash (p : Payment) (nonce : UInt64) : Guarded (ByteArrayOf 32) :=
  reading .mu
    (pure (Wallet.calculateTxHash C p.toAddress p.value p.gasPrice p.gasLimit nonce p.data))

/-- Give a payment the next nonce and keep it, under the mutex. -/
def signtx (p : Payment) : Guarded (ByteArrayOf 32) :=
  locking .mu do
    let w ← Locked.get
    let nonce := w.nextNonce
    let txHash ← calculateTxHash C p nonce
    let pendingTx : PendingTx :=
      { hash := txHash, toAddress := p.toAddress, value := p.value, gasPrice := p.gasPrice
        gasLimit := p.gasLimit, nonce, timestamp := 0 }
    Locked.modify (GoWallet.store pendingTx)
    pure txHash

/-- Forget a transaction, under the mutex. -/
def removePendingTx (hash : ByteArrayOf 32) : Guarded Unit :=
  locking .mu (Locked.modify (GoWallet.remove hash))

end Guarded

/-- The transaction that `Signtx` stores. -/
def Payment.pendingTx (C : GoCrypto) (p : Payment) (w : GoWallet) : PendingTx where
  hash := calculateTxHash C p.toAddress p.value p.gasPrice p.gasLimit w.nextNonce p.data
  toAddress := p.toAddress
  value := p.value
  gasPrice := p.gasPrice
  gasLimit := p.gasLimit
  nonce := w.nextNonce
  timestamp := 0

/-! ## Runs -/

inductive Op where
  | signtx (p : Payment)
  | removePendingTx (hash : ByteArrayOf 32)

namespace Op

def IsSigntx : Op → Prop
  | signtx _ => True
  | removePendingTx _ => False

/-- The operations on the mutex of a call that finds the wallet like this. -/
def trace (C : GoCrypto) (w : GoWallet) : Op → List (LockOp Mutex)
  | signtx p => (Guarded.signtx C p).trace w
  | removePendingTx hash => (Guarded.removePendingTx hash).trace w

/-- The call never waits for itself. -/
def Returns (C : GoCrypto) (w : GoWallet) (op : Op) : Prop := Free [] (op.trace C w)

/-- The call overwrites no pending transaction with another one. -/
def Keeps (C : GoCrypto) (w : GoWallet) : Op → Prop
  | signtx p => ∀ old, w.pendingTxs.get? (p.pendingTx C w).hash = some old → old = p.pendingTx C w
  | removePendingTx _ => True

end Op

section
variable (C : GoCrypto)

/-- The wallet after a call that was granted its mutex. -/
def exec : Op → GoWallet → GoWallet
  | .signtx p, w => (Guarded.signtx C p).state w
  | .removePendingTx hash, w => (Guarded.removePendingTx hash).state w

/-- The nonces that a run assigns, in order. -/
def assigned : List Op → GoWallet → List UInt64
  | [], _ => []
  | .signtx p :: ops, w => w.nextNonce :: assigned ops (exec C (.signtx p) w)
  | .removePendingTx hash :: ops, w => assigned ops (exec C (.removePendingTx hash) w)

/-- Every call returns, no nonce is assigned twice, and nothing is overwritten. -/
structure Orderly (ops : List Op) (w : GoWallet) : Prop where
  returns : Allowed (exec C) (fun w op => op.Returns C w) ops w
  nonces : (assigned C ops w).Nodup
  keeps : Allowed (exec C) (fun w op => op.Keeps C w) ops w

end

section
variable {C : GoCrypto} {w : GoWallet} {p : Payment} {hash : ByteArrayOf 32} {ops : List Op}

/-- **`Signtx` asks for the mutex that it holds.** -/
theorem trace_signtx (C : GoCrypto) (p : Payment) (w : GoWallet) :
    (Guarded.signtx C p).trace w = [.lock .mu, .rlock .mu, .runlock .mu, .unlock .mu] := rfl

theorem trace_removePendingTx (hash : ByteArrayOf 32) (w : GoWallet) :
    (Guarded.removePendingTx hash).trace w = [.lock .mu, .unlock .mu] := rfl

theorem not_free_signtx (C : GoCrypto) (p : Payment) (w : GoWallet) :
    ¬ Free [] ((Guarded.signtx C p).trace w) := by
  rw [trace_signtx]
  intro hfree
  exact hfree.2.1 (List.mem_singleton.mpr rfl)

/-- A call returns by itself when it is a removal. -/
theorem returns_iff {op : Op} : op.Returns C w ↔ ¬ op.IsSigntx := by
  cases op with
  | signtx p => exact iff_of_false (not_free_signtx C p w) fun h => h trivial
  | removePendingTx hash =>
      refine iff_of_true ?_ id
      rw [Op.Returns, Op.trace, trace_removePendingTx]
      simp [Free, LockOp.Conflicts]

/-- **No call of `Signtx` ends**, whatever runs beside it. -/
theorem signtx_never_returns {ι : Type} [DecidableEq ι] {callers callers' : ι → Caller Mutex}
    {i : ι} (hcall : callers i = starting ((Guarded.signtx C p).trace w))
    (hrun : Together callers callers') : (callers' i).rest ≠ [] := by
  refine not_finished (i := i) hrun ?_
  rw [hcall]
  exact not_free_signtx C p w

theorem assigned_of_removals (h : ∀ op ∈ ops, ¬ op.IsSigntx) (w : GoWallet) :
    assigned C ops w = [] := by
  induction ops generalizing w with
  | nil => rfl
  | cons op ops ih =>
      cases op with
      | signtx p => exact absurd trivial (h _ List.mem_cons_self)
      | removePendingTx hash => exact ih (fun op hop => h op (List.mem_cons_of_mem _ hop)) _

theorem keeps_of_removals (h : ∀ op ∈ ops, ¬ op.IsSigntx) (w : GoWallet) :
    Allowed (exec C) (fun w op => op.Keeps C w) ops w := by
  induction ops generalizing w with
  | nil => trivial
  | cons op ops ih =>
      refine ⟨?_, ih (fun op hop => h op (List.mem_cons_of_mem _ hop)) _⟩
      cases op with
      | signtx p => exact absurd trivial (h _ List.mem_cons_self)
      | removePendingTx hash => trivial

theorem returns_run_iff (w : GoWallet) :
    Allowed (exec C) (fun w op => op.Returns C w) ops w ↔ ∀ op ∈ ops, ¬ op.IsSigntx := by
  induction ops generalizing w with
  | nil => simp [Allowed]
  | cons op ops ih => rw [Allowed, ih, returns_iff, List.forall_mem_cons]

end

/-- **A run is orderly exactly when it does not call `Signtx`.** -/
theorem orderly_iff (C : GoCrypto) (ops : List Op) (w : GoWallet) :
    Orderly C ops w ↔ ∀ op ∈ ops, ¬ op.IsSigntx := by
  constructor
  · exact fun h => (returns_run_iff w).mp h.returns
  · intro h
    refine ⟨(returns_run_iff w).mpr h, ?_, keeps_of_removals h w⟩
    rw [assigned_of_removals h]
    exact List.nodup_nil

def newWallet : GoWallet := ⟨∅⟩

/-- A run of one payment is not orderly: it does not end. -/
theorem not_orderly_payment :
    ¬ Orderly (signing []) [.signtx ⟨someReceiver, 1, 2, 4, []⟩] newWallet ∧
      ¬ (Op.signtx ⟨someReceiver, 1, 2, 4, []⟩).Returns (signing []) newWallet := by
  have hstuck : ¬ (Op.signtx ⟨someReceiver, 1, 2, 4, []⟩).Returns (signing []) newWallet :=
    fun h => returns_iff.mp h trivial
  exact ⟨fun h => hstuck h.returns.1, hstuck⟩

end BhtBhte.Wallet
