import BhtBhte.Lib.Bytes
import BhtBhte.Lib.FinMap
import BhtBhte.Lib.Runs
import BhtBhte.Wallet.Transaction

/-!
# The wallet manager

`WalletManager` of `wallet.go`.  A wallet is anything that has an address.  The zero address stands
for no default, and a removal of the default makes the first wallet that the map gives the new one.
There is a default exactly when there is a wallet (`managed_run`).
-/
namespace BhtBhte.Wallet

open BhtBhte.Lib
open BhtBhte.Channel (Address)

/-- `common.Address{}`. -/
def noAddress : Address := filled 20 0

/-- The wallets by address, and the address of the default one. -/
structure WalletManager (W : Type) where
  wallets : FinMap Address W := ∅
  defaultAddr : Address := noAddress

variable {W : Type} (address : W → Address)

namespace WalletManager

/-- Add a wallet; the first one becomes the default. -/
def addWallet (m : WalletManager W) (wallet : W) : WalletManager W :=
  { wallets := m.wallets.insert (address wallet) wallet
    defaultAddr := if m.defaultAddr = noAddress then address wallet else m.defaultAddr }

def getWallet (m : WalletManager W) (addr : Address) : Option W := m.wallets.get? addr

def getDefaultWallet (m : WalletManager W) : Option W := m.wallets.get? m.defaultAddr

/-- The map gives its wallets in the order `σ`. -/
def removeWallet (m : WalletManager W) (σ : RangeOrder) (addr : Address) : WalletManager W :=
  let wallets := m.wallets.erase addr
  { wallets := wallets
    defaultAddr := if m.defaultAddr = addr then
        ((wallets.range σ).head?.map fun e => address e.2).getD noAddress
      else m.defaultAddr }

def listWallets (m : WalletManager W) (σ : RangeOrder) : List W := (m.wallets.range σ).map Prod.snd

/-- `none` is an error. -/
def setDefaultWallet (m : WalletManager W) (addr : Address) : Option (WalletManager W) :=
  if (m.wallets.get? addr).isNone then none else some { m with defaultAddr := addr }

end WalletManager

/-- The calls that change a manager. -/
inductive ManagerOp (W : Type) where
  | addWallet (wallet : W)
  | removeWallet (σ : RangeOrder) (addr : Address)
  | setDefaultWallet (addr : Address)

def ManagerOp.exec (op : ManagerOp W) (m : WalletManager W) : WalletManager W :=
  match op with
  | .addWallet wallet => m.addWallet address wallet
  | .removeWallet σ addr => m.removeWallet address σ addr
  | .setDefaultWallet addr => (m.setDefaultWallet addr).getD m

/-- What one call does to the wallet under an address. -/
def ManagerOp.keep (addr : Address) (old : Option W) : ManagerOp W → Option W
  | .addWallet wallet => if address wallet = addr then some wallet else old
  | .removeWallet _ addr' => if addr' = addr then none else old
  | .setDefaultWallet _ => old

/-- The wallet with this address that was added last, unless it was removed since. -/
def held (addr : Address) (ops : List (ManagerOp W)) : Option W :=
  ops.foldl (ManagerOp.keep address addr) none

/-! ## What a call keeps -/

/-- Every wallet is under its address, and the default is one of them, or zero when there is
none. -/
structure Managed (m : WalletManager W) : Prop where
  addresses : ∀ addr wallet, m.wallets.get? addr = some wallet → address wallet = addr
  default : (∀ addr, m.wallets.get? addr = none) ∧ m.defaultAddr = noAddress ∨
    ∃ wallet, m.getDefaultWallet = some wallet

theorem managed_new : Managed address ({} : WalletManager W) :=
  ⟨fun addr wallet h => by simp at h, .inl ⟨fun addr => FinMap.get?_empty addr, rfl⟩⟩

variable {address} {m : WalletManager W}

theorem get?_exec (op : ManagerOp W) (m : WalletManager W) (addr : Address) :
    (op.exec address m).wallets.get? addr = op.keep address addr (m.wallets.get? addr) := by
  cases op with
  | addWallet wallet =>
      rw [ManagerOp.keep]
      by_cases h : address wallet = addr
      · rw [if_pos h, ← h]
        exact FinMap.get?_insert_self _ _ _
      · rw [if_neg h]
        exact FinMap.get?_insert_of_ne _ _ (Ne.symm h)
  | removeWallet σ addr' =>
      rw [ManagerOp.keep]
      by_cases h : addr' = addr
      · rw [if_pos h, h]
        exact FinMap.get?_erase_self _ _
      · rw [if_neg h]
        exact FinMap.get?_erase_of_ne _ (Ne.symm h)
  | setDefaultWallet addr' =>
      rw [ManagerOp.exec, WalletManager.setDefaultWallet]
      split_ifs <;> rfl

/-- The first wallet of the map, if there is one. -/
theorem get?_head {wallets : FinMap Address W}
    (haddresses : ∀ addr wallet, wallets.get? addr = some wallet → address wallet = addr)
    (σ : RangeOrder) {e : Address × W} (h : (wallets.range σ).head? = some e) :
    wallets.get? (address e.2) = some e.2 := by
  have hmem : e ∈ wallets.entries := FinMap.mem_range.mp (List.mem_of_mem_head? h)
  have hget : wallets.get? e.1 = some e.2 := FinMap.get?_eq_some.mpr hmem
  rw [haddresses e.1 e.2 hget]
  exact hget

theorem get?_of_head_eq_none {wallets : FinMap Address W} {σ : RangeOrder}
    (h : (wallets.range σ).head? = none) (addr : Address) : wallets.get? addr = none := by
  by_contra hne
  obtain ⟨wallet, hwallet⟩ := Option.ne_none_iff_exists'.mp hne
  have hmem := FinMap.mem_range (σ := σ).mpr (FinMap.get?_eq_some.mp hwallet)
  rw [List.head?_eq_none_iff.mp h] at hmem
  cases hmem

theorem Managed.addWallet (h : Managed address m) (w : W) :
    ∃ wallet, (m.addWallet address w).getDefaultWallet = some wallet := by
  rw [WalletManager.getDefaultWallet, WalletManager.addWallet]
  by_cases hnone : m.defaultAddr = noAddress
  · rw [if_pos hnone]
    exact ⟨w, FinMap.get?_insert_self _ _ _⟩
  · rw [if_neg hnone]
    rcases h.default with ⟨-, hzero⟩ | ⟨wallet, hwallet⟩
    · exact absurd hzero hnone
    · by_cases haddress : m.defaultAddr = address w
      · rw [haddress]
        exact ⟨w, FinMap.get?_insert_self _ _ _⟩
      · exact ⟨wallet, (FinMap.get?_insert_of_ne _ _ haddress).trans hwallet⟩

theorem Managed.exec (h : Managed address m) (op : ManagerOp W) :
    Managed address (op.exec address m) := by
  have haddresses : ∀ addr wallet, (op.exec address m).wallets.get? addr = some wallet →
      address wallet = addr := by
    intro addr wallet hget
    rw [get?_exec] at hget
    cases op with
    | addWallet w =>
        rw [ManagerOp.keep] at hget
        split_ifs at hget with hw
        · cases hget
          exact hw
        · exact h.addresses addr wallet hget
    | removeWallet σ addr' =>
        rw [ManagerOp.keep] at hget
        split_ifs at hget
        exact h.addresses addr wallet hget
    | setDefaultWallet addr' => exact h.addresses addr wallet hget
  refine ⟨haddresses, ?_⟩
  cases op with
  | addWallet w => exact .inr (h.addWallet w)
  | removeWallet σ addr =>
      by_cases hremoved : m.defaultAddr = addr
      · cases hhead : ((m.wallets.erase addr).range σ).head? with
        | none =>
            refine .inl ⟨get?_of_head_eq_none hhead, ?_⟩
            show (if m.defaultAddr = addr then _ else m.defaultAddr) = noAddress
            rw [if_pos hremoved, hhead]
            rfl
        | some e =>
            refine .inr ⟨e.2, ?_⟩
            show (m.wallets.erase addr).get? (if m.defaultAddr = addr then _ else m.defaultAddr) = _
            rw [if_pos hremoved, hhead]
            exact get?_head haddresses σ hhead
      · have hkept : (ManagerOp.exec address (.removeWallet σ addr) m).defaultAddr =
            m.defaultAddr := if_neg hremoved
        rcases h.default with ⟨hempty, hzero⟩ | ⟨wallet, hwallet⟩
        · refine .inl ⟨fun addr' => ?_, hkept.trans hzero⟩
          rw [get?_exec, hempty, ManagerOp.keep]
          split_ifs <;> rfl
        · refine .inr ⟨wallet, ?_⟩
          rw [WalletManager.getDefaultWallet, hkept, get?_exec, ManagerOp.keep,
            if_neg (Ne.symm hremoved)]
          exact hwallet
  | setDefaultWallet addr =>
      rw [ManagerOp.exec, WalletManager.setDefaultWallet]
      cases hget : m.wallets.get? addr with
      | none => exact h.default
      | some wallet => exact .inr ⟨wallet, hget⟩

/-! ## Runs -/

theorem mem_listWallets {σ : RangeOrder} {wallet : W} :
    wallet ∈ m.listWallets σ ↔ ∃ addr, m.wallets.get? addr = some wallet := by
  rw [WalletManager.listWallets, List.mem_map]
  constructor
  · rintro ⟨⟨addr, w⟩, hmem, rfl⟩
    exact ⟨addr, FinMap.get?_eq_some.mpr (FinMap.mem_range.mp hmem)⟩
  · rintro ⟨addr, hget⟩
    exact ⟨(addr, wallet), FinMap.mem_range.mpr (FinMap.get?_eq_some.mp hget), rfl⟩

variable (address)

/-- **A manager after any calls.** Under each address it has the wallet that was added last and not
removed since, it lists exactly these wallets, and it has a default wallet, one of them, exactly
when there is one. -/
theorem managed_run (ops : List (ManagerOp W)) (σ : RangeOrder) :
    let m := runOps (ManagerOp.exec address) ops {}
    (∀ addr, m.getWallet addr = held address addr ops) ∧
      (∀ wallet, wallet ∈ m.listWallets σ ↔ held address (address wallet) ops = some wallet) ∧
      (∀ wallet, m.getDefaultWallet = some wallet → wallet ∈ m.listWallets σ) ∧
      (m.getDefaultWallet = none ↔ m.listWallets σ = []) := by
  intro m
  have hmanaged : Managed address m :=
    run_invariant (P := Managed address) (fun op m h => h.exec op) ops (managed_new address)
  have hget : ∀ addr, m.getWallet addr = held address addr ops := fun addr =>
    (List.foldl_hom (fun m : WalletManager W => m.wallets.get? addr) fun m op =>
      (get?_exec op m addr).symm).symm
  refine ⟨hget, fun wallet => ?_, fun wallet hdefault => mem_listWallets.mpr ⟨_, hdefault⟩, ?_⟩
  · rw [mem_listWallets, ← hget]
    constructor
    · rintro ⟨addr, haddr⟩
      rw [hmanaged.addresses addr wallet haddr]
      exact haddr
    · exact fun haddr => ⟨_, haddr⟩
  · constructor
    · intro hnone
      rcases hmanaged.default with ⟨hempty, -⟩ | ⟨wallet, hwallet⟩
      · refine List.eq_nil_iff_forall_not_mem.mpr fun wallet hmem => ?_
        obtain ⟨addr, haddr⟩ := mem_listWallets.mp hmem
        rw [hempty] at haddr
        cases haddr
      · rw [hnone] at hwallet
        cases hwallet
    · intro hnil
      by_contra hne
      obtain ⟨wallet, hwallet⟩ := Option.ne_none_iff_exists'.mp hne
      have hmem : wallet ∈ m.listWallets σ := mem_listWallets.mpr ⟨_, hwallet⟩
      rw [hnil] at hmem
      cases hmem

end BhtBhte.Wallet
