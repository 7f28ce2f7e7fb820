import Mathlib.Algebra.Order.Floor.Semifield
import Mathlib.Data.Rat.Floor

/-!
# The gas regulator

`gas_regulator.go` and the kernel opcodes of `opcodes_kernel.go`.  A kernel opcode costs the share
of its gas that the kernel price is of the base price, a user opcode its gas times a multiplier in
percent.  Both multiply before they divide, in 64 bits.  So a charge is right exactly when nothing
is divided by zero and both products fit (`charges_iff`).
-/
namespace BhtBhte.Vm

/-! ## Opcodes -/

abbrev OpCode := UInt8

def opStop : OpCode := 0x00
def opAdd : OpCode := 0x01

def opKernelTransfer : OpCode := 0xB0
def opKernelMultisig : OpCode := 0xB1
def opKernelChannelOpen : OpCode := 0xB2
def opKernelChannelClose : OpCode := 0xB3
def opKernelAnchor : OpCode := 0xB4
def opKernelMldsa : OpCode := 0xB5
def opKernelWithdraw : OpCode := 0xB6
def opKernelBatchTransfer : OpCode := 0xB7

/-- The opcodes that are charged at the kernel price. -/
def kernelOpcodes : List OpCode := [opKernelTransfer, opKernelMultisig, opKernelChannelOpen,
  opKernelChannelClose, opKernelAnchor, opKernelMldsa, opKernelWithdraw, opKernelBatchTransfer]

def isKernelOpcode (op : OpCode) : Bool := kernelOpcodes.contains op

/-! ## The regulator -/

/-- The two prices, the multiplier of user opcodes and the counters. -/
structure GasRegulator where
  baseGasPrice : UInt64
  kernelGasPrice : UInt64
  userGasMultiplier : UInt64 := 0
  congestionLevel : UInt64 := 0
  maxMultiplier : UInt64
  nonKernelOps : UInt64 := 0
  totalOps : UInt64 := 0

def newGasRegulator (baseGas : UInt64) : GasRegulator where
  baseGasPrice := baseGas
  kernelGasPrice := baseGas / 4
  maxMultiplier := 16

namespace GasRegulator

/-- A division by zero panics. -/
def calculateGas (r : GasRegulator) (op : OpCode) (baseGas : UInt64) : Option UInt64 :=
  if isKernelOpcode op then
    if r.baseGasPrice = 0 then none else some (r.kernelGasPrice * baseGas / r.baseGasPrice)
  else
    let multiplier := if r.userGasMultiplier < 100 then 100 else r.userGasMultiplier
    some (baseGas * multiplier / 100)

/-- Count an opcode. -/
def recordOp (r : GasRegulator) (op : OpCode) : GasRegulator :=
  let r := { r with totalOps := r.totalOps + 1 }
  if !isKernelOpcode op then { r with nonKernelOps := r.nonKernelOps + 1 } else r

/-- Set the multiplier by the share of user opcodes, and count anew. -/
def updateCongestion (r : GasRegulator) : GasRegulator :=
  if r.totalOps = 0 then r
  else
    let nonKernelRatio := r.nonKernelOps.toFloat / r.totalOps.toFloat
    let r :=
      if nonKernelRatio > 0.3 then
        let newMultiplier := (nonKernelRatio * 100 / 0.3).toUInt64
        let newMultiplier :=
          if newMultiplier > r.maxMultiplier * 100 then r.maxMultiplier * 100 else newMultiplier
        { r with
          userGasMultiplier := newMultiplier
          congestionLevel := (nonKernelRatio * 100).toUInt64 }
      else { r with userGasMultiplier := 100, congestionLevel := 0 }
    { r with totalOps := 0, nonKernelOps := 0 }

/-- Forget the counters. -/
def reset (r : GasRegulator) : GasRegulator :=
  { r with userGasMultiplier := 100, congestionLevel := 0, totalOps := 0, nonKernelOps := 0 }

end GasRegulator

/-! ## Runs -/

/-- The calls that change a regulator. -/
inductive Op where
  | recordOp (op : OpCode)
  | updateCongestion
  | reset

def Op.exec (r : GasRegulator) : Op → GasRegulator
  | .recordOp op => r.recordOp op
  | .updateCongestion => r.updateCongestion
  | .reset => r.reset

namespace GasRegulator

/-- A regulator of this base price, which holds some multiplier. -/
structure Held (baseGas : UInt64) (r : GasRegulator) : Prop where
  baseGasPrice : r.baseGasPrice = baseGas
  kernelGasPrice : r.kernelGasPrice = baseGas / 4
  maxMultiplier : r.maxMultiplier = 16
  userGasMultiplier : r.userGasMultiplier ≤ 1600

variable {baseGas price : UInt64} {r : GasRegulator}

theorem held_newGasRegulator (price : UInt64) : Held price (newGasRegulator price) :=
  ⟨rfl, rfl, rfl, (by decide : (0 : UInt64) ≤ 1600)⟩

/-- A multiplier that is stored is at most sixteen hundred. -/
theorem Held.updateCongestion (h : r.Held price) : r.updateCongestion.Held price := by
  have hmax : r.maxMultiplier * 100 = 1600 := by rw [h.maxMultiplier]; rfl
  unfold GasRegulator.updateCongestion
  split
  · exact h
  · dsimp only
    split
    · refine ⟨h.baseGasPrice, h.kernelGasPrice, h.maxMultiplier, ?_⟩
      dsimp only
      split
      · exact UInt64.le_of_eq hmax
      · next hle => exact hmax ▸ UInt64.not_lt.mp hle
    · exact ⟨h.baseGasPrice, h.kernelGasPrice, h.maxMultiplier, (by decide : (100 : UInt64) ≤ 1600)⟩

theorem Held.exec (h : r.Held price) (op : Op) : (op.exec r).Held price := by
  cases op with
  | recordOp op =>
      rw [Op.exec, recordOp]
      split
      · exact ⟨h.baseGasPrice, h.kernelGasPrice, h.maxMultiplier, h.userGasMultiplier⟩
      · exact ⟨h.baseGasPrice, h.kernelGasPrice, h.maxMultiplier, h.userGasMultiplier⟩
  | updateCongestion => exact h.updateCongestion
  | reset =>
      exact ⟨h.baseGasPrice, h.kernelGasPrice, h.maxMultiplier, (by decide : (100 : UInt64) ≤ 1600)⟩

theorem Held.run (h : r.Held price) (ops : List Op) : (ops.foldl Op.exec r).Held price := by
  induction ops generalizing r with
  | nil => exact h
  | cons op ops ih => exact ih (h.exec op)

/-- **Whatever is called, the multiplier is at most 1600** and the prices stay. -/
theorem held_of_run (price : UInt64) (ops : List Op) :
    (ops.foldl Op.exec (newGasRegulator price)).Held price :=
  (held_newGasRegulator price).run ops

/-! ## What an operation should cost -/

/-- The percentage that a user opcode pays. -/
def multiplier (r : GasRegulator) : ℕ := max 100 r.userGasMultiplier.toNat

/-- The exact price. -/
def exactGas (r : GasRegulator) (op : OpCode) (baseGas : UInt64) : ℚ :=
  if isKernelOpcode op then (r.kernelGasPrice.toNat * baseGas.toNat) / r.baseGasPrice.toNat
  else (baseGas.toNat * r.multiplier) / 100

/-- The price of every opcode is computed and is the exact one rounded down, less gas is not
dearer, and a kernel opcode is not dearer than a user opcode. -/
structure Charges (r : GasRegulator) (baseGas : UInt64) : Prop where
  exact : ∀ op, ∃ gas, r.calculateGas op baseGas = some gas ∧ gas.toNat = ⌊r.exactGas op baseGas⌋₊
  monotone : ∀ op, ∀ less ≤ baseGas, ∀ gas ∈ r.calculateGas op baseGas,
    ∃ gas' ∈ r.calculateGas op less, gas' ≤ gas
  kernel : ∀ op op', isKernelOpcode op = true → isKernelOpcode op' = false →
    ∀ gas ∈ r.calculateGas op' baseGas, ∃ gas' ∈ r.calculateGas op baseGas, gas' ≤ gas

/-- There is something to divide by and both products fit into 64 bits. -/
structure Fits (r : GasRegulator) (baseGas : UInt64) : Prop where
  price : r.baseGasPrice ≠ 0
  kernel : r.kernelGasPrice.toNat * baseGas.toNat < 2 ^ 64
  user : baseGas.toNat * r.multiplier < 2 ^ 64

theorem Fits.mono {less : UInt64} (h : r.Fits baseGas) (hle : less ≤ baseGas) : r.Fits less := by
  have hnat : less.toNat ≤ baseGas.toNat := UInt64.le_iff_toNat_le.mp hle
  exact ⟨h.price, (Nat.mul_le_mul_left _ hnat).trans_lt h.kernel,
    (Nat.mul_le_mul_right _ hnat).trans_lt h.user⟩

/-- A quotient tells that a product has wrapped. -/
theorem lt_of_mod_div_eq {x n d : ℕ} (hd : 0 < d) (hdn : d ≤ n) (h : x % n / d = x / d) :
    x < n := by
  by_contra hge
  have hpos : 0 < x / d := Nat.div_pos (hdn.trans (not_lt.mp hge)) hd
  have hless : x % n ≤ x - d := by
    have hmod := Nat.mod_lt x (hd.trans_le hdn)
    have hsub := Nat.mod_le (x - n) n
    rw [← Nat.mod_eq_sub_mod (not_lt.mp hge)] at hsub
    omega
  have hdiv : x % n / d ≤ x / d - 1 := by
    rw [← Nat.sub_mul_div x d 1, Nat.mul_one]
    exact Nat.div_le_div_right hless
  omega

/-! ## The two kinds of opcodes -/

variable {op : OpCode}

theorem calculateGas_kernel (hop : isKernelOpcode op = true) (hprice : r.baseGasPrice ≠ 0)
    (baseGas : UInt64) : ∃ gas, r.calculateGas op baseGas = some gas ∧
      gas.toNat = r.kernelGasPrice.toNat * baseGas.toNat % 2 ^ 64 / r.baseGasPrice.toNat := by
  rw [calculateGas, if_pos hop, if_neg hprice]
  exact ⟨_, rfl, by rw [UInt64.toNat_div, UInt64.toNat_mul]⟩

theorem calculateGas_user (r : GasRegulator) (hop : isKernelOpcode op = false)
    (baseGas : UInt64) : ∃ gas, r.calculateGas op baseGas = some gas ∧
      gas.toNat = baseGas.toNat * r.multiplier % 2 ^ 64 / 100 := by
  have hmultiplier : (if r.userGasMultiplier < 100 then 100 else r.userGasMultiplier).toNat =
      r.multiplier := by
    unfold multiplier
    split
    · next hlt => exact (max_eq_left (Nat.le_of_lt (UInt64.lt_iff_toNat_lt.mp hlt))).symm
    · next hle => exact (max_eq_right (UInt64.le_iff_toNat_le.mp (UInt64.not_lt.mp hle))).symm
  rw [calculateGas, if_neg (by rw [hop]; exact Bool.false_ne_true)]
  refine ⟨_, rfl, ?_⟩
  rw [UInt64.toNat_div, UInt64.toNat_mul, hmultiplier]
  rfl

theorem floor_exactGas_kernel (hop : isKernelOpcode op = true) (baseGas : UInt64) :
    ⌊r.exactGas op baseGas⌋₊ =
      r.kernelGasPrice.toNat * baseGas.toNat / r.baseGasPrice.toNat := by
  rw [exactGas, if_pos hop, ← Nat.cast_mul, Nat.floor_div_eq_div]

theorem floor_exactGas_user (hop : isKernelOpcode op = false) (baseGas : UInt64) :
    ⌊r.exactGas op baseGas⌋₊ = baseGas.toNat * r.multiplier / 100 := by
  have hcast : (100 : ℚ) = ((100 : ℕ) : ℚ) := rfl
  rw [exactGas, if_neg (by rw [hop]; exact Bool.false_ne_true), ← Nat.cast_mul, hcast,
    Nat.floor_div_eq_div]

/-- Where the products fit, every opcode has its exact price. -/
theorem Fits.exact (h : r.Fits baseGas) (op : OpCode) :
    ∃ gas, r.calculateGas op baseGas = some gas ∧ gas.toNat = ⌊r.exactGas op baseGas⌋₊ := by
  cases hop : isKernelOpcode op with
  | true =>
      obtain ⟨gas, hgas, hvalue⟩ := calculateGas_kernel hop h.price baseGas
      refine ⟨gas, hgas, ?_⟩
      rw [hvalue, Nat.mod_eq_of_lt h.kernel, floor_exactGas_kernel hop]
  | false =>
      obtain ⟨gas, hgas, hvalue⟩ := calculateGas_user r hop baseGas
      refine ⟨gas, hgas, ?_⟩
      rw [hvalue, Nat.mod_eq_of_lt h.user, floor_exactGas_user hop]

theorem exactGas_mono (r : GasRegulator) (op : OpCode) {less : UInt64} (hle : less ≤ baseGas) :
    ⌊r.exactGas op less⌋₊ ≤ ⌊r.exactGas op baseGas⌋₊ := by
  have hnat : less.toNat ≤ baseGas.toNat := UInt64.le_iff_toNat_le.mp hle
  cases hop : isKernelOpcode op with
  | true =>
      rw [floor_exactGas_kernel hop, floor_exactGas_kernel hop]
      exact Nat.div_le_div_right (Nat.mul_le_mul_left _ hnat)
  | false =>
      rw [floor_exactGas_user hop, floor_exactGas_user hop]
      exact Nat.div_le_div_right (Nat.mul_le_mul_right _ hnat)

/-- A quarter of the gas is less than all of it. -/
theorem Held.exactGas_kernel_le (h : r.Held price) {op op' : OpCode}
    (hop : isKernelOpcode op = true) (hop' : isKernelOpcode op' = false) (baseGas : UInt64) :
    ⌊r.exactGas op baseGas⌋₊ ≤ ⌊r.exactGas op' baseGas⌋₊ := by
  have hquarter : r.kernelGasPrice.toNat ≤ r.baseGasPrice.toNat := by
    rw [h.kernelGasPrice, h.baseGasPrice, UInt64.toNat_div]
    exact Nat.div_le_self _ _
  calc ⌊r.exactGas op baseGas⌋₊
      = r.kernelGasPrice.toNat * baseGas.toNat / r.baseGasPrice.toNat :=
        floor_exactGas_kernel hop baseGas
    _ ≤ r.baseGasPrice.toNat * baseGas.toNat / r.baseGasPrice.toNat :=
        Nat.div_le_div_right (Nat.mul_le_mul_right _ hquarter)
    _ ≤ baseGas.toNat := Nat.div_le_of_le_mul le_rfl
    _ = baseGas.toNat * 100 / 100 := (Nat.mul_div_cancel _ (by decide)).symm
    _ ≤ baseGas.toNat * r.multiplier / 100 :=
        Nat.div_le_div_right (Nat.mul_le_mul_left _ (le_max_left _ _))
    _ = ⌊r.exactGas op' baseGas⌋₊ := (floor_exactGas_user hop' baseGas).symm

/-- **An operation is charged rightly exactly when there is a base price and neither product
wraps.** -/
theorem charges_iff (h : r.Held price) (baseGas : UInt64) :
    r.Charges baseGas ↔ r.Fits baseGas := by
  constructor
  · intro hcharges
    have hprice : r.baseGasPrice ≠ 0 := by
      intro hzero
      obtain ⟨gas, hgas, -⟩ := hcharges.exact opKernelTransfer
      rw [calculateGas, if_pos (by decide), if_pos hzero] at hgas
      cases hgas
    have hpos : 0 < r.baseGasPrice.toNat :=
      Nat.pos_of_ne_zero fun hzero => hprice (UInt64.toNat_inj.mp hzero)
    refine ⟨hprice, ?_, ?_⟩
    · have hop : isKernelOpcode opKernelTransfer = true := by decide
      obtain ⟨gas, hgas, hvalue⟩ := hcharges.exact opKernelTransfer
      obtain ⟨gas', hgas', hvalue'⟩ := calculateGas_kernel hop hprice baseGas
      cases hgas.symm.trans hgas'
      rw [hvalue', floor_exactGas_kernel hop] at hvalue
      exact lt_of_mod_div_eq hpos r.baseGasPrice.toNat_lt.le hvalue
    · have hop : isKernelOpcode opStop = false := by decide
      obtain ⟨gas, hgas, hvalue⟩ := hcharges.exact opStop
      obtain ⟨gas', hgas', hvalue'⟩ := calculateGas_user r hop baseGas
      cases hgas.symm.trans hgas'
      rw [hvalue', floor_exactGas_user hop] at hvalue
      exact lt_of_mod_div_eq (by decide) (by decide) hvalue
  · intro hfits
    refine ⟨hfits.exact, ?_, ?_⟩
    · intro op less hle gas hgas
      obtain ⟨gas₁, hgas₁, hvalue₁⟩ := hfits.exact op
      obtain ⟨gas₂, hgas₂, hvalue₂⟩ := (hfits.mono hle).exact op
      cases hgas.symm.trans hgas₁
      refine ⟨gas₂, hgas₂, UInt64.le_iff_toNat_le.mpr ?_⟩
      rw [hvalue₁, hvalue₂]
      exact exactGas_mono r op hle
    · intro op op' hop hop' gas hgas
      obtain ⟨gas₁, hgas₁, hvalue₁⟩ := hfits.exact op'
      obtain ⟨gas₂, hgas₂, hvalue₂⟩ := hfits.exact op
      cases hgas.symm.trans hgas₁
      refine ⟨gas₂, hgas₂, UInt64.le_iff_toNat_le.mpr ?_⟩
      rw [hvalue₁, hvalue₂]
      exact h.exactGas_kernel_le hop hop' baseGas

theorem charges_iff_new : ((newGasRegulator 21000).Charges 21000 ↔
    (newGasRegulator 21000).Fits 21000) :=
  charges_iff (held_newGasRegulator 21000) 21000

/-- Without a base price a kernel opcode panics; a user opcode of `2 ^ 63` gas is free. -/
theorem not_charges_extremes :
    (newGasRegulator 0).calculateGas opKernelTransfer 1 = none ∧
      ¬ (newGasRegulator 0).Charges 1 ∧
      (newGasRegulator 21000).calculateGas opAdd 0x8000000000000000 = some 0 ∧
      ¬ (newGasRegulator 21000).Charges 0x8000000000000000 := by
  have hnone : (newGasRegulator 0).calculateGas opKernelTransfer 1 = none := by decide
  have hfree : (newGasRegulator 21000).calculateGas opAdd 0x8000000000000000 = some 0 := by decide
  refine ⟨hnone, fun h => ?_, hfree, fun h => ?_⟩
  · obtain ⟨gas, hgas, -⟩ := h.exact opKernelTransfer
    rw [hnone] at hgas
    cases hgas
  · -- one unit of gas costs one, and more gas should not be cheaper
    obtain ⟨gas, hgas, hle⟩ := h.monotone opAdd 1 (by decide) 0 hfree
    have hone : (newGasRegulator 21000).calculateGas opAdd 1 = some 1 := by decide
    cases hone.symm.trans hgas
    exact absurd hle (by decide)

end GasRegulator

end BhtBhte.Vm
