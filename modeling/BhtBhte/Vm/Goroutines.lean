import BhtBhte.Lib.Interleave
import BhtBhte.Vm.GasRegulator

/-!
# The gas regulator of the virtual machine

`BHTEVM` of `core/bhte_evm.go` records an opcode and then computes its gas, and every counter of its
regulator is a variable of its own.  So calls of several goroutines are interleaved between the
accesses to these variables.  What an opcode costs then is `charged_interleaved`.
-/
namespace BhtBhte.Vm

open BhtBhte.Lib.Interleave

/-! ## Accesses -/

/-- One access to the variables of the regulator. -/
inductive Task where
  | addTotal (op : OpCode)
  | addNonKernel
  | charge (op : OpCode) (baseGas : UInt64)
  | loadTotal
  | loadNonKernel (total : UInt64)
  | storeMultiplier (multiplier : UInt64)
  | storeCongestion (level : UInt64)
  | clearTotal
  | clearNonKernel

/-- What a goroutine was told that an opcode costs; `none` is a panic. -/
structure Charge where
  op : OpCode
  baseGas : UInt64
  gas : Option UInt64

/-- What `UpdateCongestion` and `Reset` store. -/
def storing (multiplier level : UInt64) : List Task :=
  [.storeMultiplier multiplier, .storeCongestion level, .clearTotal, .clearNonKernel]

/-- What `UpdateCongestion` does with the two numbers that it has read. -/
def updating (r : GasRegulator) (nonKernel total : UInt64) : List Task :=
  let nonKernelRatio := nonKernel.toFloat / total.toFloat
  if nonKernelRatio > 0.3 then
    let newMultiplier := (nonKernelRatio * 100 / 0.3).toUInt64
    let newMultiplier :=
      if newMultiplier > r.maxMultiplier * 100 then r.maxMultiplier * 100 else newMultiplier
    storing newMultiplier (nonKernelRatio * 100).toUInt64
  else storing 100 0

/-- What one access does, and what the goroutine does next. -/
def Task.exec (t : Task) (r : GasRegulator) : Outcome GasRegulator Task Charge :=
  match t with
  | .addTotal op =>
    { state := { r with totalOps := r.totalOps + 1 }
      next := if isKernelOpcode op then [] else [.addNonKernel] }
  | .addNonKernel => { state := { r with nonKernelOps := r.nonKernelOps + 1 } }
  | .charge op baseGas => { state := r, out := [⟨op, baseGas, r.calculateGas op baseGas⟩] }
  | .loadTotal => { state := r, next := if r.totalOps = 0 then [] else [.loadNonKernel r.totalOps] }
  | .loadNonKernel total => { state := r, next := updating r r.nonKernelOps total }
  | .storeMultiplier multiplier => { state := { r with userGasMultiplier := multiplier } }
  | .storeCongestion level => { state := { r with congestionLevel := level } }
  | .clearTotal => { state := { r with totalOps := 0 } }
  | .clearNonKernel => { state := { r with nonKernelOps := 0 } }

/-- The calls of a goroutine. -/
inductive Call where
  | recordAndCalculateGas (op : OpCode) (baseGas : UInt64)
  | calculateGas (op : OpCode) (baseGas : UInt64)
  | change (op : Op)

/-- The accesses of a call. -/
def Call.tasks : Call → List Task
  | .recordAndCalculateGas op baseGas => [.addTotal op, .charge op baseGas]
  | .calculateGas op baseGas => [.charge op baseGas]
  | .change (.recordOp op) => [.addTotal op]
  | .change .updateCongestion => [.loadTotal]
  | .change .reset => storing 100 0

/-- **A call that is not interrupted does what the regulator does.** -/
theorem alone_tasks (r : GasRegulator) (op : Op) :
    alone Task.exec 6 (Call.change op).tasks r = op.exec r := by
  cases op with
  | recordOp op =>
      unfold Op.exec GasRegulator.recordOp
      cases hop : isKernelOpcode op <;> simp [Call.tasks, alone, Task.exec, hop]
  | reset => rfl
  | updateCongestion =>
      unfold Op.exec GasRegulator.updateCongestion
      by_cases htotal : r.totalOps = 0
      · simp [Call.tasks, alone, Task.exec, htotal]
      · rw [if_neg htotal]
        simp only [Call.tasks, alone, Task.exec, htotal, if_false, List.append_nil, updating]
        split
        · rfl
        · rfl

/-! ## Every interleaving -/

variable {ι : Type*} [DecidableEq ι] {price : UInt64}

/-- What is stored is at most sixteen hundred. -/
def Task.Capped : Task → Prop
  | .storeMultiplier multiplier => multiplier ≤ 1600
  | _ => True

/-- An opcode of the kernel costs its share of the base price, another one its gas times a
percentage from one hundred to sixteen hundred. -/
def Charge.Fair (price : UInt64) (c : Charge) : Prop :=
  if isKernelOpcode c.op then
    c.gas = if price = 0 then none else some (price / 4 * c.baseGas / price)
  else ∃ multiplier : UInt64, 100 ≤ multiplier ∧ multiplier ≤ 1600 ∧
    c.gas = some (c.baseGas * multiplier / 100)

theorem capped_storing {multiplier level : UInt64} (h : multiplier ≤ 1600) :
    ∀ t ∈ storing multiplier level, t.Capped := by
  simp [storing, Task.Capped, h]

theorem capped_updating {r : GasRegulator} (h : r.Held price) (nonKernel total : UInt64) :
    ∀ t ∈ updating r nonKernel total, t.Capped := by
  have hmax : r.maxMultiplier * 100 = 1600 := by
    rw [h.maxMultiplier]
    rfl
  unfold updating
  dsimp only
  split
  · refine capped_storing ?_
    split
    · exact UInt64.le_of_eq hmax
    · next hle => exact hmax ▸ UInt64.not_lt.mp hle
  · exact capped_storing (by decide)

theorem fair_calculateGas {r : GasRegulator} (h : r.Held price) (op : OpCode) (baseGas : UInt64) :
    (⟨op, baseGas, r.calculateGas op baseGas⟩ : Charge).Fair price := by
  unfold Charge.Fair GasRegulator.calculateGas
  dsimp only
  cases hop : isKernelOpcode op with
  | true =>
      rw [if_pos rfl, if_pos rfl, h.baseGasPrice, h.kernelGasPrice]
  | false =>
      rw [if_neg Bool.false_ne_true, if_neg Bool.false_ne_true]
      refine ⟨_, ?_, ?_, rfl⟩
      · split
        · exact UInt64.le_refl _
        · next hle => exact UInt64.not_lt.mp hle
      · split
        · decide
        · exact h.userGasMultiplier

/-- What one access keeps. -/
theorem held_exec {r : GasRegulator} (h : r.Held price) {t : Task} (ht : t.Capped) :
    (t.exec r).state.Held price ∧ (∀ t' ∈ (t.exec r).next, t'.Capped) ∧
      ∀ c ∈ (t.exec r).out, c.Fair price := by
  obtain ⟨hbase, hkernel, hmax, hmultiplier⟩ := h
  cases t with
  | addTotal op =>
      refine ⟨⟨hbase, hkernel, hmax, hmultiplier⟩, ?_, List.forall_mem_nil _⟩
      cases hop : isKernelOpcode op <;> simp [Task.exec, hop, Task.Capped]
  | addNonKernel =>
      exact ⟨⟨hbase, hkernel, hmax, hmultiplier⟩, List.forall_mem_nil _, List.forall_mem_nil _⟩
  | charge op baseGas =>
      refine ⟨⟨hbase, hkernel, hmax, hmultiplier⟩, List.forall_mem_nil _, ?_⟩
      exact List.forall_mem_singleton.mpr
        (fair_calculateGas ⟨hbase, hkernel, hmax, hmultiplier⟩ op baseGas)
  | loadTotal =>
      refine ⟨⟨hbase, hkernel, hmax, hmultiplier⟩, ?_, List.forall_mem_nil _⟩
      by_cases htotal : r.totalOps = 0 <;> simp [Task.exec, htotal, Task.Capped]
  | loadNonKernel total =>
      exact ⟨⟨hbase, hkernel, hmax, hmultiplier⟩,
        capped_updating ⟨hbase, hkernel, hmax, hmultiplier⟩ _ _, List.forall_mem_nil _⟩
  | storeMultiplier multiplier =>
      exact ⟨⟨hbase, hkernel, hmax, ht⟩, List.forall_mem_nil _, List.forall_mem_nil _⟩
  | storeCongestion level =>
      exact ⟨⟨hbase, hkernel, hmax, hmultiplier⟩, List.forall_mem_nil _, List.forall_mem_nil _⟩
  | clearTotal =>
      exact ⟨⟨hbase, hkernel, hmax, hmultiplier⟩, List.forall_mem_nil _, List.forall_mem_nil _⟩
  | clearNonKernel =>
      exact ⟨⟨hbase, hkernel, hmax, hmultiplier⟩, List.forall_mem_nil _, List.forall_mem_nil _⟩

theorem capped_tasks (call : Call) : ∀ t ∈ call.tasks, t.Capped := by
  cases call with
  | recordAndCalculateGas op baseGas => simp [Call.tasks, Task.Capped]
  | calculateGas op baseGas => simp [Call.tasks, Task.Capped]
  | change op =>
      cases op with
      | recordOp op => simp [Call.tasks, Task.Capped]
      | updateCongestion => simp [Call.tasks, Task.Capped]
      | reset => exact capped_storing (by decide)

/-- Goroutines that share a new regulator come to this world. -/
def Reached (price : UInt64) (w : World ι GasRegulator Task Charge) : Prop :=
  Relation.ReflTransGen (Move Task.exec (Set.range Call.tasks))
    (World.start (newGasRegulator price)) w

/-- Whatever goroutines do together, every charge is fair and the multiplier is capped. -/
theorem keeps_of_reached {w : World ι GasRegulator Task Charge} (h : Reached price w) :
    Keeps (GasRegulator.Held price) Task.Capped (Charge.Fair price) w := by
  refine invariant_of_moves (GasRegulator.held_newGasRegulator price) ?_
    (fun t r hr ht => held_exec hr ht) h
  rintro - ⟨call, rfl⟩
  exact capped_tasks call

/-- A quarter of the base price charges at most a quarter of the gas. -/
theorem four_mul_div_le {p b : ℕ} (hp : 0 < p) : 4 * (p / 4 * b / p) ≤ b := by
  have hquarter : 4 * (p / 4) ≤ p := Nat.mul_div_le p 4
  have hle : p / 4 * b / p * p ≤ p / 4 * b := Nat.div_mul_le_self _ _
  refine Nat.le_of_mul_le_mul_right ?_ hp
  calc 4 * (p / 4 * b / p) * p = 4 * (p / 4 * b / p * p) := Nat.mul_assoc _ _ _
    _ ≤ 4 * (p / 4 * b) := Nat.mul_le_mul_left 4 hle
    _ = 4 * (p / 4) * b := (Nat.mul_assoc _ _ _).symm
    _ ≤ p * b := Nat.mul_le_mul_right b hquarter
    _ = b * p := Nat.mul_comm _ _

/-- **What an opcode costs, however goroutines are interleaved.** As long as the products fit, a
kernel opcode costs at most a quarter of its gas, and any other opcode at least its gas and at
most sixteen times as much. -/
theorem charged_interleaved (hprice : price ≠ 0) {w : World ι GasRegulator Task Charge}
    (h : Reached price w) : ∀ c ∈ w.out,
    price.toNat / 4 * c.baseGas.toNat < 2 ^ 64 → c.baseGas.toNat * 1600 < 2 ^ 64 →
    ∃ gas, c.gas = some gas ∧
      if isKernelOpcode c.op then 4 * gas.toNat ≤ c.baseGas.toNat
      else c.baseGas.toNat ≤ gas.toNat ∧ gas.toNat ≤ 16 * c.baseGas.toNat := by
  intro c hc hkernel huser
  have hfair := (keeps_of_reached h).out c hc
  unfold Charge.Fair at hfair
  cases hop : isKernelOpcode c.op with
  | true =>
      rw [hop, if_pos rfl, if_neg hprice] at hfair
      have hpos : 0 < price.toNat := Nat.pos_of_ne_zero fun hz => hprice (UInt64.toNat_inj.mp hz)
      have hfour : (4 : UInt64).toNat = 4 := rfl
      refine ⟨_, hfair, ?_⟩
      rw [if_pos rfl, UInt64.toNat_div, UInt64.toNat_mul, UInt64.toNat_div, hfour,
        Nat.mod_eq_of_lt hkernel]
      exact four_mul_div_le hpos
  | false =>
      rw [hop, if_neg Bool.false_ne_true] at hfair
      obtain ⟨multiplier, hlow, hhigh, hgas⟩ := hfair
      have hlow' : 100 ≤ multiplier.toNat := UInt64.le_iff_toNat_le.mp hlow
      have hhigh' : multiplier.toNat ≤ 1600 := UInt64.le_iff_toNat_le.mp hhigh
      have hhundred : (100 : UInt64).toNat = 100 := rfl
      have hfits : c.baseGas.toNat * multiplier.toNat < 2 ^ 64 :=
        (Nat.mul_le_mul_left _ hhigh').trans_lt huser
      refine ⟨_, hgas, ?_⟩
      rw [if_neg Bool.false_ne_true, UInt64.toNat_div, UInt64.toNat_mul, hhundred,
        Nat.mod_eq_of_lt hfits]
      have hmin := Nat.mul_le_mul_left c.baseGas.toNat hlow'
      have hmax := Nat.mul_le_mul_left c.baseGas.toNat hhigh'
      omega

/-- A transfer by a goroutine of its own. -/
theorem charged_interleaved_transfer : ∃ w : World Unit GasRegulator Task Charge,
    Reached 21000 w ∧ (∃ c ∈ w.out, c.gas = some 5250) ∧ ∀ c ∈ w.out,
      (21000 : UInt64).toNat / 4 * c.baseGas.toNat < 2 ^ 64 → c.baseGas.toNat * 1600 < 2 ^ 64 →
      ∃ gas, c.gas = some gas ∧
        if isKernelOpcode c.op then 4 * gas.toNat ≤ c.baseGas.toNat
        else c.baseGas.toNat ≤ gas.toNat ∧ gas.toNat ≤ 16 * c.baseGas.toNat := by
  have hcall : Move Task.exec (Set.range Call.tasks) (World.start (newGasRegulator 21000))
      { World.start (newGasRegulator 21000) with
        left := Function.update (fun _ : Unit => []) ()
          (Call.recordAndCalculateGas opKernelTransfer 21000).tasks } :=
    .call () ⟨_, rfl⟩ rfl
  have hreached := ((Relation.ReflTransGen.single hcall).tail (.task () rfl)).tail (.task () rfl)
  refine ⟨_, hreached, ⟨_, List.mem_cons_self, ?_⟩, charged_interleaved (by decide) hreached⟩
  decide

end BhtBhte.Vm
