import Mathlib.Data.Finset.Max
import Mathlib.Data.Fintype.Basic
import Mathlib.Algebra.Order.BigOperators.Group.Finset
import Mathlib.Logic.Relation

/-!
# Mutexes that are not re-entrant

Reader/writer mutexes.  A computation has a result, a next state, and the operations on mutexes that
it makes on its way when each of them is granted.  An operation is not granted while the mutex is
held in a conflicting mode, also not when the caller itself holds it.  Whether a reader has to wait
for a writer that waits is left open.  A caller that waits for itself never ends (`not_finished`);
callers that ask for mutexes in one order all end (`finished_of_stuck`).

## Main definitions

* `Locked` — computations with mutexes; `locking` and `reading` are sections under a mutex.
* `Free` — a caller never waits for itself.
* `nests` — which mutex is asked for while which is held.
* `Step`, `Together` — callers that run together.
-/
namespace BhtBhte.Lib

variable {μ σ α β ι : Type}

/-- A mutex is held for reading or for writing. -/
inductive LockMode where
  | read
  | write
  deriving DecidableEq

/-- An operation on a mutex. -/
inductive LockOp (μ : Type) where
  | lock (m : μ)
  | rlock (m : μ)
  | unlock (m : μ)
  | runlock (m : μ)
  deriving DecidableEq

/-- What a caller holds. -/
abbrev Held (μ : Type) := List (μ × LockMode)

namespace LockOp

/-- What is held after the operation. -/
def after [DecidableEq μ] (held : Held μ) : LockOp μ → Held μ
  | .lock m => (m, .write) :: held
  | .rlock m => (m, .read) :: held
  | .unlock m => held.erase (m, .write)
  | .runlock m => held.erase (m, .read)

/-- The operation has to wait for what is held. -/
def Conflicts (held : Held μ) : LockOp μ → Prop
  | .lock m => ∃ mode, (m, mode) ∈ held
  | .rlock m => (m, .write) ∈ held
  | .unlock _ => False
  | .runlock _ => False

/-- The mutex that the operation takes. -/
def asks : LockOp μ → Option μ
  | .lock m => some m
  | .rlock m => some m
  | .unlock _ => none
  | .runlock _ => none

theorem exists_of_conflicts {held : Held μ} {op : LockOp μ} (h : op.Conflicts held) :
    ∃ m mode, op.asks = some m ∧ (m, mode) ∈ held := by
  cases op with
  | lock m =>
      obtain ⟨mode, hmem⟩ := h
      exact ⟨m, mode, rfl, hmem⟩
  | rlock m => exact ⟨m, .write, rfl, h⟩
  | unlock m => exact h.elim
  | runlock m => exact h.elim

end LockOp

/-! ## Computations -/

/-- The result, the next state, and the operations on mutexes. -/
def Locked (μ σ α : Type) := σ → α × σ × List (LockOp μ)

namespace Locked

def result (p : Locked μ σ α) (s : σ) : α := (p s).1
def state (p : Locked μ σ α) (s : σ) : σ := (p s).2.1
def trace (p : Locked μ σ α) (s : σ) : List (LockOp μ) := (p s).2.2

instance : Monad (Locked μ σ) where
  pure a := fun s => (a, s, [])
  bind p f := fun s =>
    let (a, s₁, ops₁) := p s
    let (b, s₂, ops₂) := f a s₁
    (b, s₂, ops₁ ++ ops₂)

def get : Locked μ σ σ := fun s => (s, s, [])

def modify (f : σ → σ) : Locked μ σ Unit := fun s => ((), f s, [])

def perform (op : LockOp μ) : Locked μ σ Unit := fun s => ((), s, [op])

/-- `Lock` and a deferred `Unlock`. -/
def locking (m : μ) (body : Locked μ σ α) : Locked μ σ α := do
  perform (.lock m)
  let a ← body
  perform (.unlock m)
  pure a

/-- `RLock` and a deferred `RUnlock`. -/
def reading (m : μ) (body : Locked μ σ α) : Locked μ σ α := do
  perform (.rlock m)
  let a ← body
  perform (.runlock m)
  pure a

section
variable (p body : Locked μ σ α) (f : α → Locked μ σ β) (s : σ) (a : α) (m : μ)

@[simp] theorem result_pure : (pure a : Locked μ σ α).result s = a := rfl
@[simp] theorem state_pure : (pure a : Locked μ σ α).state s = s := rfl
@[simp] theorem trace_pure : (pure a : Locked μ σ α).trace s = [] := rfl
@[simp] theorem result_bind : (p >>= f).result s = (f (p.result s)).result (p.state s) := rfl
@[simp] theorem state_bind : (p >>= f).state s = (f (p.result s)).state (p.state s) := rfl
@[simp] theorem trace_bind :
    (p >>= f).trace s = p.trace s ++ (f (p.result s)).trace (p.state s) := rfl
@[simp] theorem result_get : (get : Locked μ σ σ).result s = s := rfl
@[simp] theorem state_get : (get : Locked μ σ σ).state s = s := rfl
@[simp] theorem trace_get : (get : Locked μ σ σ).trace s = [] := rfl
@[simp] theorem state_modify (g : σ → σ) : (modify g : Locked μ σ Unit).state s = g s := rfl
@[simp] theorem trace_modify (g : σ → σ) : (modify g : Locked μ σ Unit).trace s = [] := rfl
@[simp] theorem state_perform (op : LockOp μ) : (perform op).state s = s := rfl
@[simp] theorem trace_perform (op : LockOp μ) : (perform op).trace s = [op] := rfl

@[simp] theorem result_locking : (locking m body).result s = body.result s := rfl
@[simp] theorem state_locking : (locking m body).state s = body.state s := rfl
@[simp] theorem trace_locking :
    (locking m body).trace s = .lock m :: (body.trace s ++ [.unlock m]) := rfl
@[simp] theorem result_reading : (reading m body).result s = body.result s := rfl
@[simp] theorem state_reading : (reading m body).state s = body.state s := rfl
@[simp] theorem trace_reading :
    (reading m body).trace s = .rlock m :: (body.trace s ++ [.runlock m]) := rfl

end
end Locked

/-! ## One caller -/

variable [DecidableEq μ]

/-- No operation waits for a mutex that the caller itself holds. -/
def Free : Held μ → List (LockOp μ) → Prop
  | _, [] => True
  | held, op :: ops => ¬ op.Conflicts held ∧ Free (op.after held) ops

/-- The pairs of a mutex that is held and one that is asked for meanwhile. -/
def nests : Held μ → List (LockOp μ) → List (μ × μ)
  | _, [] => []
  | held, op :: ops =>
    (op.asks.toList.flatMap fun m => held.map fun e => (e.1, m)) ++ nests (op.after held) ops

/-- No caller asks for `a` under `b` where another asks for `b` under `a`. -/
def SameOrder (a b : μ) (ops ops' : List (LockOp μ)) : Prop :=
  ¬ ((a, b) ∈ nests [] ops ∧ (b, a) ∈ nests [] ops') ∧
    ¬ ((b, a) ∈ nests [] ops ∧ (a, b) ∈ nests [] ops')

instance (a b : μ) (ops ops' : List (LockOp μ)) : Decidable (SameOrder a b ops ops') :=
  inferInstanceAs (Decidable (_ ∧ _))

/-- Every mutex that is asked for is above the mutexes that are held, and in the end nothing is
held. -/
def Ordered (rank : μ → ℕ) : Held μ → List (LockOp μ) → Prop
  | held, [] => held = []
  | held, op :: ops =>
    (∀ m, op.asks = some m → ∀ e ∈ held, rank e.1 < rank m) ∧ Ordered rank (op.after held) ops

section
variable {rank : μ → ℕ}

theorem Ordered.free : ∀ {ops : List (LockOp μ)} {held : Held μ},
    Ordered rank held ops → Free held ops
  | [], _, _ => trivial
  | op :: ops, held, h => by
      refine ⟨fun hconflict => ?_, Ordered.free h.2⟩
      obtain ⟨m, mode, hasks, hmem⟩ := LockOp.exists_of_conflicts hconflict
      exact absurd (h.1 m hasks _ hmem) (lt_irrefl _)

/-- The rank grows along the pairs. -/
theorem Ordered.lt_of_mem_nests {e : μ × μ} : ∀ {ops : List (LockOp μ)} {held : Held μ},
    Ordered rank held ops → e ∈ nests held ops → rank e.1 < rank e.2
  | [], _, _, hmem => by cases hmem
  | op :: ops, held, h, hmem => by
      rcases List.mem_append.mp hmem with hhere | hlater
      · obtain ⟨m, hm, hpair⟩ := List.mem_flatMap.mp hhere
        obtain ⟨x, hx, rfl⟩ := List.mem_map.mp hpair
        exact h.1 m (Option.mem_toList.mp hm) x hx
      · exact Ordered.lt_of_mem_nests h.2 hlater

/-- Callers in the order of one rank take any two mutexes in the same order. -/
theorem Ordered.sameOrder {ops ops' : List (LockOp μ)} (h : Ordered rank [] ops)
    (h' : Ordered rank [] ops') (a b : μ) : SameOrder a b ops ops' := by
  have hback : ∀ {c d : μ}, (c, d) ∈ nests [] ops → (d, c) ∈ nests [] ops' → False := by
    intro c d hcd hdc
    exact lt_asymm (h.lt_of_mem_nests hcd) (h'.lt_of_mem_nests hdc)
  exact ⟨fun hab => hback hab.1 hab.2, fun hba => hback hba.1 hba.2⟩

end

/-! ## Callers that run together -/

/-- What a caller holds and what it has still to do. -/
structure Caller (μ : Type) where
  held : Held μ
  rest : List (LockOp μ)

/-- A caller that has these operations before it. -/
def starting (ops : List (LockOp μ)) : Caller μ := ⟨[], ops⟩

/-- Nobody holds what the operation has to wait for. -/
def Granted (callers : ι → Caller μ) (op : LockOp μ) : Prop :=
  ∀ i, ¬ op.Conflicts (callers i).held

/-- The operation is granted even when readers wait for writers that wait. -/
def SurelyGranted (callers : ι → Caller μ) (op : LockOp μ) : Prop :=
  Granted callers op ∧
    ∀ m, op = .rlock m → ∀ i, (callers i).rest.head? ≠ some (.lock m)

variable [DecidableEq ι]

/-- One caller makes its next operation. -/
inductive Step (callers : ι → Caller μ) : (ι → Caller μ) → Prop
  | perform (i : ι) (op : LockOp μ) (ops : List (LockOp μ)) (hrest : (callers i).rest = op :: ops)
      (hgranted : Granted callers op) :
      Step callers (Function.update callers i ⟨op.after (callers i).held, ops⟩)

/-- The callers after some steps. -/
abbrev Together (callers callers' : ι → Caller μ) : Prop :=
  Relation.ReflTransGen Step callers callers'

/-- No next operation is surely granted. -/
def Stuck (callers : ι → Caller μ) : Prop :=
  ∀ i op ops, (callers i).rest = op :: ops → ¬ SurelyGranted callers op

section
variable {callers callers' : ι → Caller μ}

/-- What holds of the callers one by one and survives the next operation holds along a run. -/
theorem Together.forall_of_step {P : Held μ → List (LockOp μ) → Prop}
    (hstep : ∀ held op ops, P held (op :: ops) → ¬ op.Conflicts held → P (op.after held) ops)
    (hrun : Together callers callers') {i : ι} (h : P (callers i).held (callers i).rest) :
    P (callers' i).held (callers' i).rest := by
  induction hrun with
  | refl => exact h
  | tail _ hlast ih =>
      obtain ⟨j, op, ops, hrest, hgranted⟩ := hlast
      by_cases hij : i = j
      · subst hij
        rw [Function.update_self]
        rw [hrest] at ih
        exact hstep _ op ops ih (hgranted i)
      · rwa [Function.update_of_ne hij]

/-- **A caller that waits for itself never ends**, whatever the others do. -/
theorem not_finished (hrun : Together callers callers') {i : ι}
    (h : ¬ Free (callers i).held (callers i).rest) : (callers' i).rest ≠ [] := by
  have hnot : ¬ Free (callers' i).held (callers' i).rest :=
    hrun.forall_of_step (P := fun held ops => ¬ Free held ops)
      (fun held op ops hfree hgranted hlater => hfree ⟨hgranted, hlater⟩) h
  intro hrest
  rw [hrest] at hnot
  exact hnot trivial

variable {rank : μ → ℕ}

theorem Together.ordered (hrun : Together callers callers')
    (h : ∀ i, Ordered rank (callers i).held (callers i).rest) (i : ι) :
    Ordered rank (callers' i).held (callers' i).rest :=
  hrun.forall_of_step (fun _ _ _ hordered _ => hordered.2) (h i)

end

section
variable [Fintype ι] {callers callers' : ι → Caller μ} {rank : μ → ℕ}

omit [DecidableEq ι] [DecidableEq μ] [Fintype ι] in
theorem surelyGranted_of_asks_none {op : LockOp μ} (h : op.asks = none) :
    SurelyGranted callers op := by
  constructor
  · intro j hconflict
    obtain ⟨m, mode, hsome, -⟩ := LockOp.exists_of_conflicts hconflict
    rw [h] at hsome
    cases hsome
  · rintro m rfl
    cases h

omit [DecidableEq ι] in
/-- Of callers that all ask, the one that asks for the highest mutex finds it free: whoever held it
would ask higher. -/
theorem exists_asked_unheld (h : ∀ i, Ordered rank (callers i).held (callers i).rest)
    (hrest : ∃ i, (callers i).rest ≠ [])
    (hasking : ∀ i, (callers i).rest ≠ [] →
      ∃ op ops m, (callers i).rest = op :: ops ∧ op.asks = some m) :
    ∃ i op ops m, (callers i).rest = op :: ops ∧ op.asks = some m ∧
      ∀ j mode, (m, mode) ∉ (callers j).held := by
  let asked (i : ι) : ℕ := (((callers i).rest.head?.bind LockOp.asks).map rank).getD 0
  have hasked : ∀ {j op' ops' m'}, (callers j).rest = op' :: ops' → op'.asks = some m' →
      asked j = rank m' := by
    intro j op' ops' m' hj hm'
    simp [asked, hj, hm']
  have hwaiting : (Finset.univ.filter fun i => (callers i).rest ≠ []).Nonempty := by
    obtain ⟨i, hne⟩ := hrest
    exact ⟨i, Finset.mem_filter.mpr ⟨Finset.mem_univ i, hne⟩⟩
  obtain ⟨i, himem, hmax⟩ := Finset.exists_max_image _ asked hwaiting
  obtain ⟨op, ops, m, hop, hasks⟩ := hasking i (Finset.mem_filter.mp himem).2
  refine ⟨i, op, ops, m, hop, hasks, fun j mode hmem => ?_⟩
  have hj := h j
  have hne : (callers j).rest ≠ [] := by
    intro hnil
    rw [hnil, Ordered] at hj
    rw [hj] at hmem
    cases hmem
  obtain ⟨op', ops', m', hop', hasks'⟩ := hasking j hne
  rw [hop'] at hj
  have hlt : rank m < rank m' := hj.1 m' hasks' _ hmem
  have hle := hmax j (Finset.mem_filter.mpr ⟨Finset.mem_univ j, hne⟩)
  rw [hasked hop' hasks', hasked hop hasks] at hle
  omega

omit [DecidableEq ι] in
/-- **Callers that ask for mutexes in one order are never all waiting.** -/
theorem exists_granted (h : ∀ i, Ordered rank (callers i).held (callers i).rest)
    (hrest : ∃ i, (callers i).rest ≠ []) :
    ∃ i op ops, (callers i).rest = op :: ops ∧ SurelyGranted callers op := by
  by_cases hgives : ∃ i op ops, (callers i).rest = op :: ops ∧ op.asks = none
  · obtain ⟨i, op, ops, hop, hasks⟩ := hgives
    exact ⟨i, op, ops, hop, surelyGranted_of_asks_none hasks⟩
  · have hasking : ∀ i, (callers i).rest ≠ [] →
        ∃ op ops m, (callers i).rest = op :: ops ∧ op.asks = some m := by
      intro i hne
      obtain ⟨op, ops, hop⟩ := List.exists_cons_of_ne_nil hne
      cases hasks : op.asks with
      | none => exact absurd ⟨i, op, ops, hop, hasks⟩ hgives
      | some m => exact ⟨op, ops, m, hop, hasks⟩
    obtain ⟨i, op, ops, m, hop, hasks, hnobody⟩ := exists_asked_unheld h hrest hasking
    have hgranted : ∀ {op' : LockOp μ}, op'.asks = some m → Granted callers op' := by
      intro op' hop' j hconflict
      obtain ⟨m', mode, hm', hmem⟩ := LockOp.exists_of_conflicts hconflict
      rw [hop'] at hm'
      cases hm'
      exact hnobody j mode hmem
    -- a writer that waits for the free mutex goes first
    by_cases hwriter : ∃ j ops', (callers j).rest = .lock m :: ops'
    · obtain ⟨j, ops', hj⟩ := hwriter
      exact ⟨j, .lock m, ops', hj, hgranted rfl, fun m' hm' => by cases hm'⟩
    · refine ⟨i, op, ops, hop, hgranted hasks, ?_⟩
      rintro m' rfl j hhead
      cases hasks
      obtain ⟨ops', hj⟩ := List.head?_eq_some_iff.mp hhead
      exact hwriter ⟨j, ops', hj⟩

/-- **Callers that ask for mutexes in one order have all ended when nothing is granted.** -/
theorem finished_of_stuck (h : ∀ i, Ordered rank (callers i).held (callers i).rest)
    (hrun : Together callers callers') (hstuck : Stuck callers') (i : ι) :
    (callers' i).rest = [] := by
  by_contra hne
  obtain ⟨j, op, ops, hop, hgranted⟩ := exists_granted (hrun.ordered h) ⟨i, hne⟩
  exact hstuck j op ops hop hgranted

/-- The operations that are left. -/
def left (callers : ι → Caller μ) : ℕ := ∑ i, (callers i).rest.length

/-- Every step makes one operation, so there are at most as many steps as operations. -/
theorem left_of_step (hstep : Step callers callers') : left callers' + 1 = left callers := by
  obtain ⟨i, op, ops, hrest, -⟩ := hstep
  rw [left, left, ← Finset.add_sum_erase _ _ (Finset.mem_univ i),
    ← Finset.add_sum_erase _ _ (Finset.mem_univ i), Function.update_self, hrest]
  have hothers : ∀ j ∈ Finset.univ.erase i,
      (Function.update callers i ⟨op.after (callers i).held, ops⟩ j).rest.length =
        (callers j).rest.length := by
    intro j hj
    rw [Function.update_of_ne (Finset.ne_of_mem_erase hj)]
  rw [Finset.sum_congr rfl hothers, List.length_cons]
  exact Nat.add_right_comm _ _ 1

/-- Every run can be continued until nothing is granted. -/
theorem exists_stuck (callers : ι → Caller μ) :
    ∃ callers', Together callers callers' ∧ Stuck callers' := by
  induction hn : left callers generalizing callers with
  | zero =>
      refine ⟨callers, .refl, fun i op ops hrest _ => ?_⟩
      have hzero := Finset.sum_eq_zero_iff.mp hn i (Finset.mem_univ i)
      rw [hrest] at hzero
      cases hzero
  | succ n ih =>
      by_cases hstuck : Stuck callers
      · exact ⟨callers, .refl, hstuck⟩
      · simp only [Stuck, not_forall, not_not] at hstuck
        obtain ⟨i, op, ops, hrest, hgranted⟩ := hstuck
        have hstep : Step callers _ := .perform i op ops hrest hgranted.1
        have hleft := (left_of_step hstep).trans hn
        obtain ⟨callers', hrun, hend⟩ := ih _ (Nat.succ_injective hleft)
        exact ⟨callers', .head hstep hrun, hend⟩

end

end BhtBhte.Lib
