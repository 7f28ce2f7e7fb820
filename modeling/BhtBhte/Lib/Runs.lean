import Mathlib.Tactic.Common

/-!
# Runs of operations

A run applies a list of operations, one after the other.  An operation may be allowed in some
states only; what every allowed operation keeps, a run of allowed operations keeps.
-/
namespace BhtBhte.Lib

variable {S O : Type*} {exec : O → S → S} {allowed : S → O → Prop}

/-- The state after a list of operations. -/
def runOps (exec : O → S → S) (ops : List O) (s : S) : S := ops.foldl (fun s op => exec op s) s

/-- Every operation of the run finds a state where it is allowed. -/
def Allowed (exec : O → S → S) (allowed : S → O → Prop) : List O → S → Prop
  | [], _ => True
  | op :: ops, s => allowed s op ∧ Allowed exec allowed ops (exec op s)

@[simp] theorem runOps_concat (ops : List O) (op : O) (s : S) :
    runOps exec (ops ++ [op]) s = exec op (runOps exec ops s) := by
  rw [runOps, List.foldl_append]
  rfl

theorem allowed_concat {op : O} : ∀ {ops : List O} {s : S},
    Allowed exec allowed (ops ++ [op]) s ↔
      Allowed exec allowed ops s ∧ allowed (runOps exec ops s) op
  | [], s => by simp [Allowed, runOps]
  | op' :: ops, s => by
      rw [List.cons_append, Allowed, Allowed, allowed_concat, and_assoc]
      rfl

theorem run_induction {P : S → Prop} (hstep : ∀ op s, P s → allowed s op → P (exec op s)) :
    ∀ {ops : List O} {s : S}, P s → Allowed exec allowed ops s → P (runOps exec ops s) := by
  intro ops
  induction ops with
  | nil => exact fun h _ => h
  | cons op ops ih => exact fun h hall => ih (hstep op _ h hall.1) hall.2

theorem allowed_and {allowed' : S → O → Prop} : ∀ {ops : List O} {s : S},
    Allowed exec (fun s op => allowed s op ∧ allowed' s op) ops s ↔
      Allowed exec allowed ops s ∧ Allowed exec allowed' ops s
  | [], _ => by simp [Allowed]
  | op :: ops, s => by
      rw [Allowed, Allowed, Allowed, allowed_and]
      exact and_and_and_comm

theorem allowed_true (ops : List O) (s : S) : Allowed exec (fun _ _ => True) ops s := by
  induction ops generalizing s with
  | nil => trivial
  | cons op ops ih => exact ⟨trivial, ih _⟩

/-- What every operation keeps holds along every run. -/
theorem run_invariant {P : S → Prop} (hstep : ∀ op s, P s → P (exec op s)) (ops : List O)
    {s : S} (hs : P s) : P (runOps exec ops s) :=
  run_induction (fun op s hs _ => hstep op s hs) hs (allowed_true ops s)

/-- Operations that are allowed alike wherever an invariant holds are allowed alike along a run. -/
theorem allowed_congr_of {I : S → Prop} {allowed' : S → O → Prop}
    (hinv : ∀ op s, I s → I (exec op s)) (h : ∀ op s, I s → (allowed s op ↔ allowed' s op)) :
    ∀ {ops : List O} {s : S}, I s → (Allowed exec allowed ops s ↔ Allowed exec allowed' ops s)
  | [], _, _ => Iff.rfl
  | op :: ops, s, hs => by
      rw [Allowed, Allowed, h op s hs, allowed_congr_of hinv h (hinv op s hs)]

/-- Where an invariant holds along the run and the allowed operations are the ones that keep a
property, that holds in all states of the run exactly when all its operations are allowed. -/
theorem forall_take_iff_of {I P : S → Prop} {free : S → O → Prop}
    (hinv : ∀ op s, I s → free s op → I (exec op s))
    (hstep : ∀ op s, I s → free s op → P s → (P (exec op s) ↔ allowed s op)) :
    ∀ {ops : List O} {s : S}, I s → P s → Allowed exec free ops s →
      ((∀ n, P (runOps exec (ops.take n) s)) ↔ Allowed exec allowed ops s) := by
  intro ops
  induction ops with
  | nil =>
      intro s _ hs _
      simp [runOps, Allowed, hs]
  | cons op ops ih =>
      intro s hi hs hfree
      rw [Allowed] at hfree ⊢
      have hnext := hinv op s hi hfree.1
      constructor
      · intro h
        have hfirst : P (exec op s) := by simpa [runOps] using h 1
        exact ⟨(hstep op s hi hfree.1 hs).mp hfirst,
          (ih hnext hfirst hfree.2).mp fun n => h (n + 1)⟩
      · rintro ⟨hop, hops⟩ n
        have hrest := (ih hnext ((hstep op s hi hfree.1 hs).mpr hop) hfree.2).mpr hops
        cases n with
        | zero => exact hs
        | succ n => exact hrest n

/-- Where allowed operations are the ones that keep a property, it holds in all states of a run
exactly when all operations of the run are allowed. -/
theorem forall_take_iff {P : S → Prop} (hstep : ∀ op s, P s → (P (exec op s) ↔ allowed s op))
    {ops : List O} {s : S} (hs : P s) :
    (∀ n, P (runOps exec (ops.take n) s)) ↔ Allowed exec allowed ops s :=
  @forall_take_iff_of _ _ exec allowed (fun _ => True) P (fun _ _ => True)
    (fun _ _ _ _ => trivial) (fun op s _ _ hs => hstep op s hs) ops s trivial hs
    (allowed_true ops s)

end BhtBhte.Lib
