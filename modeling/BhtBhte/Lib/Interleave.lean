import Mathlib.Logic.Function.Basic
import Mathlib.Logic.Relation
import Mathlib.Tactic.Common

/-!
# Calls that are interleaved

Callers share a state that they change by atomic steps.  A step says what the caller does next, so
that what a call does may depend on what it has read.  Between two steps of one caller the others
may do any number of steps.  What every step keeps holds in every interleaving
(`invariant_of_moves`).

## Main definitions

* `Outcome` — what an atomic step does.
* `World`, `Move` — callers that run together.
* `alone` — the steps of one caller, with nobody in between.
-/
namespace BhtBhte.Lib.Interleave

variable {ι S τ O : Type*}

/-- The state after a step, what the caller does next, and what comes out. -/
structure Outcome (S τ O : Type*) where
  state : S
  next : List τ := []
  out : List O := []

/-- What the callers share, what each of them has left to do, and what came out. -/
structure World (ι S τ O : Type*) where
  state : S
  left : ι → List τ
  out : List O

/-- No caller has anything to do. -/
def World.start (s : S) : World ι S τ O := ⟨s, fun _ => [], []⟩

variable [DecidableEq ι] {exec : τ → S → Outcome S τ O} {calls : Set (List τ)}

/-- A caller that has nothing to do starts a call, or one that has does a step. -/
inductive Move (exec : τ → S → Outcome S τ O) (calls : Set (List τ)) :
    World ι S τ O → World ι S τ O → Prop
  | call {w : World ι S τ O} (i : ι) {ts : List τ} (hcall : ts ∈ calls) (hidle : w.left i = []) :
      Move exec calls w { w with left := Function.update w.left i ts }
  | task {w : World ι S τ O} (i : ι) {t : τ} {ts : List τ} (hleft : w.left i = t :: ts) :
      Move exec calls w
        { state := (exec t w.state).state
          left := Function.update w.left i ((exec t w.state).next ++ ts)
          out := w.out ++ (exec t w.state).out }

/-- An invariant of the state, one of what is left to do and one of what came out. -/
structure Keeps (P : S → Prop) (Q : τ → Prop) (R : O → Prop) (w : World ι S τ O) : Prop where
  state : P w.state
  left : ∀ i, ∀ t ∈ w.left i, Q t
  out : ∀ o ∈ w.out, R o

variable {P : S → Prop} {Q : τ → Prop} {R : O → Prop}

omit [DecidableEq ι] in
theorem keeps_start {s : S} (hs : P s) : Keeps P Q R (World.start s : World ι S τ O) :=
  ⟨hs, fun _ => List.forall_mem_nil _, List.forall_mem_nil _⟩

/-- What one step keeps, one move of the callers keeps. -/
theorem Keeps.move {w w' : World ι S τ O} (h : Keeps P Q R w)
    (hcalls : ∀ ts ∈ calls, ∀ t ∈ ts, Q t)
    (hexec : ∀ t s, P s → Q t → P (exec t s).state ∧ (∀ t' ∈ (exec t s).next, Q t') ∧
      ∀ o ∈ (exec t s).out, R o)
    (hmove : Move exec calls w w') : Keeps P Q R w' := by
  cases hmove with
  | @call i ts hcall hidle =>
      have hleft : ∀ j, ∀ t ∈ Function.update w.left i ts j, Q t :=
        (Function.forall_update_iff w.left fun _ ts => ∀ t ∈ ts, Q t).mpr
          ⟨hcalls ts hcall, fun j _ => h.left j⟩
      exact ⟨h.state, hleft, h.out⟩
  | @task i t ts hleft =>
      have htasks : ∀ t' ∈ t :: ts, Q t' := fun t' ht' => h.left i t' (hleft ▸ ht')
      obtain ⟨hstate, hnext, hout⟩ := hexec t w.state h.state (htasks t List.mem_cons_self)
      have hleft' : ∀ j, ∀ t' ∈ Function.update w.left i ((exec t w.state).next ++ ts) j, Q t' := by
        refine (Function.forall_update_iff w.left fun _ ts => ∀ t ∈ ts, Q t).mpr
          ⟨fun t' ht' => ?_, fun j _ => h.left j⟩
        rcases List.mem_append.mp ht' with ht' | ht'
        · exact hnext t' ht'
        · exact htasks t' (List.mem_cons_of_mem _ ht')
      refine ⟨hstate, hleft', fun o ho => ?_⟩
      rcases List.mem_append.mp ho with ho | ho
      · exact h.out o ho
      · exact hout o ho

/-- **What every step keeps holds in every interleaving.** -/
theorem invariant_of_moves {s : S} {w : World ι S τ O} (hs : P s)
    (hcalls : ∀ ts ∈ calls, ∀ t ∈ ts, Q t)
    (hexec : ∀ t s, P s → Q t → P (exec t s).state ∧ (∀ t' ∈ (exec t s).next, Q t') ∧
      ∀ o ∈ (exec t s).out, R o)
    (h : Relation.ReflTransGen (Move exec calls) (World.start s) w) : Keeps P Q R w := by
  induction h with
  | refl => exact keeps_start hs
  | tail _ hmove ih => exact ih.move hcalls hexec hmove

/-- The steps of one caller with nobody in between, up to a number of steps. -/
def alone (exec : τ → S → Outcome S τ O) : ℕ → List τ → S → S
  | 0, _, s => s
  | _ + 1, [], s => s
  | fuel + 1, t :: ts, s => alone exec fuel ((exec t s).next ++ ts) (exec t s).state

end BhtBhte.Lib.Interleave
