import Mathlib.Data.List.Infix

/-!
# Programs that talk to another side

A program hands pieces to another side whose state it does not see, and ends with a value or an
error.  What it has handed over stays handed over when it ends with an error.

## Main definitions

* `Ran` — what is written in a run, how the run ends, and the state the other side is left in.
* `Session` — a program, with `pure`, `bind` and `fail`.
-/
namespace BhtBhte.Lib

/-- What a run leaves behind. -/
structure Ran (ω ε σ α : Type) where
  written : List ω
  result : Except ε α
  state : σ

/-- A program that writes pieces of type `ω` to a side with states in `σ`. -/
structure Session (ω ε σ α : Type) where
  run : σ → Ran ω ε σ α

namespace Session
variable {ω ε σ α β : Type}

/-- End with what is already known. -/
def ofExcept (result : Except ε α) : Session ω ε σ α := ⟨fun s => ⟨[], result, s⟩⟩

/-- A program that ends with an error. -/
def fail (e : ε) : Session ω ε σ α := ofExcept (.error e)

/-- The second program is run when the first has ended with a value. -/
def bind (x : Session ω ε σ α) (f : α → Session ω ε σ β) : Session ω ε σ β where
  run s :=
    match (x.run s).result with
    | .ok a =>
        let next := (f a).run (x.run s).state
        ⟨(x.run s).written ++ next.written, next.result, next.state⟩
    | .error e => ⟨(x.run s).written, .error e, (x.run s).state⟩

instance : Monad (Session ω ε σ) where
  pure a := ofExcept (.ok a)
  bind := bind

variable {x : Session ω ε σ α} {f : α → Session ω ε σ β} {s : σ} {a : α} {e : ε}

@[simp] theorem run_ofExcept (result : Except ε α) :
    (ofExcept result : Session ω ε σ α).run s = ⟨[], result, s⟩ := rfl

@[simp] theorem run_pure : (Pure.pure a : Session ω ε σ α).run s = ⟨[], .ok a, s⟩ := rfl

@[simp] theorem run_fail : (fail e : Session ω ε σ α).run s = ⟨[], .error e, s⟩ := rfl

theorem run_bind_of_ok (h : (x.run s).result = .ok a) :
    (x >>= f).run s = ⟨(x.run s).written ++ ((f a).run (x.run s).state).written,
      ((f a).run (x.run s).state).result, ((f a).run (x.run s).state).state⟩ := by
  show (bind x f).run s = _
  simp only [bind, h]

theorem run_bind_of_error (h : (x.run s).result = .error e) :
    (x >>= f).run s = ⟨(x.run s).written, .error e, (x.run s).state⟩ := by
  show (bind x f).run s = _
  simp only [bind, h]

/-- What is written is not taken back. -/
theorem written_prefix_bind : (x.run s).written <+: ((x >>= f).run s).written := by
  cases h : (x.run s).result with
  | ok a =>
      rw [run_bind_of_ok h]
      exact List.prefix_append _ _
  | error e => rw [run_bind_of_error h]

/-- A second program that writes nothing. -/
theorem written_bind (h : ∀ a s, ((f a).run s).written = []) :
    ((x >>= f).run s).written = (x.run s).written := by
  cases hx : (x.run s).result with
  | ok a => rw [run_bind_of_ok hx, h, List.append_nil]
  | error e => rw [run_bind_of_error hx]

end Session

end BhtBhte.Lib
