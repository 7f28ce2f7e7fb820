import Mathlib.Tactic.Common

/-!
# Calls that may re-enter and may revert

An account with entry points is run by outside parties.  An entry point reverts,
returns, or hands control to an outside party in the middle of its body; that
party may call any entry point again before it gives control back.  A call that
reverts leaves the state as it found it, and so does a frame of an outside party
that reverts after calls of its own succeeded.

## Main definitions

* `Outcome σ` — what an entry point does in a state.
* `Action ι` — a tree of calls, with everything that happens inside them.
* `Action.exec` — the state a tree of calls leaves.
* `Preserved` — the obligations of an invariant; `Preserved.exec` discharges them
  over every tree.
* `PreservedBy` — the obligations over the trees whose calls meet a condition.
-/
namespace BhtBhte.Lib

/-- What one entry point does: revert, return, or hand control out in a state `s`
and continue with `resume` in whatever state it gets back. -/
inductive Outcome (σ : Type) where
  | revert
  | done (s : σ)
  | callOut (s : σ) (resume : σ → Option σ)

/-- A tree of calls.  `call` sends a message to an entry point; `during` and
`accepts` say what the outside party does if control is handed to it and whether it
then succeeds.  `frame` is a frame of an outside party that makes calls in order and
may revert all of them at its end. -/
inductive Action (ι : Type) where
  | call (msg : ι) (during : List (Action ι)) (accepts : Bool)
  | frame (acts : List (Action ι)) (reverts : Bool)

namespace Action
variable {σ ι : Type} (enter : ι → σ → Outcome σ)

mutual
/-- The state after one action. -/
def exec : Action ι → σ → σ
  | .call msg during accepts, s =>
    match enter msg s with
    | .revert => s
    | .done s' => s'
    | .callOut s' resume =>
      if accepts then (resume (execAll during s')).getD s else s
  | .frame acts reverts, s => if reverts then s else execAll acts s

/-- The state after a list of actions in order. -/
def execAll : List (Action ι) → σ → σ
  | [], s => s
  | a :: as, s => execAll as (exec a s)
end

end Action

/-- `Inv` holds wherever control can be: after a returning entry point, when
control is handed out, and after resuming from a state that satisfies it. -/
structure Preserved {σ ι : Type} (enter : ι → σ → Outcome σ) (Inv : σ → Prop) : Prop where
  done : ∀ {msg s s'}, Inv s → enter msg s = .done s' → Inv s'
  callOut : ∀ {msg s s' resume}, Inv s → enter msg s = .callOut s' resume → Inv s'
  resume : ∀ {msg s s' resume t t'}, enter msg s = .callOut s' resume → Inv t →
    resume t = some t' → Inv t'

namespace Preserved
variable {σ ι : Type} {enter : ι → σ → Outcome σ} {Inv : σ → Prop}

mutual
/-- An invariant survives every tree of calls, whatever happens inside it. -/
theorem exec (h : Preserved enter Inv) :
    ∀ (a : Action ι) (s : σ), Inv s → Inv (Action.exec enter a s)
  | .call msg during accepts, s, hs => by
    rw [Action.exec]
    split
    · exact hs
    · rename_i s' he
      exact h.done hs he
    · rename_i s' resume he
      split
      · cases hr : resume (Action.execAll enter during s') with
        | none => exact hs
        | some t' =>
            exact h.resume he (execAll h during s' (h.callOut hs he)) hr
      · exact hs
  | .frame acts reverts, s, hs => by
    rw [Action.exec]
    split
    · exact hs
    · exact execAll h acts s hs

theorem execAll (h : Preserved enter Inv) :
    ∀ (as : List (Action ι)) (s : σ), Inv s → Inv (Action.execAll enter as s)
  | [], _, hs => hs
  | a :: as, s, hs => execAll h as _ (exec h a s hs)
end

end Preserved

/-! ## Trees whose calls meet a condition -/

namespace Action
variable {ι : Type} (ok : ι → Bool → Prop)

mutual
/-- Every call of the tree meets the condition, which also sees whether the outside party
would succeed. -/
def All : Action ι → Prop
  | .call msg during accepts => ok msg accepts ∧ AllIn during
  | .frame acts _ => AllIn acts

def AllIn : List (Action ι) → Prop
  | [] => True
  | a :: as => All a ∧ AllIn as
end

end Action

/-- `Inv` holds wherever control can be, as long as the calls meet `ok`.  Where the outside
party does not succeed nothing has to be shown: the call is undone. -/
structure PreservedBy {σ ι : Type} (enter : ι → σ → Outcome σ) (ok : ι → Bool → Prop)
    (Inv : σ → Prop) : Prop where
  done : ∀ {msg accepts s s'}, ok msg accepts → Inv s → enter msg s = .done s' → Inv s'
  callOut : ∀ {msg s s' resume}, ok msg true → Inv s → enter msg s = .callOut s' resume → Inv s'
  resume : ∀ {msg s s' resume t t'}, ok msg true → enter msg s = .callOut s' resume → Inv t →
    resume t = some t' → Inv t'

namespace PreservedBy
variable {σ ι : Type} {enter : ι → σ → Outcome σ} {ok : ι → Bool → Prop} {Inv : σ → Prop}

mutual
/-- The invariant survives every tree whose calls meet the condition. -/
theorem exec (h : PreservedBy enter ok Inv) :
    ∀ (a : Action ι) (s : σ), a.All ok → Inv s → Inv (Action.exec enter a s)
  | .call msg during accepts, s, hall, hs => by
    rw [Action.exec]
    rw [Action.All] at hall
    obtain ⟨hok, hduring⟩ := hall
    split
    · exact hs
    · rename_i s' he
      exact h.done hok hs he
    · rename_i s' resume he
      split
      · next haccepts =>
          rw [haccepts] at hok
          cases hr : resume (Action.execAll enter during s') with
          | none => exact hs
          | some t' =>
              exact h.resume hok he (execAll h during s' hduring (h.callOut hok hs he)) hr
      · exact hs
  | .frame acts reverts, s, hall, hs => by
    rw [Action.exec]
    rw [Action.All] at hall
    split
    · exact hs
    · exact execAll h acts s hall hs

theorem execAll (h : PreservedBy enter ok Inv) :
    ∀ (as : List (Action ι)) (s : σ), Action.AllIn ok as → Inv s →
      Inv (Action.execAll enter as s)
  | [], _, _, hs => hs
  | a :: as, s, hall, hs => by
    rw [Action.AllIn] at hall
    exact execAll h as _ hall.2 (exec h a s hall.1 hs)
end

end PreservedBy

end BhtBhte.Lib
