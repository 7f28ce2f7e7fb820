import BhtBhte.Lib.Reentrant

/-!
# A ghost beside calls that may re-enter

`ghosted` runs the entry points beside a ghost, which they cannot see: a call that returns or hands
control out adds to the ghost what `note` says, and a revert takes the ghost back with the state.
`exec_ghosted` forgets the ghost, so what is proved about the pairs is about the plain run.
-/
namespace BhtBhte.Lib

variable {σ ι γ : Type} (enter : ι → σ → Outcome σ) (note : ι → σ → γ → γ)

/-- The entry points beside a ghost.  What follows a call out leaves the ghost alone. -/
def ghosted (msg : ι) (p : σ × γ) : Outcome (σ × γ) :=
  match enter msg p.1 with
  | .revert => .revert
  | .done s => .done (s, note msg p.1 p.2)
  | .callOut s resume => .callOut (s, note msg p.1 p.2) fun q => (resume q.1).map (·, q.2)

variable {enter note}

mutual
/-- Without its ghost a tree of calls is the plain one. -/
theorem exec_ghosted : ∀ (a : Action ι) (p : σ × γ),
    (Action.exec (ghosted enter note) a p).1 = Action.exec enter a p.1
  | .call msg during accepts, p => by
    rw [Action.exec, Action.exec, ghosted]
    cases enter msg p.1 with
    | revert => rfl
    | done s => rfl
    | callOut s resume =>
        dsimp only
        by_cases haccepts : accepts
        · rw [if_pos haccepts, if_pos haccepts, execAll_ghosted during]
          cases resume (Action.execAll enter during s) <;> rfl
        · rw [if_neg haccepts, if_neg haccepts]
  | .frame acts reverts, p => by
    rw [Action.exec, Action.exec]
    split
    · rfl
    · exact execAll_ghosted acts p

theorem execAll_ghosted : ∀ (as : List (Action ι)) (p : σ × γ),
    (Action.execAll (ghosted enter note) as p).1 = Action.execAll enter as p.1
  | [], _ => rfl
  | a :: as, p => by rw [Action.execAll, Action.execAll, execAll_ghosted as, exec_ghosted a]
end

/-- What has to be shown of an invariant of the pairs. -/
theorem Preserved.of_ghosted {Inv : σ × γ → Prop}
    (hdone : ∀ {msg s g s'}, Inv (s, g) → enter msg s = .done s' → Inv (s', note msg s g))
    (hcallOut : ∀ {msg s g s' resume}, Inv (s, g) → enter msg s = .callOut s' resume →
      Inv (s', note msg s g))
    (hresume : ∀ {msg s s' resume t g t'}, enter msg s = .callOut s' resume → Inv (t, g) →
      resume t = some t' → Inv (t', g)) : Preserved (ghosted enter note) Inv where
  done := by
    intro msg p p' hp h
    rw [ghosted] at h
    split at h
    · cases h
    · next s hs => cases h; exact hdone hp hs
    · cases h
  callOut := by
    intro msg p p' resume hp h
    rw [ghosted] at h
    split at h
    · cases h
    · cases h
    · next s resume' hs => cases h; exact hcallOut hp hs
  resume := by
    intro msg p p' resume q q' h hq hr
    rw [ghosted] at h
    split at h
    · cases h
    · cases h
    · next s resume' hs =>
        cases h
        obtain ⟨t', ht', rfl⟩ := Option.map_eq_some_iff.mp hr
        exact hresume hs hq ht'

end BhtBhte.Lib
