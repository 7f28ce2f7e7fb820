import BhtBhte.Anchor.Verifier

/-!
# When an anchor becomes final

`FinalizeAnchor` looks at a challenge and at nothing else: an anchor that was never confirmed is
finalized on request.  And a second submission of a root writes a new anchor over the old one,
whatever its status.  Where a run avoids both, a root becomes final after its confirmations and
after the challenges raised on it, and stays final.  `finalized_of_run` says so for every run of
such steps.
-/
namespace BhtBhte.Anchor

open BhtBhte.Lib
open BhtBhte.Channel (Hash)

variable {w : World} {r : Hash} {log : List Event}

def World.Finalized (w : World) (r : Hash) : Prop :=
  ∃ a, w.verifier.anchors.get? r = some a ∧ a.status = .statusFinalized

/-- After its last submission the root was confirmed, with enough confirmations. -/
def ConfirmedSince (log : List Event) (r : Hash) : Prop :=
  ∃ before after c, log = before ++ .confirmed r c :: after ∧ minBHCConfirmations ≤ c ∧
    ∀ h, .submitted r h ∉ after

/-- Every challenge that was raised on the root has ended. -/
def World.Unchallenged (w : World) (r : Hash) : Prop :=
  ∀ t, .challenged r t ∈ w.log → t ≤ w.now

/-- An anchor is finalized only if it has its confirmations, and a submission is committed only
over an anchor that is not final and has no challenge that still runs. -/
def Op.safe (w : World) : Op → Prop
  | .finalizeAnchor r => ∀ a, w.verifier.anchors.get? r = some a → a.status ≠ .statusFinalized →
      (a.status = .statusChallenged → a.challengeEndsAt ≤ w.now) →
      minBHCConfirmations ≤ a.confirmations
  | .submitAnchorToL1 send submission coinbaseAddr => ∀ s,
      committedSubmission send submission coinbaseAddr w.verifier = some s →
      ∀ a, w.verifier.anchors.get? s.stateRoot = some a → a.status ≠ .statusFinalized ∧
        (a.status = .statusChallenged → a.challengeEndsAt ≤ w.now)
  | _ => True

/-! ## The log -/

theorem ConfirmedSince.append (h : ConfirmedSince log r) {events : List Event}
    (hquiet : ∀ h, .submitted r h ∉ events) : ConfirmedSince (log ++ events) r := by
  obtain ⟨before, after, c, rfl, hc, hafter⟩ := h
  refine ⟨before, after ++ events, c, by simp, hc, fun h hmem => ?_⟩
  rcases List.mem_append.mp hmem with hmem | hmem
  · exact hafter h hmem
  · exact hquiet h hmem

theorem confirmedSince_of_mem {events : List Event} {c : UInt64}
    (hmem : .confirmed r c ∈ events) (hc : minBHCConfirmations ≤ c)
    (hquiet : ∀ h, .submitted r h ∉ events) : ConfirmedSince (log ++ events) r := by
  obtain ⟨before, after, rfl⟩ := List.append_of_mem hmem
  exact ⟨log ++ before, after, c, by simp, hc, fun h hafter =>
    hquiet h (List.mem_append_right _ (List.mem_cons_of_mem _ hafter))⟩

/-- A check leaves an anchor alone unless it was submitted, and then it ends up confirmed only
with enough confirmations. -/
theorem check_cases (a : L1Anchor) (answer : Option UInt64) :
    a.check answer = a ∨ a.status = .statusSubmitted ∧
      ∃ c, answer = some c ∧ (a.check answer).confirmations = c ∧
        (a.check answer).status ≠ .statusFinalized := by
  unfold L1Anchor.check
  split
  · exact .inl rfl
  · next hstatus =>
    have hsubmitted := not_not.mp hstatus
    split
    · exact .inl rfl
    · next c =>
      split
      · exact .inr ⟨hsubmitted, c, rfl, rfl, by simp⟩
      · exact .inr ⟨hsubmitted, c, rfl, rfl, by simp [hsubmitted]⟩

theorem check_eq_self {a : L1Anchor} (h : a.status ≠ .statusSubmitted) (answer : Option UInt64) :
    a.check answer = a := by
  unfold L1Anchor.check
  exact if_pos h

theorem now_le_exec (op : Op) (w : World) : w.now ≤ (exec op w).now := by
  generalize hw : exec op w = w'
  cases hw ▸ step_of_exec op w with
  | quiet _ _ _ _ hnow => exact hnow
  | _ => exact le_rfl

/-- A challenge in the log was there before, or it has just been raised and is on its anchor. -/
theorem challenged_exec {op : Op} {t : ℕ} (hmem : .challenged r t ∈ (exec op w).log) :
    .challenged r t ∈ w.log ∨ t = (exec op w).now + challengePeriod ∧ ∃ a,
      (exec op w).verifier.anchors.get? r = some a ∧ a.status = .statusChallenged ∧
        a.challengeEndsAt = t := by
  generalize hw : exec op w = w' at hmem
  cases hw ▸ step_of_exec op w with
  | recorded => exact .inl hmem
  | quiet _ _ _ hlog => exact .inl (hlog ▸ hmem)
  | committed => exact .inl (by simpa using hmem)
  | checked =>
      refine .inl ((List.mem_append.mp hmem).resolve_right fun hmem => ?_)
      obtain ⟨_, _, _, heq, -⟩ := mem_checkEvents.mp hmem
      cases heq
  | @challenged r₀ a₀ =>
      rcases List.mem_append.mp hmem with hmem | hmem
      · exact .inl hmem
      · cases List.mem_singleton.mp hmem
        exact .inr ⟨rfl, _, FinMap.get?_insert_self .., rfl, rfl⟩
  | finalized => exact .inl hmem

/-! ## The invariant -/

/-- Confirmations come from the log, a challenge that still runs is on the anchor, and no
challenge runs for longer than the period. -/
structure Guarded (w : World) : Prop where
  confirmed : ∀ r a, w.verifier.anchors.get? r = some a →
    minBHCConfirmations ≤ a.confirmations → ConfirmedSince w.log r
  standing : ∀ r t, .challenged r t ∈ w.log → w.now < t → ∃ a,
    w.verifier.anchors.get? r = some a ∧ a.status = .statusChallenged ∧ t ≤ a.challengeEndsAt
  bounded : ∀ r t, .challenged r t ∈ w.log → t ≤ w.now + challengePeriod

theorem guarded_newWorld : Guarded newWorld where
  confirmed r a hget := by cases hget
  standing r t hmem := by cases hmem
  bounded r t hmem := by cases hmem

/-- Confirmations are in the log since the last submission. -/
theorem Guarded.confirmed_exec (h : Guarded w) {op : Op} {a : L1Anchor}
    (hget : (exec op w).verifier.anchors.get? r = some a)
    (hle : minBHCConfirmations ≤ a.confirmations) : ConfirmedSince (exec op w).log r := by
  generalize hw : exec op w = w' at hget
  cases hw ▸ step_of_exec op w with
  | recorded => exact h.confirmed r a hget hle
  | quiet hanchors _ _ hlog =>
      rw [hlog]
      exact h.confirmed r a (hanchors ▸ hget) hle
  | committed =>
      dsimp only at hget ⊢
      rw [FinMap.get?_insert] at hget
      split at hget
      · cases hget
        exact absurd hle (show ¬ minBHCConfirmations ≤ 0 by decide)
      · next hne => exact (h.confirmed r a hget hle).append (by simp [hne])
  | @checked answer =>
      have hquiet : ∀ height, .submitted r height ∉ checkEvents answer w.verifier := by
        intro height hmem
        obtain ⟨_, _, _, heq, -⟩ := mem_checkEvents.mp hmem
        cases heq
      dsimp only at hget ⊢
      rw [FinMap.get?_mapValues] at hget
      obtain ⟨a₀, hget₀, rfl⟩ := Option.map_eq_some_iff.mp hget
      rcases check_cases a₀ (answer a₀) with hsame | ⟨hstatus, c, hc, hconf, -⟩
      · rw [hsame] at hle
        exact (h.confirmed r a₀ hget₀ hle).append hquiet
      · rw [hconf] at hle
        exact confirmedSince_of_mem
          (mem_checkEvents.mpr ⟨r, a₀, c, rfl, hget₀, hstatus, hc, hle⟩) hle hquiet
  | @challenged r₀ a₀ proof hget₀ =>
      dsimp only at hget ⊢
      rw [FinMap.get?_insert] at hget
      split at hget
      · next heq =>
        cases hget
        exact (heq ▸ h.confirmed r₀ a₀ hget₀ hle).append (by simp)
      · exact (h.confirmed r a hget hle).append (by simp)
  | @finalized r₀ a₀ hget₀ =>
      dsimp only at hget ⊢
      rw [FinMap.get?_insert] at hget
      split at hget
      · next heq =>
        cases hget
        exact heq ▸ h.confirmed r₀ a₀ hget₀ hle
      · exact h.confirmed r a hget hle

/-- A challenge that still runs stays on its anchor, and a new one is on it. -/
theorem Guarded.standing_exec (h : Guarded w) {op : Op} (hsafe : op.safe w) {t : ℕ}
    (hmem : .challenged r t ∈ (exec op w).log) (hlt : (exec op w).now < t) : ∃ a,
      (exec op w).verifier.anchors.get? r = some a ∧ a.status = .statusChallenged ∧
        t ≤ a.challengeEndsAt := by
  rcases challenged_exec hmem with hold | ⟨-, a, hget, hstatus, hends⟩
  · have hnow := (now_le_exec op w).trans_lt hlt
    obtain ⟨a, hget, hstatus, hle⟩ := h.standing r t hold hnow
    generalize hw : exec op w = w'
    cases hw ▸ step_of_exec op w with
    | recorded => exact ⟨a, hget, hstatus, hle⟩
    | quiet hanchors => exact ⟨a, by rw [hanchors, hget], hstatus, hle⟩
    | @committed _ _ _ s _ _ hcommitted =>
        have hne : r ≠ s.stateRoot := by
          rintro rfl
          have hended := (hsafe s hcommitted a hget).2 hstatus
          exact absurd (hnow.trans_le hle) (not_lt.mpr hended)
        exact ⟨a, (FinMap.get?_insert_of_ne _ _ hne).trans hget, hstatus, hle⟩
    | @checked answer =>
        have hsame := check_eq_self (a := a) (by rw [hstatus]; decide) (answer a)
        refine ⟨a, ?_, hstatus, hle⟩
        dsimp only
        rw [FinMap.get?_mapValues, hget, Option.map_some, hsame]
    | @challenged r₀ =>
        by_cases hr : r = r₀
        · subst hr
          exact ⟨_, FinMap.get?_insert_self .., rfl, h.bounded r t hold⟩
        · exact ⟨a, (FinMap.get?_insert_of_ne _ _ hr).trans hget, hstatus, hle⟩
    | @finalized r₀ a₀ hget₀ hended =>
        have hne : r ≠ r₀ := by
          rintro rfl
          obtain rfl : a₀ = a := Option.some.inj (hget₀.symm.trans hget)
          exact absurd (hnow.trans_le hle) (not_lt.mpr (hended hstatus))
        exact ⟨a, (FinMap.get?_insert_of_ne _ _ hne).trans hget, hstatus, hle⟩
  · exact ⟨a, hget, hstatus, hends.ge⟩

theorem guarded_exec {op : Op} (h : Guarded w) (hsafe : op.safe w) : Guarded (exec op w) where
  confirmed _ _ hget hle := h.confirmed_exec hget hle
  standing _ _ hmem hlt := h.standing_exec hsafe hmem hlt
  bounded r t hmem := by
    rcases challenged_exec hmem with hmem | ⟨rfl, -⟩
    · exact (h.bounded r t hmem).trans (Nat.add_le_add_right (now_le_exec op w) _)
    · exact le_rfl

/-! ## Becoming final -/

theorem finalized_iff {a : L1Anchor} (hget : w.verifier.anchors.get? r = some a) :
    w.Finalized r ↔ a.status = .statusFinalized := by
  simp [World.Finalized, hget]

/-- Nothing but a challenge that still runs holds `FinalizeAnchor` back. -/
theorem finalized_finalizeAnchor {a : L1Anchor} (hget : w.verifier.anchors.get? r = some a)
    (hended : a.status = .statusChallenged → a.challengeEndsAt ≤ w.now) :
    (exec (.finalizeAnchor r) w).Finalized r := by
  have hopen : ¬ (a.status = .statusChallenged ∧ w.now < a.challengeEndsAt) := by
    rintro ⟨hstatus, hlt⟩
    exact absurd (hended hstatus) (not_le.mpr hlt)
  simp only [exec, finalizeAnchor, hget, if_neg hopen]
  exact ⟨_, FinMap.get?_insert_self .., rfl⟩

theorem finalized_exec {op : Op} (hsafe : op.safe w) (hfinal : w.Finalized r) :
    (exec op w).Finalized r := by
  obtain ⟨a, hget, hstatus⟩ := hfinal
  generalize hw : exec op w = w'
  cases hw ▸ step_of_exec op w with
  | recorded => exact ⟨a, hget, hstatus⟩
  | quiet hanchors => exact ⟨a, by rw [hanchors, hget], hstatus⟩
  | @committed _ _ _ s _ _ hcommitted =>
      have hne : r ≠ s.stateRoot := by
        rintro rfl
        exact (hsafe s hcommitted a hget).1 hstatus
      exact ⟨a, (FinMap.get?_insert_of_ne _ _ hne).trans hget, hstatus⟩
  | @checked answer =>
      have hsame := check_eq_self (a := a) (by rw [hstatus]; decide) (answer a)
      refine ⟨a, ?_, hstatus⟩
      dsimp only
      rw [FinMap.get?_mapValues, hget, Option.map_some, hsame]
  | @challenged r₀ a₀ _ hget₀ hopen =>
      have hne : r ≠ r₀ := by
        rintro rfl
        exact hopen (Option.some.inj (hget₀.symm.trans hget) ▸ hstatus)
      exact ⟨a, (FinMap.get?_insert_of_ne _ _ hne).trans hget, hstatus⟩
  | @finalized r₀ a₀ =>
      by_cases hr : r = r₀
      · subst hr
        exact ⟨_, FinMap.get?_insert_self .., rfl⟩
      · exact ⟨a, (FinMap.get?_insert_of_ne _ _ hr).trans hget, hstatus⟩

/-- Only `FinalizeAnchor` makes an anchor final, and its guard has let it through. -/
theorem becomes_final {op : Op} (hbefore : ¬ w.Finalized r) (hafter : (exec op w).Finalized r) :
    op = .finalizeAnchor r ∧ ∃ a, w.verifier.anchors.get? r = some a ∧
      a.status ≠ .statusFinalized ∧ (a.status = .statusChallenged → a.challengeEndsAt ≤ w.now) := by
  obtain ⟨a, hget, hstatus⟩ := hafter
  generalize hw : exec op w = w' at hget
  cases hw ▸ step_of_exec op w with
  | recorded => exact absurd ⟨a, hget, hstatus⟩ hbefore
  | quiet hanchors => exact absurd ⟨a, by rw [← hanchors, hget], hstatus⟩ hbefore
  | committed =>
      rw [FinMap.get?_insert] at hget
      split at hget
      · cases hget
        cases hstatus
      · exact absurd ⟨a, hget, hstatus⟩ hbefore
  | @checked answer =>
      dsimp only at hget
      rw [FinMap.get?_mapValues] at hget
      obtain ⟨a₀, hget₀, rfl⟩ := Option.map_eq_some_iff.mp hget
      rcases check_cases a₀ (answer a₀) with hsame | ⟨-, _, -, -, hne⟩
      · exact absurd ⟨a₀, hget₀, hsame ▸ hstatus⟩ hbefore
      · exact absurd hstatus hne
  | challenged =>
      rw [FinMap.get?_insert] at hget
      split at hget
      · cases hget
        cases hstatus
      · exact absurd ⟨a, hget, hstatus⟩ hbefore
  | @finalized r₀ a₀ hget₀ hended =>
      rw [FinMap.get?_insert] at hget
      split at hget
      · next heq =>
        subst heq
        exact ⟨rfl, a₀, hget₀, fun hfinal => hbefore ⟨a₀, hget₀, hfinal⟩, hended⟩
      · exact absurd ⟨a, hget, hstatus⟩ hbefore

/-- **On every run whose steps are safe, a root becomes final only when it was confirmed since
its last submission and no challenge raised on it still runs, and it stays final.** -/
theorem finalized_of_run (ops : List Op) (op : Op)
    (h : Allowed exec (fun w op => op.safe w) (ops ++ [op]) newWorld) (r : Hash) :
    ((run ops newWorld).Finalized r → (run (ops ++ [op]) newWorld).Finalized r) ∧
    (¬ (run ops newWorld).Finalized r → (run (ops ++ [op]) newWorld).Finalized r →
      ConfirmedSince (run ops newWorld).log r ∧ (run ops newWorld).Unchallenged r) := by
  obtain ⟨hops, hsafe⟩ := allowed_concat.mp h
  have hguarded : Guarded (run ops newWorld) :=
    run_induction (fun _ _ hg hs => guarded_exec hg hs) guarded_newWorld hops
  have hrun : run (ops ++ [op]) newWorld = exec op (run ops newWorld) := runOps_concat ..
  rw [hrun]
  refine ⟨finalized_exec hsafe, fun hbefore hafter => ?_⟩
  obtain ⟨rfl, a, hget, hopen, hended⟩ := becomes_final hbefore hafter
  refine ⟨hguarded.confirmed r a hget (hsafe a hget hopen hended), fun t hmem => ?_⟩
  by_contra hlt
  obtain ⟨a', hget', hstatus, hle⟩ := hguarded.standing r t hmem (not_le.mp hlt)
  obtain rfl : a = a' := Option.some.inj (hget.symm.trans hget')
  exact hlt (hle.trans (hended hstatus))

/-! ## Runs to a final anchor -/

def someRoot : StateRoot :=
  { blockHeight := 1, blockHash := ⟨List.replicate 32 2, by simp⟩
    stateRoot := ⟨List.replicate 32 1, by simp⟩ }

/-- What `GenerateAnchorSubmission` answers for it. -/
def someSubmission : AnchorSubmission :=
  { stateRoot := someRoot.stateRoot, blockHeight := 1, fee := 0
    opReturnData := buildOPReturnData someRoot }

/-- The root is recorded, and a submission for it is generated and accepted by the node. -/
def submittedRun : List Op :=
  [.recordStateRoot (some someRoot), .generateAnchorSubmission 1 0, .storeSubmission 0,
    .submitAnchorToL1 (fun _ _ => .ok "") (some someSubmission) ""]

/-- The node has seen six confirmations. -/
def confirmedRun : List Op := submittedRun ++ [.checkConfirmations fun _ => some 6]

def submittedAnchor : L1Anchor :=
  { anchorID := someRoot.stateRoot, stateRoot := some someRoot, status := .statusSubmitted
    bhcTxHash := "" }

theorem anchors_submittedRun : (run submittedRun newWorld).verifier.anchors =
    (∅ : FinMap Hash L1Anchor).insert someRoot.stateRoot submittedAnchor := rfl

theorem log_submittedRun :
    (run submittedRun newWorld).log = [.submitted someRoot.stateRoot 1] := rfl

theorem allowed_submittedRun :
    Allowed exec (fun w op => op.safe w) submittedRun newWorld := by
  refine ⟨trivial, trivial, trivial, ?_, trivial⟩
  intro s _ a hget
  cases hget

theorem get?_confirmedRun : (run confirmedRun newWorld).verifier.anchors.get? someRoot.stateRoot =
    some { submittedAnchor with status := .statusConfirmed, confirmations := 6 } := by
  rw [confirmedRun, run, runOps_concat]
  show (FinMap.mapValues (run submittedRun newWorld).verifier.anchors _).get? _ = _
  rw [FinMap.get?_mapValues, anchors_submittedRun, FinMap.get?_insert_self]
  rfl

theorem finalized_confirmedRun :
    (run (confirmedRun ++ [.finalizeAnchor someRoot.stateRoot]) newWorld).Finalized
        someRoot.stateRoot ∧
      ConfirmedSince (run confirmedRun newWorld).log someRoot.stateRoot ∧
      (run confirmedRun newWorld).Unchallenged someRoot.stateRoot := by
  have hget := get?_confirmedRun
  have hbefore : ¬ (run confirmedRun newWorld).Finalized someRoot.stateRoot := by
    rw [finalized_iff hget]
    decide
  have hallowed : Allowed exec (fun w op => op.safe w)
      (confirmedRun ++ [.finalizeAnchor someRoot.stateRoot]) newWorld := by
    refine allowed_concat.mpr ⟨allowed_concat.mpr ⟨allowed_submittedRun, trivial⟩, ?_⟩
    intro a ha _ _
    cases Option.some.inj (hget.symm.trans ha)
    decide
  have hafter : (run (confirmedRun ++ [.finalizeAnchor someRoot.stateRoot]) newWorld).Finalized
      someRoot.stateRoot := by
    rw [run, runOps_concat]
    exact finalized_finalizeAnchor hget (by decide)
  exact ⟨hafter, (finalized_of_run confirmedRun _ hallowed someRoot.stateRoot).2 hbefore hafter⟩

/-- **`FinalizeAnchor` right after the submission makes the root final, without a confirmation
and without a challenge.** -/
theorem finalized_unconfirmed :
    ¬ (run submittedRun newWorld).Finalized someRoot.stateRoot ∧
      (run (submittedRun ++ [.finalizeAnchor someRoot.stateRoot]) newWorld).Finalized
        someRoot.stateRoot ∧
      ¬ ConfirmedSince (run submittedRun newWorld).log someRoot.stateRoot := by
  have hget : (run submittedRun newWorld).verifier.anchors.get? someRoot.stateRoot =
      some submittedAnchor := by
    rw [anchors_submittedRun, FinMap.get?_insert_self]
  refine ⟨?_, ?_, ?_⟩
  · rw [finalized_iff hget]
    decide
  · rw [run, runOps_concat]
    exact finalized_finalizeAnchor hget (by decide)
  · rintro ⟨before, after, c, heq, -⟩
    have hmem : Event.confirmed someRoot.stateRoot c ∈ (run submittedRun newWorld).log := by
      rw [heq]
      simp
    rw [log_submittedRun] at hmem
    simp at hmem

end BhtBhte.Anchor
