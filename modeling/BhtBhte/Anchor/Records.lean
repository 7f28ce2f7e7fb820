import BhtBhte.Anchor.Finality

/-!
# The records behind the anchors

A submission carries a root and a height, and when it is committed the record is looked up under the
height alone.  By then another root may be recorded there, or none; and a root that has an anchor
already gets a second one.  Every other step leaves the records of the anchors and the lists of
heights in order.  `linked_iff` is the equivalence: a run stays in order exactly when all its
commits keep it.
-/
namespace BhtBhte.Anchor

open BhtBhte.Lib
open BhtBhte.Channel (Hash)

variable {w w' : World}

/-- The height under which a root was submitted. -/
def Event.height (r : Hash) : Event → Option UInt64
  | .submitted r' h => if r' = r then some h else none
  | _ => none

/-- The height under which a root was submitted last. -/
def World.submittedHeight (w : World) (r : Hash) : Option UInt64 :=
  (w.log.filterMap (Event.height r)).getLast?

/-- The anchor of the root holds this record. -/
def World.Records (w : World) (r : Hash) (s : StateRoot) : Prop :=
  ∃ a, w.verifier.anchors.get? r = some a ∧ a.stateRoot = some s

/-- Every anchor holds a record of its own root at the height that was submitted, and the list
of a height has the roots whose anchors have that height, each once. -/
structure World.Linked (w : World) : Prop where
  record : ∀ r a, w.verifier.anchors.get? r = some a → ∃ s, a.stateRoot = some s ∧
    s.stateRoot = r ∧ w.submittedHeight r = some s.blockHeight
  nodup : ∀ h, (w.verifier.byHeight h).Nodup
  mem : ∀ h r, r ∈ w.verifier.byHeight h ↔ ∃ s, w.Records r s ∧ s.blockHeight = h

/-- The height of a submission that is committed has a record of its root, and the root has no
anchor yet. -/
def Op.linked (w : World) (op : Op) : Prop :=
  ∀ s, op.committed w = some s →
    (∃ root, w.verifier.stateRoots s.blockHeight = some root ∧ root.stateRoot = s.stateRoot) ∧
    w.verifier.anchors.get? s.stateRoot = none

/-- Roots are recorded under their own height. -/
def World.HeightsRight (w : World) : Prop :=
  ∀ h s, w.verifier.stateRoots h = some s → s.blockHeight = h

theorem heightsRight_exec {op : Op} (h : w.HeightsRight) : (exec op w).HeightsRight := by
  generalize hw : exec op w = w'
  cases hw ▸ step_of_exec op w with
  | @recorded s =>
      intro height s' hs'
      dsimp only at hs'
      by_cases heq : height = s.blockHeight
      · rw [heq, Function.update_self] at hs'
        rw [heq, Option.some.inj hs']
      · rw [Function.update_of_ne heq] at hs'
        exact h height s' hs'
  | quiet _ _ hroots =>
      intro height s hs
      exact h height s (hroots ▸ hs)
  | _ => exact h

/-- A step that leaves the records, the lists and the submitted heights alone. -/
theorem World.Linked.congr (h : w.Linked)
    (hrecord : ∀ r, (w'.verifier.anchors.get? r).map L1Anchor.stateRoot =
      (w.verifier.anchors.get? r).map L1Anchor.stateRoot)
    (hlist : w'.verifier.byHeight = w.verifier.byHeight)
    (hheight : ∀ r, w'.submittedHeight r = w.submittedHeight r) : w'.Linked where
  record r a hget := by
    have hmap := hrecord r
    rw [hget, Option.map_some] at hmap
    obtain ⟨a₀, hget₀, heq⟩ := Option.map_eq_some_iff.mp hmap.symm
    rw [← heq, hheight]
    exact h.record r a₀ hget₀
  nodup height := by
    rw [hlist]
    exact h.nodup height
  mem height r := by
    have hrecords : ∀ s, w'.Records r s ↔ w.Records r s := by
      intro s
      have hiff : ∀ v : World, v.Records r s ↔
          (v.verifier.anchors.get? r).map L1Anchor.stateRoot = some (some s) := fun v =>
        Option.map_eq_some_iff.symm
      rw [hiff, hiff, hrecord]
    rw [hlist, h.mem]
    simp only [hrecords]

/-- Events that are no submissions leave the submitted heights alone. -/
theorem submittedHeight_append {events : List Event} (hlog : w'.log = w.log ++ events) {r : Hash}
    (hquiet : ∀ e ∈ events, e.height r = none) : w'.submittedHeight r = w.submittedHeight r := by
  have hnone : events.filterMap (Event.height r) = [] := by
    rw [List.filterMap_eq_nil_iff]
    exact hquiet
  rw [World.submittedHeight, hlog, List.filterMap_append, hnone, List.append_nil,
    World.submittedHeight]

/-- A new value under a key that has the same record. -/
theorem map_stateRoot_insert {anchors : FinMap Hash L1Anchor} {r r' : Hash} {a a' : L1Anchor}
    (hget : anchors.get? r = some a) (hsame : a'.stateRoot = a.stateRoot) :
    ((anchors.insert r a').get? r').map L1Anchor.stateRoot =
      (anchors.get? r').map L1Anchor.stateRoot := by
  rw [FinMap.get?_insert]
  split
  · next heq => rw [heq, hget, Option.map_some, Option.map_some, hsame]
  · rfl

theorem check_stateRoot (a : L1Anchor) (answer : Option UInt64) :
    (a.check answer).stateRoot = a.stateRoot := by
  unfold L1Anchor.check
  split
  · rfl
  · split
    · rfl
    · split <;> rfl

/-! ## Commits -/

/-- A submission is committed: an anchor with the record under its height replaces the one of
its root, and its root goes to the end of the list of its height. -/
structure Commits (w w' : World) (s : AnchorSubmission) (a : L1Anchor) : Prop where
  anchors : w'.verifier.anchors = w.verifier.anchors.insert s.stateRoot a
  record : a.stateRoot = w.verifier.stateRoots s.blockHeight
  list : w'.verifier.byHeight = Function.update w.verifier.byHeight s.blockHeight
    (w.verifier.byHeight s.blockHeight ++ [s.stateRoot])
  log : w'.log = w.log ++ [.submitted s.stateRoot s.blockHeight]

namespace Commits
variable {s : AnchorSubmission} {a : L1Anchor} {r : Hash} {height : UInt64} {root : StateRoot}

theorem get?_self (hc : Commits w w' s a) : w'.verifier.anchors.get? s.stateRoot = some a := by
  rw [hc.anchors, FinMap.get?_insert_self]

theorem get?_other (hc : Commits w w' s a) (hne : r ≠ s.stateRoot) :
    w'.verifier.anchors.get? r = w.verifier.anchors.get? r := by
  rw [hc.anchors, FinMap.get?_insert_of_ne _ _ hne]

theorem list_self (hc : Commits w w' s a) : w'.verifier.byHeight s.blockHeight =
    w.verifier.byHeight s.blockHeight ++ [s.stateRoot] := by
  rw [hc.list, Function.update_self]

theorem list_other (hc : Commits w w' s a) (hne : height ≠ s.blockHeight) :
    w'.verifier.byHeight height = w.verifier.byHeight height := by
  rw [hc.list, Function.update_of_ne hne]

theorem submittedHeight_self (hc : Commits w w' s a) :
    w'.submittedHeight s.stateRoot = some s.blockHeight := by
  rw [World.submittedHeight, hc.log, List.filterMap_append]
  simp [Event.height]

theorem submittedHeight_other (hc : Commits w w' s a) (hne : r ≠ s.stateRoot) :
    w'.submittedHeight r = w.submittedHeight r := by
  refine submittedHeight_append hc.log fun e he => ?_
  rw [List.mem_singleton.mp he]
  exact if_neg (Ne.symm hne)

theorem records_self (hc : Commits w w' s a)
    (hroot : w.verifier.stateRoots s.blockHeight = some root) (t : StateRoot) :
    w'.Records s.stateRoot t ↔ t = root := by
  rw [World.Records, hc.get?_self]
  simp [hc.record, hroot, eq_comm]

theorem records_other (hc : Commits w w' s a) (hne : r ≠ s.stateRoot) (t : StateRoot) :
    w'.Records r t ↔ w.Records r t := by
  rw [World.Records, hc.get?_other hne, World.Records]

/-- A root that has an anchor is in a list already, and does not go there again. -/
theorem new_of_linked (hc : Commits w w' s a) (h : w.Linked) (h' : w'.Linked)
    (hheight : root.blockHeight = s.blockHeight)
    (hroot : w.verifier.stateRoots s.blockHeight = some root) :
    w.verifier.anchors.get? s.stateRoot = none := by
  by_contra hsome
  obtain ⟨a₀, hget₀⟩ := Option.ne_none_iff_exists'.mp hsome
  obtain ⟨s₀, hs₀, -, -⟩ := h.record s.stateRoot a₀ hget₀
  have hlisted : s.stateRoot ∈ w.verifier.byHeight s₀.blockHeight :=
    (h.mem _ _).mpr ⟨s₀, ⟨a₀, hget₀, hs₀⟩, rfl⟩
  by_cases heq : s₀.blockHeight = s.blockHeight
  · have hnodup := h'.nodup s.blockHeight
    rw [hc.list_self, List.nodup_append] at hnodup
    exact hnodup.2.2 _ (heq ▸ hlisted) _ (List.mem_singleton_self _) rfl
  · -- the list of another height still has the root, whose record is no longer of that height
    rw [← hc.list_other heq, h'.mem] at hlisted
    obtain ⟨t, ht, htheight⟩ := hlisted
    rw [(hc.records_self hroot t).mp ht] at htheight
    exact heq (htheight.symm.trans hheight)

theorem linked (hc : Commits w w' s a) (h : w.Linked)
    (hheight : root.blockHeight = s.blockHeight)
    (hroot : w.verifier.stateRoots s.blockHeight = some root) (hr : root.stateRoot = s.stateRoot)
    (hnew : w.verifier.anchors.get? s.stateRoot = none) : w'.Linked := by
  have hfree : ∀ height, s.stateRoot ∉ w.verifier.byHeight height := by
    intro height hmem
    obtain ⟨t, ⟨a, hget, -⟩, -⟩ := (h.mem _ _).mp hmem
    rw [hnew] at hget
    cases hget
  refine ⟨fun r b hget => ?_, fun height => ?_, fun height r => ?_⟩
  · by_cases hne : r = s.stateRoot
    · subst hne
      rw [hc.get?_self] at hget
      cases hget
      refine ⟨root, hc.record.trans hroot, hr, ?_⟩
      rw [hc.submittedHeight_self, hheight]
    · rw [hc.get?_other hne] at hget
      rw [hc.submittedHeight_other hne]
      exact h.record r b hget
  · by_cases heq : height = s.blockHeight
    · rw [heq, hc.list_self, List.nodup_append]
      refine ⟨h.nodup _, List.nodup_singleton _, ?_⟩
      rintro x hx y hy rfl
      rw [List.mem_singleton.mp hy] at hx
      exact hfree _ hx
    · rw [hc.list_other heq]
      exact h.nodup height
  · by_cases hne : r = s.stateRoot
    · subst hne
      have hmem : s.stateRoot ∈ w'.verifier.byHeight height ↔ height = s.blockHeight := by
        by_cases heq : height = s.blockHeight
        · simp [heq, hc.list_self]
        · simp [heq, hc.list_other heq, hfree height]
      rw [hmem]
      simp only [hc.records_self hroot, exists_eq_left, hheight]
      exact eq_comm
    · have hmem : r ∈ w'.verifier.byHeight height ↔ r ∈ w.verifier.byHeight height := by
        by_cases heq : height = s.blockHeight
        · simp [heq, hc.list_self, hne]
        · rw [hc.list_other heq]
      rw [hmem, h.mem]
      simp only [hc.records_other hne]

/-- A commit keeps the order exactly when the record is that of its root, and the root is new. -/
theorem keeps_iff (hc : Commits w w' s a) (h : w.Linked) (hheights : w.HeightsRight) :
    w'.Linked ↔
      (∃ root, w.verifier.stateRoots s.blockHeight = some root ∧ root.stateRoot = s.stateRoot) ∧
      w.verifier.anchors.get? s.stateRoot = none := by
  constructor
  · intro h'
    obtain ⟨root, hrecord, hr, -⟩ := h'.record s.stateRoot a hc.get?_self
    have hroot := hc.record.symm.trans hrecord
    exact ⟨⟨root, hroot, hr⟩, hc.new_of_linked h h' (hheights _ root hroot) hroot⟩
  · rintro ⟨⟨root, hroot, hr⟩, hnew⟩
    exact hc.linked h (hheights _ root hroot) hroot hr hnew

end Commits

theorem linked_exec {op : Op} (h : w.Linked) (hheights : w.HeightsRight) :
    (exec op w).Linked ↔ op.linked w := by
  have hfree : op.committed w = none → op.linked w := by
    intro hnone s hs
    rw [hnone] at hs
    cases hs
  generalize hw : exec op w = w'
  cases hw ▸ step_of_exec op w with
  | recorded => exact iff_of_true (h.congr (fun _ => rfl) rfl fun _ => rfl) (hfree rfl)
  | quiet hanchors hlist _ hlog _ hnone =>
      refine iff_of_true (h.congr (fun r => ?_) hlist fun r => ?_) (hfree hnone)
      · rw [hanchors]
      · rw [World.submittedHeight, hlog, World.submittedHeight]
  | @committed send submission coinbaseAddr s txHash pendingSubs hcommitted =>
      refine (Commits.keeps_iff ⟨rfl, rfl, rfl, rfl⟩ h hheights).trans ?_
      constructor
      · intro hlinked s' hs'
        cases Option.some.inj (hcommitted.symm.trans hs')
        exact hlinked
      · exact fun hlinked => hlinked s hcommitted
  | checked =>
      refine iff_of_true (h.congr (fun r => ?_) rfl fun r => ?_) (hfree rfl)
      · dsimp only
        rw [FinMap.get?_mapValues, Option.map_map]
        congr 1
        funext a
        exact check_stateRoot a _
      · refine submittedHeight_append rfl fun e he => ?_
        obtain ⟨_, _, _, rfl, -⟩ := mem_checkEvents.mp he
        rfl
  | challenged hget =>
      refine iff_of_true (h.congr (fun r => map_stateRoot_insert hget rfl) rfl fun r => ?_)
        (hfree rfl)
      refine submittedHeight_append rfl fun e he => ?_
      rw [List.mem_singleton.mp he]
      rfl
  | finalized hget =>
      exact iff_of_true (h.congr (fun r => map_stateRoot_insert hget rfl) rfl fun _ => rfl)
        (hfree rfl)

theorem linked_newWorld : newWorld.Linked where
  record r a hget := by cases hget
  nodup _ := List.nodup_nil
  mem height r := by
    refine iff_of_false List.not_mem_nil ?_
    rintro ⟨s, ⟨a, hget, -⟩, -⟩
    cases hget

/-- **A run stays in order exactly when every submission that it commits finds a record of its
root at its height, and no anchor of its root.** -/
theorem linked_iff (ops : List Op) :
    (∀ n, (run (ops.take n) newWorld).Linked) ↔
      Allowed exec (fun w op => op.linked w) ops newWorld := by
  have hheights : ∀ n, (run (ops.take n) newWorld).HeightsRight := fun n =>
    run_invariant (fun _ _ h => heightsRight_exec h) (ops.take n) fun h s hs => by cases hs
  have hstep : ∀ (op : Op) (w : World), w.Linked ∧ w.HeightsRight →
      ((exec op w).Linked ∧ (exec op w).HeightsRight ↔ op.linked w) := by
    rintro op w ⟨hlinked, hheights⟩
    rw [and_iff_left (heightsRight_exec hheights)]
    exact linked_exec hlinked hheights
  rw [← forall_take_iff hstep ⟨linked_newWorld, hheights 0⟩]
  exact forall_congr' fun n => (and_iff_left (hheights n)).symm

/-- In a state in order, `GetAnchorByHeight` answers with the anchors of the height. -/
theorem World.Linked.mem_getAnchorByHeight (h : w.Linked) {height : UInt64}
    {anchors : List L1Anchor} (hok : getAnchorByHeight height w.verifier = .ok anchors)
    {a : L1Anchor} : a ∈ anchors ↔ ∃ r s, w.verifier.anchors.get? r = some a ∧
      a.stateRoot = some s ∧ s.blockHeight = height := by
  unfold getAnchorByHeight at hok
  split at hok
  · cases hok
  · cases hok
    rw [List.mem_filterMap]
    constructor
    · rintro ⟨r, hr, hget⟩
      obtain ⟨s, ⟨a', hget', hs⟩, hheight⟩ := (h.mem height r).mp hr
      obtain rfl : a = a' := Option.some.inj (hget.symm.trans hget')
      exact ⟨r, s, hget, hs, hheight⟩
    · rintro ⟨r, s, hget, hs, hheight⟩
      exact ⟨r, (h.mem height r).mpr ⟨s, ⟨a, hget, hs⟩, hheight⟩, hget⟩

/-- Another root of the same block. -/
def otherRoot : StateRoot :=
  { someRoot with stateRoot := ⟨List.replicate 32 3, by simp⟩ }

/-- The other root is recorded after the submission for the first one was generated. -/
def rerecordedRun : List Op :=
  [.recordStateRoot (some someRoot), .generateAnchorSubmission 1 0, .storeSubmission 0,
    .recordStateRoot (some otherRoot),
    .submitAnchorToL1 (fun _ _ => .ok "") (some someSubmission) ""]

/-- **The anchor of the first root holds the record of the other one.** -/
theorem not_linked_rerecorded : ¬ (run rerecordedRun newWorld).Linked := by
  intro h
  have hget : (run rerecordedRun newWorld).verifier.anchors.get? someRoot.stateRoot =
      some { anchorID := someRoot.stateRoot, stateRoot := some otherRoot
             status := .statusSubmitted, bhcTxHash := "" } := FinMap.get?_insert_self ..
  obtain ⟨s, hs, hroot, -⟩ := h.record _ _ hget
  rw [← Option.some.inj hs] at hroot
  exact absurd hroot (by decide)

end BhtBhte.Anchor
