import BhtBhte.Channel.Manager
import BhtBhte.Lib.Bytes
import BhtBhte.Lib.FinMap
import BhtBhte.Lib.Runs
import BhtBhte.Lib.Text

/-!
# The state anchor verifier

`AnchorVerifier` keeps the state roots that were recorded, the submissions that wait and the
anchors on the first layer.  `GenerateAnchorSubmission` takes its lock twice and
`SubmitAnchorToL1` only after its call to the node, so these calls may interleave: a
submission between the two locks is in flight, and a caller submits any submission it has.
A reply of the node is an argument of the step that uses it.  Times that are stored and never
compared are left out.
-/
namespace BhtBhte.Anchor

open BhtBhte.Lib
open BhtBhte.Channel (Hash timeBytes decimal)

def minBHCConfirmations : UInt64 := 6

/-- Seven days in nanoseconds. -/
def challengePeriod : ℕ := 7 * 24 * 60 * 60 * 10 ^ 9

/-- What has become of an anchor. -/
inductive AnchorStatus where
  | statusPending
  | statusSubmitted
  | statusConfirmed
  | statusChallenged
  | statusFinalized
  deriving DecidableEq

/-- A state root of the second layer with its block. -/
structure StateRoot where
  blockHeight : UInt64
  blockHash : Hash
  stateRoot : Hash
  deriving DecidableEq

/-- An anchor on the first layer. -/
structure L1Anchor where
  anchorID : Hash
  stateRoot : Option StateRoot
  status : AnchorStatus
  bhcTxHash : String
  confirmations : UInt64 := 0
  challengeEndsAt : ℕ := 0
  fraudProof : List UInt8 := []
  deriving DecidableEq

/-- A root that is to be submitted at a height. -/
structure AnchorSubmission where
  stateRoot : Hash
  blockHeight : UInt64
  fee : UInt64
  opReturnData : List UInt8

/-- The verifier: recorded roots by height, submissions that wait, and anchors by root. -/
structure AnchorVerifier where
  anchors : FinMap Hash L1Anchor
  byHeight : UInt64 → List Hash
  stateRoots : UInt64 → Option StateRoot
  pendingSubs : Hash → Option AnchorSubmission

def newAnchorVerifier : AnchorVerifier where
  anchors := ∅
  byHeight _ := []
  stateRoots _ := none
  pendingSubs _ := none

/-! ## Submitting -/

/-- Record a state root under its height, over the one that was there. -/
def recordStateRoot (stateRoot : Option StateRoot) (v : AnchorVerifier) :
    Except String Unit × AnchorVerifier :=
  match stateRoot with
  | none => (.error "nil state root", v)
  | some stateRoot =>
    (.ok (), { v with
      stateRoots := Function.update v.stateRoots stateRoot.blockHeight (some stateRoot) })

/-- `BHTE`, the version, the height, the root, and half of the hash of the block. -/
def buildOPReturnData (stateRoot : StateRoot) : List UInt8 :=
  [0x42, 0x48, 0x54, 0x45] ++ [1] ++ timeBytes stateRoot.blockHeight.toNat ++
    stateRoot.stateRoot.1 ++ stateRoot.blockHash.1.take 16

/-- `GenerateAnchorSubmission` up to its second lock. -/
def generateAnchorSubmission (height fee : UInt64) (v : AnchorVerifier) :
    Except String AnchorSubmission :=
  match v.stateRoots height with
  | none => .error ("state root not found for height " ++ decimal height)
  | some stateRoot => .ok
    { stateRoot := stateRoot.stateRoot
      blockHeight := height
      fee
      opReturnData := buildOPReturnData stateRoot }

/-- `GenerateAnchorSubmission` under its second lock. -/
def storeSubmission (submission : AnchorSubmission) (v : AnchorVerifier) : AnchorVerifier :=
  { v with
    pendingSubs := Function.update v.pendingSubs submission.stateRoot (some submission) }

/-- The text that goes to the node. -/
def opReturnHex (submission : AnchorSubmission) : String :=
  String.ofList (hexEncode submission.opReturnData)

/-- The block of `SubmitAnchorToL1` under the lock. -/
def commitSubmission (submission : AnchorSubmission) (txHash : String) (v : AnchorVerifier) :
    AnchorVerifier :=
  if (v.pendingSubs submission.stateRoot).isSome then
    { v with
      anchors := v.anchors.insert submission.stateRoot
        { anchorID := submission.stateRoot
          stateRoot := v.stateRoots submission.blockHeight
          status := .statusSubmitted
          bhcTxHash := txHash }
      byHeight := Function.update v.byHeight submission.blockHeight
        (v.byHeight submission.blockHeight ++ [submission.stateRoot])
      pendingSubs := Function.update v.pendingSubs submission.stateRoot none }
  else v

/-- `send` is the node: it gets the coinbase address and the text. -/
def submitAnchorToL1 (send : String → String → Except String String)
    (submission : Option AnchorSubmission) (coinbaseAddr : String) (v : AnchorVerifier) :
    Except String String × AnchorVerifier :=
  match submission with
  | none => (.error "nil submission", v)
  | some submission =>
    match send coinbaseAddr (opReturnHex submission) with
    | .error err => (.error ("failed to submit anchor: " ++ err), v)
    | .ok txHash => (.ok txHash, commitSubmission submission txHash v)

/-- The anchors of a height. -/
def getAnchorByHeight (height : UInt64) (v : AnchorVerifier) : Except String (List L1Anchor) :=
  if v.byHeight height = [] then .error ("no anchors at height " ++ decimal height)
  else .ok ((v.byHeight height).filterMap v.anchors.get?)

/-! ## Challenging and finalizing -/

/-- Challenge an anchor that is not final.  Another challenge starts the period again. -/
def challengeAnchor (stateRoot : Hash) (fraudProof : List UInt8) (now : ℕ) (v : AnchorVerifier) :
    Except String Unit × AnchorVerifier :=
  match v.anchors.get? stateRoot with
  | none => (.error "anchor not found", v)
  | some anchor =>
    if anchor.status = .statusFinalized then (.error "anchor already finalized", v)
    else (.ok (), { v with
      anchors := v.anchors.insert stateRoot { anchor with
        status := .statusChallenged
        fraudProof
        challengeEndsAt := now + challengePeriod } })

/-- Make an anchor final, unless a challenge to it is still open. -/
def finalizeAnchor (stateRoot : Hash) (now : ℕ) (v : AnchorVerifier) :
    Except String Unit × AnchorVerifier :=
  match v.anchors.get? stateRoot with
  | none => (.error "anchor not found", v)
  | some anchor =>
    if anchor.status = .statusChallenged ∧ now < anchor.challengeEndsAt then
      (.error "challenge period not yet ended", v)
    else (.ok (), { v with
      anchors := v.anchors.insert stateRoot { anchor with status := .statusFinalized } })

/-- One round of the loop of `checkConfirmations`. -/
def L1Anchor.check (answer : Option UInt64) (anchor : L1Anchor) : L1Anchor :=
  if anchor.status ≠ .statusSubmitted then anchor
  else match answer with
    | none => anchor
    | some confirmations =>
      if confirmations ≥ minBHCConfirmations then
        { anchor with confirmations, status := .statusConfirmed }
      else { anchor with confirmations }

/-- `getTxConfirmations` is the node, which may answer differently for every anchor. -/
def checkConfirmations (getTxConfirmations : L1Anchor → Option UInt64) (v : AnchorVerifier) :
    AnchorVerifier :=
  { v with anchors := v.anchors.mapValues fun anchor => anchor.check (getTxConfirmations anchor) }

/-! ## Runs -/

inductive Op where
  | recordStateRoot (stateRoot : Option StateRoot)
  | generateAnchorSubmission (height fee : UInt64)
  | storeSubmission (i : ℕ)
  | submitAnchorToL1 (send : String → String → Except String String)
      (submission : Option AnchorSubmission) (coinbaseAddr : String)
  | checkConfirmations (getTxConfirmations : L1Anchor → Option UInt64)
  | challengeAnchor (stateRoot : Hash) (fraudProof : List UInt8)
  | finalizeAnchor (stateRoot : Hash)
  | wait (d : ℕ)

/-- What happened to an anchor. -/
inductive Event where
  | submitted (stateRoot : Hash) (height : UInt64)
  | confirmed (stateRoot : Hash) (confirmations : UInt64)
  | challenged (stateRoot : Hash) (endsAt : ℕ)

/-- The verifier, the submissions between the two locks of `GenerateAnchorSubmission`, the
time, and what happened so far. -/
structure World where
  verifier : AnchorVerifier
  inFlight : List AnchorSubmission
  now : ℕ
  log : List Event

def newWorld : World where
  verifier := newAnchorVerifier
  inFlight := []
  now := 0
  log := []

/-- The submission that a call commits. -/
def committedSubmission (send : String → String → Except String String)
    (submission : Option AnchorSubmission) (coinbaseAddr : String) (v : AnchorVerifier) :
    Option AnchorSubmission :=
  match submission with
  | none => none
  | some submission =>
    match send coinbaseAddr (opReturnHex submission) with
    | .error _ => none
    | .ok _ => if (v.pendingSubs submission.stateRoot).isSome then some submission else none

/-- The anchors that one round of checks confirms. -/
def checkEvents (getTxConfirmations : L1Anchor → Option UInt64) (v : AnchorVerifier) :
    List Event :=
  v.anchors.entries.filterMap fun e =>
    if e.2.status ≠ .statusSubmitted then none
    else match getTxConfirmations e.2 with
      | none => none
      | some confirmations =>
        if confirmations ≥ minBHCConfirmations then some (.confirmed e.1 confirmations) else none

/-- What a challenge adds to the log. -/
def challengeEvents (stateRoot : Hash) (now : ℕ) (v : AnchorVerifier) : List Event :=
  match v.anchors.get? stateRoot with
  | none => []
  | some anchor =>
    if anchor.status = .statusFinalized then []
    else [.challenged stateRoot (now + challengePeriod)]

def exec (op : Op) (w : World) : World :=
  match op with
  | .recordStateRoot stateRoot =>
      { w with verifier := (Anchor.recordStateRoot stateRoot w.verifier).2 }
  | .generateAnchorSubmission height fee =>
      match Anchor.generateAnchorSubmission height fee w.verifier with
      | .error _ => w
      | .ok submission => { w with inFlight := w.inFlight ++ [submission] }
  | .storeSubmission i =>
      match w.inFlight[i]? with
      | none => w
      | some submission =>
        { w with
          verifier := Anchor.storeSubmission submission w.verifier
          inFlight := w.inFlight.eraseIdx i }
  | .submitAnchorToL1 send submission coinbaseAddr =>
      { w with
        verifier := (Anchor.submitAnchorToL1 send submission coinbaseAddr w.verifier).2
        log := w.log ++ (committedSubmission send submission coinbaseAddr w.verifier).toList.map
          fun s => .submitted s.stateRoot s.blockHeight }
  | .checkConfirmations getTxConfirmations =>
      { w with
        verifier := Anchor.checkConfirmations getTxConfirmations w.verifier
        log := w.log ++ checkEvents getTxConfirmations w.verifier }
  | .challengeAnchor stateRoot fraudProof =>
      { w with
        verifier := (Anchor.challengeAnchor stateRoot fraudProof w.now w.verifier).2
        log := w.log ++ challengeEvents stateRoot w.now w.verifier }
  | .finalizeAnchor stateRoot =>
      { w with verifier := (Anchor.finalizeAnchor stateRoot w.now w.verifier).2 }
  | .wait d => { w with now := w.now + d }

def run (ops : List Op) (w : World) : World := runOps exec ops w

/-! ## What one step does -/

/-- The submission that a step commits. -/
def Op.committed (w : World) : Op → Option AnchorSubmission
  | .submitAnchorToL1 send submission coinbaseAddr =>
      committedSubmission send submission coinbaseAddr w.verifier
  | _ => none

/-- A step records a root, commits a submission, checks, challenges, finalizes, or leaves the
anchors and the recorded roots alone. -/
inductive Step (w : World) : Op → World → Prop
  | recorded {s : StateRoot} :
      Step w (.recordStateRoot (some s)) { w with verifier := { w.verifier with
        stateRoots := Function.update w.verifier.stateRoots s.blockHeight (some s) } }
  | committed {send submission coinbaseAddr} {s : AnchorSubmission} {txHash : String}
      {pendingSubs : Hash → Option AnchorSubmission}
      (hcommitted :
        committedSubmission send submission coinbaseAddr w.verifier = some s) :
      Step w (.submitAnchorToL1 send submission coinbaseAddr) { w with
        verifier := { w.verifier with
          anchors := w.verifier.anchors.insert s.stateRoot
            { anchorID := s.stateRoot, stateRoot := w.verifier.stateRoots s.blockHeight
              status := .statusSubmitted, bhcTxHash := txHash }
          byHeight := Function.update w.verifier.byHeight s.blockHeight
            (w.verifier.byHeight s.blockHeight ++ [s.stateRoot])
          pendingSubs }
        log := w.log ++ [.submitted s.stateRoot s.blockHeight] }
  | checked {answer} :
      Step w (.checkConfirmations answer) { w with
        verifier := { w.verifier with
          anchors := w.verifier.anchors.mapValues fun anchor => anchor.check (answer anchor) }
        log := w.log ++ checkEvents answer w.verifier }
  | challenged {r a proof} (hget : w.verifier.anchors.get? r = some a)
      (hopen : a.status ≠ .statusFinalized) :
      Step w (.challengeAnchor r proof) { w with
        verifier := { w.verifier with
          anchors := w.verifier.anchors.insert r { a with
            status := .statusChallenged, fraudProof := proof
            challengeEndsAt := w.now + challengePeriod } }
        log := w.log ++ [.challenged r (w.now + challengePeriod)] }
  | finalized {r a} (hget : w.verifier.anchors.get? r = some a)
      (hended : a.status = .statusChallenged → a.challengeEndsAt ≤ w.now) :
      Step w (.finalizeAnchor r) { w with
        verifier := { w.verifier with
          anchors := w.verifier.anchors.insert r { a with status := .statusFinalized } } }
  | quiet {op w'} (hanchors : w'.verifier.anchors = w.verifier.anchors)
      (hheight : w'.verifier.byHeight = w.verifier.byHeight)
      (hroots : w'.verifier.stateRoots = w.verifier.stateRoots) (hlog : w'.log = w.log)
      (hnow : w.now ≤ w'.now) (hcommitted : op.committed w = none) : Step w op w'

theorem submitAnchorToL1_eq (send : String → String → Except String String)
    (submission : Option AnchorSubmission) (coinbaseAddr : String) (v : AnchorVerifier) :
    (∃ s txHash, committedSubmission send submission coinbaseAddr v = some s ∧
      (v.pendingSubs s.stateRoot).isSome = true ∧
      (submitAnchorToL1 send submission coinbaseAddr v).2 = commitSubmission s txHash v) ∨
    (committedSubmission send submission coinbaseAddr v = none ∧
      (submitAnchorToL1 send submission coinbaseAddr v).2 = v) := by
  unfold committedSubmission submitAnchorToL1
  cases submission with
  | none => exact .inr ⟨rfl, rfl⟩
  | some s =>
      cases hsend : send coinbaseAddr (opReturnHex s) with
      | error err => exact .inr ⟨by simp [hsend], by simp [hsend]⟩
      | ok txHash =>
          by_cases hpending : (v.pendingSubs s.stateRoot).isSome
          · exact .inl ⟨s, txHash, by simp [hsend, hpending], hpending, by simp [hsend]⟩
          · exact .inr ⟨by simp [hsend, hpending], by simp [hsend, commitSubmission, hpending]⟩

theorem step_of_exec (op : Op) (w : World) : Step w op (exec op w) := by
  cases op with
  | recordStateRoot stateRoot =>
      cases stateRoot with
      | none => exact .quiet rfl rfl rfl rfl le_rfl rfl
      | some s => exact .recorded
  | generateAnchorSubmission height fee =>
      simp only [exec]
      split <;> exact .quiet rfl rfl rfl rfl le_rfl rfl
  | storeSubmission i =>
      simp only [exec]
      split <;> exact .quiet rfl rfl rfl rfl le_rfl rfl
  | submitAnchorToL1 send submission coinbaseAddr =>
      rcases submitAnchorToL1_eq send submission coinbaseAddr w.verifier with
        ⟨s, txHash, hsome, hpending, heq⟩ | ⟨hnone, heq⟩
      · simp only [exec, heq, hsome, commitSubmission, hpending, if_true, Option.toList_some,
          List.map_cons, List.map_nil]
        exact .committed hsome
      · simp only [exec, heq, hnone, Option.toList_none, List.map_nil, List.append_nil]
        exact .quiet rfl rfl rfl rfl le_rfl hnone
  | checkConfirmations answer => exact .checked
  | challengeAnchor r proof =>
      simp only [exec, Anchor.challengeAnchor, challengeEvents]
      split
      · next hget => exact .quiet rfl rfl rfl (List.append_nil _) le_rfl rfl
      · next a hget =>
        split
        · exact .quiet rfl rfl rfl (List.append_nil _) le_rfl rfl
        · next hopen => exact .challenged hget hopen
  | finalizeAnchor r =>
      simp only [exec, Anchor.finalizeAnchor]
      split
      · exact .quiet rfl rfl rfl rfl le_rfl rfl
      · next a hget =>
        split
        · exact .quiet rfl rfl rfl rfl le_rfl rfl
        · next hended =>
          exact .finalized hget fun hstatus => not_lt.mp fun hlt => hended ⟨hstatus, hlt⟩
  | wait d => exact .quiet rfl rfl rfl rfl (Nat.le_add_right _ _) rfl

/-- Every event of a round of checks confirms an anchor that waited for it. -/
theorem mem_checkEvents {answer : L1Anchor → Option UInt64} {v : AnchorVerifier} {e : Event} :
    e ∈ checkEvents answer v ↔ ∃ r a c, e = .confirmed r c ∧ v.anchors.get? r = some a ∧
      a.status = .statusSubmitted ∧ answer a = some c ∧ minBHCConfirmations ≤ c := by
  rw [checkEvents, List.mem_filterMap]
  constructor
  · rintro ⟨⟨r, a⟩, hmem, hsome⟩
    split at hsome
    · cases hsome
    · next hstatus =>
      split at hsome
      · cases hsome
      · next c hc =>
        split at hsome
        · next hle =>
          exact ⟨r, a, c, (Option.some.inj hsome).symm, FinMap.get?_eq_some.mpr hmem,
            not_not.mp hstatus, hc, hle⟩
        · cases hsome
  · rintro ⟨r, a, c, rfl, hget, hstatus, hc, hle⟩
    refine ⟨(r, a), FinMap.get?_eq_some.mp hget, ?_⟩
    simp only [hstatus, ne_eq, not_true_eq_false, if_false, hc, ge_iff_le, hle, if_true]

end BhtBhte.Anchor
