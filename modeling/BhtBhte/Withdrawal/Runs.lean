import BhtBhte.Lib.Runs
import BhtBhte.Withdrawal.Validator

/-!
# Runs of the validator

A run is a list of calls with the clock at each of them.  Beside the validator a world keeps
what nobody in the code remembers: when each withdrawal of the epoch was submitted, whether it
was challenged and when it was executed, and which identifiers were executed at all.
`Outcome` says once what a call can do.
-/
namespace BhtBhte.Withdrawal

open BhtBhte.Lib
open BhtBhte.Script (MldsaLevel)

inductive Op where
  | initWithdrawalEpoch (initialStateRoot : Bytes) (startBlockHeight : UInt64)
  | submitWithdrawal (request : WithdrawalRequest)
  | challengeWithdrawal (withdrawalHash : Bytes) (fraudProof : FraudProof)
  | approveWithdrawal (withdrawalHash : Bytes)
  | executeWithdrawal (withdrawalHash : Bytes)
  | expireWithdrawal (withdrawalHash : Bytes)

/-- An operation and what `GetTime` says. -/
structure Call where
  now : UInt64
  op : Op

/-- What is noted of a withdrawal. -/
structure Note where
  submittedAt : UInt64
  challenged : Bool := false
  executedAt : Option UInt64 := none
  deriving DecidableEq, Repr

/-- The validator with notes on what nobody in the code remembers. -/
structure World where
  validator : CWithdrawalValidator := {}
  /-- The notes on `mPendingWithdrawals`, in its order. -/
  notes : List Note := []
  /-- The identifiers that were executed, over all epochs. -/
  executions : List Bytes := []
  clock : UInt64 := 0

section Runs
variable (P : Primitives)

def Op.apply (v : CWithdrawalValidator) (now : UInt64) : Op → Bool × CWithdrawalValidator
  | .initWithdrawalEpoch root height => v.initWithdrawalEpoch now root height
  | .submitWithdrawal request => v.submitWithdrawal P request
  | .challengeWithdrawal hash proof => v.challengeWithdrawal P hash proof
  | .approveWithdrawal hash => v.approveWithdrawal P now hash
  | .executeWithdrawal hash => v.executeWithdrawal P hash
  | .expireWithdrawal hash => v.expireWithdrawal P hash

/-- The notes after an operation that succeeded. -/
def Op.notes (v : CWithdrawalValidator) (now : UInt64) (notes : List Note) : Op → List Note
  | .initWithdrawalEpoch _ _ => []
  | .submitWithdrawal _ => notes ++ [{ submittedAt := now }]
  | .challengeWithdrawal hash _ =>
    match v.lookup P hash with
    | none => notes
    | some (i, _) => notes.modify i fun n => { n with challenged := true }
  | .executeWithdrawal hash =>
    match v.lookup P hash with
    | none => notes
    | some (i, _) => notes.modify i fun n => { n with executedAt := some now }
  | _ => notes

/-- The identifiers that an operation that succeeded executes. -/
def Op.executes : Op → List Bytes
  | .executeWithdrawal hash => [hash]
  | _ => []

def exec (call : Call) (w : World) : World :=
  let r := call.op.apply P w.validator call.now
  { validator := r.2
    notes := if r.1 then call.op.notes P w.validator call.now w.notes else w.notes
    executions := if r.1 then w.executions ++ call.op.executes else w.executions
    clock := call.now }

@[simp] theorem clock_exec (call : Call) (w : World) : (exec P call w).clock = call.now := rfl

/-- A validator from its constructor. -/
def World.start (level : MldsaLevel) : World := { validator := { mMldsaLevel := level } }

/-- The clock does not go back. -/
def Monotone (calls : List Call) (w : World) : Prop :=
  Allowed (exec P) (fun w call => w.clock ≤ call.now) calls w

end Runs

section Outcomes
variable {P : Primitives} {v : CWithdrawalValidator} {withdrawalHash : Bytes}

/-- The first withdrawal with an identifier. -/
def FirstAt (P : Primitives) (l : List WithdrawalRequest) (withdrawalHash : Bytes) (i : ℕ)
    (request : WithdrawalRequest) : Prop :=
  l[i]? = some request ∧ calculateWithdrawalId P request = withdrawalHash ∧
    ∀ j < i, ∀ r, l[j]? = some r → calculateWithdrawalId P r ≠ withdrawalHash

theorem lookup_eq_some {i : ℕ} {request : WithdrawalRequest} :
    v.lookup P withdrawalHash = some (i, request) ↔
      FirstAt P v.mPendingWithdrawals withdrawalHash i request := by
  simp only [CWithdrawalValidator.lookup, firstMatch_eq_some, beq_iff_eq, beq_eq_false_iff_ne,
    FirstAt, ne_eq]

theorem FirstAt.eq {l : List WithdrawalRequest} {i j : ℕ} {r r' : WithdrawalRequest}
    (h : FirstAt P l withdrawalHash i r) (h' : FirstAt P l withdrawalHash j r') :
    i = j ∧ r = r' := by
  have hij : i = j := by
    rcases Nat.lt_trichotomy i j with hlt | heq | hgt
    · exact absurd h.2.1 (h'.2.2 i hlt r h.1)
    · exact heq
    · exact absurd h'.2.1 (h.2.2 j hgt r' h'.1)
  subst hij
  exact ⟨rfl, Option.some.inj (h.1.symm.trans h'.1)⟩

/-- A status that is written changes neither the identifiers nor who comes first. -/
theorem firstAt_set {l : List WithdrawalRequest} {i j : ℕ} {hash : Bytes}
    {r r' s : WithdrawalRequest} (hget : l[i]? = some r)
    (hid : calculateWithdrawalId P r' = calculateWithdrawalId P r)
    (h : FirstAt P (l.set i r') hash j s) :
    (j = i ∧ s = r' ∧ FirstAt P l hash i r) ∨ (j ≠ i ∧ FirstAt P l hash j s) := by
  obtain ⟨hs, hhash, hfirst⟩ := h
  have hlt : i < l.length := (List.getElem?_eq_some_iff.mp hget).1
  have hbefore : ∀ k < j, ∀ x, l[k]? = some x → calculateWithdrawalId P x ≠ hash := by
    intro k hk x hx
    by_cases hki : k = i
    · subst hki
      have hat : (l.set k r')[k]? = some r' := by rw [List.getElem?_set_self hlt]
      rw [hget] at hx
      rw [← Option.some.inj hx, ← hid]
      exact hfirst k hk r' hat
    · exact hfirst k hk x (by rwa [List.getElem?_set_ne (fun heq => hki heq.symm)])
  by_cases hji : j = i
  · subst hji
    rw [List.getElem?_set_self hlt] at hs
    obtain rfl := Option.some.inj hs
    exact .inl ⟨rfl, rfl, hget, hid ▸ hhash, hbefore⟩
  · rw [List.getElem?_set_ne (fun heq => hji heq.symm)] at hs
    exact .inr ⟨hji, hs, hhash, hbefore⟩

/-- Who comes first when one is added at the end. -/
theorem firstAt_of_concat {l : List WithdrawalRequest} {i : ℕ} {r s : WithdrawalRequest}
    (h : FirstAt P (l ++ [r]) withdrawalHash i s) :
    FirstAt P l withdrawalHash i s ∨
      i = l.length ∧ s = r ∧ ∀ x ∈ l, calculateWithdrawalId P x ≠ withdrawalHash := by
  obtain ⟨hs, hid, hfirst⟩ := h
  have hi : i < l.length + 1 := by simpa using (List.getElem?_eq_some_iff.mp hs).1
  have hbefore : ∀ j < i, ∀ x, l[j]? = some x → calculateWithdrawalId P x ≠ withdrawalHash := by
    intro j hj x hx
    have hlt := (List.getElem?_eq_some_iff.mp hx).1
    exact hfirst j hj x (by rwa [List.getElem?_append_left hlt])
  rcases Nat.lt_succ_iff_lt_or_eq.mp hi with hlt | rfl
  · exact .inl ⟨by rwa [List.getElem?_append_left hlt] at hs, hid, hbefore⟩
  · rw [List.getElem?_concat_length, Option.some.injEq] at hs
    refine .inr ⟨rfl, hs.symm, fun x hx => ?_⟩
    obtain ⟨j, hj, rfl⟩ := List.getElem_of_mem hx
    exact hbefore j hj _ (List.getElem?_eq_getElem hj)

/-- Everything a call can do, with its guards. -/
inductive Outcome (P : Primitives) (w : World) (call : Call) : World → Prop
  | same : Outcome P w call { w with clock := call.now }
  | epoch {v'} (hpending : v'.mPendingWithdrawals = []) :
      Outcome P w call { w with validator := v', notes := [], clock := call.now }
  | submitted {request v'} (hop : call.op = .submitWithdrawal request)
      (haccepted : (w.validator.submitWithdrawal P request).1 = true)
      (hpending : v'.mPendingWithdrawals =
        w.validator.mPendingWithdrawals ++ [{ request with status := .pending }]) :
      Outcome P w call { w with validator := v', clock := call.now,
                                notes := w.notes ++ [{ submittedAt := call.now }] }
  | challenged {hash proof i r v' reason} (hop : call.op = .challengeWithdrawal hash proof)
      (hproof : w.validator.verifyFraudProof P proof = true)
      (hfirst : FirstAt P w.validator.mPendingWithdrawals hash i r)
      (hpending : v'.mPendingWithdrawals = w.validator.mPendingWithdrawals.set i
        { r with status := .challenged, challengeReason := reason }) :
      Outcome P w call { w with validator := v', clock := call.now,
                                notes := w.notes.modify i fun n => { n with challenged := true } }
  | approved {hash i r v'} (hop : call.op = .approveWithdrawal hash)
      (hfirst : FirstAt P w.validator.mPendingWithdrawals hash i r)
      (hstatus : r.status = .pending) (hend : r.challengeEndTime ≤ call.now)
      (hpending : v'.mPendingWithdrawals = w.validator.mPendingWithdrawals.set i
        { r with status := .approved }) :
      Outcome P w call { w with validator := v', clock := call.now }
  | executed {hash i r v'} (hop : call.op = .executeWithdrawal hash)
      (hfirst : FirstAt P w.validator.mPendingWithdrawals hash i r)
      (hstatus : r.status = .approved) (hamount : r.amount ≤ maxWithdrawalDelay)
      (hpending : v'.mPendingWithdrawals = w.validator.mPendingWithdrawals.set i
        { r with status := .executed }) :
      Outcome P w call
        { validator := v', clock := call.now,
          notes := w.notes.modify i fun n => { n with executedAt := some call.now },
          executions := w.executions ++ [hash] }
  | expired {i r v'} (hget : w.validator.mPendingWithdrawals[i]? = some r)
      (hstatus : r.status = .pending ∨ r.status = .challenged)
      (hpending : v'.mPendingWithdrawals = w.validator.mPendingWithdrawals.set i
        { r with status := .expired }) :
      Outcome P w call { w with validator := v', clock := call.now }

/-! ## One lemma for each operation -/

/-- A failed operation leaves the validator as it was. -/
theorem apply_of_failed {now : UInt64} {op : Op} (h : (op.apply P v now).1 = false) :
    (op.apply P v now).2 = v := by
  cases op <;>
    simp only [Op.apply, CWithdrawalValidator.initWithdrawalEpoch,
      CWithdrawalValidator.submitWithdrawal, CWithdrawalValidator.challengeWithdrawal,
      CWithdrawalValidator.approveWithdrawal, CWithdrawalValidator.executeWithdrawal,
      CWithdrawalValidator.expireWithdrawal] at h ⊢ <;>
    grind

theorem submitWithdrawal_eq_true {request : WithdrawalRequest}
    (h : (v.submitWithdrawal P request).1 = true) :
    v.verifyWithdrawalSignature P request = true ∧
      v.verifyStateRootAnchor request.stateRoot = true ∧
      (v.submitWithdrawal P request).2.mPendingWithdrawals =
        v.mPendingWithdrawals ++ [{ request with status := .pending }] := by
  unfold CWithdrawalValidator.submitWithdrawal at h ⊢
  split_ifs at h ⊢ with hsignature hanchor
  exact ⟨by simpa using hsignature, by simpa using hanchor, rfl⟩

theorem challengeWithdrawal_eq_true {proof : FraudProof}
    (h : (v.challengeWithdrawal P withdrawalHash proof).1 = true) :
    ∃ i r, v.lookup P withdrawalHash = some (i, r) ∧ v.verifyFraudProof P proof = true ∧
      (v.challengeWithdrawal P withdrawalHash proof).2.mPendingWithdrawals =
        v.mPendingWithdrawals.set i
          { r with status := .challenged,
                   challengeReason := proof.correctStateTransitionProof } := by
  unfold CWithdrawalValidator.challengeWithdrawal at h ⊢
  cases hlook : v.lookup P withdrawalHash with
  | none => simp [hlook] at h
  | some e =>
      simp only [hlook] at h ⊢
      split_ifs at h ⊢ with hproof
      exact ⟨e.1, e.2, rfl, by simpa using hproof, rfl⟩

theorem approveWithdrawal_eq_true {now : UInt64}
    (h : (v.approveWithdrawal P now withdrawalHash).1 = true) :
    ∃ i r, v.lookup P withdrawalHash = some (i, r) ∧ r.status = .pending ∧
      r.challengeEndTime ≤ now ∧
      (v.approveWithdrawal P now withdrawalHash).2.mPendingWithdrawals =
        v.mPendingWithdrawals.set i { r with status := .approved } := by
  unfold CWithdrawalValidator.approveWithdrawal at h ⊢
  cases hlook : v.lookup P withdrawalHash with
  | none => simp [hlook] at h
  | some e =>
      simp only [hlook] at h ⊢
      split_ifs at h ⊢ with hstatus hend
      exact ⟨e.1, e.2, rfl, not_not.mp hstatus, UInt64.not_lt.mp hend, rfl⟩

theorem executeWithdrawal_eq_true (h : (v.executeWithdrawal P withdrawalHash).1 = true) :
    ∃ i r, v.lookup P withdrawalHash = some (i, r) ∧ r.status = .approved ∧
      r.amount ≤ maxWithdrawalDelay ∧
      (v.executeWithdrawal P withdrawalHash).2.mPendingWithdrawals =
        v.mPendingWithdrawals.set i { r with status := .executed } := by
  unfold CWithdrawalValidator.executeWithdrawal at h ⊢
  cases hlook : v.lookup P withdrawalHash with
  | none => simp [hlook] at h
  | some e =>
      simp only [hlook] at h ⊢
      split_ifs at h ⊢ with hstatus hamount
      exact ⟨e.1, e.2, rfl, not_not.mp hstatus, UInt64.not_lt.mp hamount, rfl⟩

theorem expireWithdrawal_eq_true (h : (v.expireWithdrawal P withdrawalHash).1 = true) :
    ∃ i r, v.mPendingWithdrawals[i]? = some r ∧ (r.status = .pending ∨ r.status = .challenged) ∧
      (v.expireWithdrawal P withdrawalHash).2.mPendingWithdrawals =
        v.mPendingWithdrawals.set i { r with status := .expired } := by
  unfold CWithdrawalValidator.expireWithdrawal at h ⊢
  split at h
  · cases h
  · next i r hfind =>
    obtain ⟨hget, hmatch, -⟩ := firstMatch_eq_some.mp hfind
    refine ⟨i, r, hget, ?_, rfl⟩
    simpa using (Bool.and_eq_true_iff.mp hmatch).2

/-! ## Every call -/

theorem outcome_exec (P : Primitives) (call : Call) (w : World) :
    Outcome P w call (exec P call w) := by
  obtain ⟨now, op⟩ := call
  cases hr : (op.apply P w.validator now).1 with
  | false =>
      have hsame := apply_of_failed hr
      simp only [exec, hr, hsame, Bool.false_eq_true, if_false]
      exact .same
  | true =>
      simp only [exec, hr, if_true]
      cases op with
      | initWithdrawalEpoch root height =>
          simp only [Op.notes, Op.executes, List.append_nil]
          exact .epoch rfl
      | submitWithdrawal request =>
          simp only [Op.notes, Op.executes, List.append_nil]
          exact .submitted rfl hr (submitWithdrawal_eq_true hr).2.2
      | challengeWithdrawal hash proof =>
          obtain ⟨i, r, hlook, hproof, hpending⟩ := challengeWithdrawal_eq_true hr
          simp only [Op.notes, hlook, Op.executes, List.append_nil]
          exact .challenged rfl hproof (lookup_eq_some.mp hlook) hpending
      | approveWithdrawal hash =>
          obtain ⟨i, r, hlook, hstatus, hend, hpending⟩ := approveWithdrawal_eq_true hr
          simp only [Op.notes, Op.executes, List.append_nil]
          exact .approved rfl (lookup_eq_some.mp hlook) hstatus hend hpending
      | executeWithdrawal hash =>
          obtain ⟨i, r, hlook, hstatus, hamount, hpending⟩ := executeWithdrawal_eq_true hr
          simp only [Op.notes, hlook, Op.executes]
          exact .executed rfl (lookup_eq_some.mp hlook) hstatus hamount hpending
      | expireWithdrawal hash =>
          obtain ⟨i, r, hget, hstatus, hpending⟩ := expireWithdrawal_eq_true hr
          simp only [Op.notes, Op.executes, List.append_nil]
          exact .expired hget hstatus hpending

/-! ## Straight to the end -/

theorem firstAt_concat {l : List WithdrawalRequest} {r : WithdrawalRequest}
    (hid : calculateWithdrawalId P r = withdrawalHash)
    (hnew : ∀ s ∈ l, calculateWithdrawalId P s ≠ withdrawalHash) :
    FirstAt P (l ++ [r]) withdrawalHash l.length r := by
  refine ⟨List.getElem?_concat_length, hid, fun j hj s hs => hnew s ?_⟩
  rw [List.getElem?_append_left hj] at hs
  exact List.mem_of_getElem? hs

/-- The calls that submit, approve and execute a withdrawal. -/
def straight (P : Primitives) (request : WithdrawalRequest) (now later : UInt64) : List Call :=
  [⟨now, .submitWithdrawal request⟩,
    ⟨later, .approveWithdrawal (calculateWithdrawalId P request)⟩,
    ⟨later, .executeWithdrawal (calculateWithdrawalId P request)⟩]

/-- A validator with one more withdrawal. -/
def CWithdrawalValidator.holding (v : CWithdrawalValidator) (r : WithdrawalRequest) :
    CWithdrawalValidator :=
  { v with mPendingWithdrawals := v.mPendingWithdrawals ++ [r] }

theorem lookup_holding {r : WithdrawalRequest} (hid : calculateWithdrawalId P r = withdrawalHash)
    (hnew : ∀ s ∈ v.mPendingWithdrawals, calculateWithdrawalId P s ≠ withdrawalHash) :
    (v.holding r).lookup P withdrawalHash = some (v.mPendingWithdrawals.length, r) :=
  lookup_eq_some.mpr (firstAt_concat hid hnew)

theorem store_holding (r s : WithdrawalRequest) :
    (v.holding r).store v.mPendingWithdrawals.length s = v.holding s := by
  simp [CWithdrawalValidator.holding, CWithdrawalValidator.store]

section Steps
variable {w : World} {r : WithdrawalRequest} {now : UInt64} {i : ℕ}

theorem exec_submit (hsignature : w.validator.verifyWithdrawalSignature P r = true)
    (hanchor : w.validator.verifyStateRootAnchor r.stateRoot = true) :
    exec P ⟨now, .submitWithdrawal r⟩ w =
      { w with validator := w.validator.holding { r with status := .pending }
               notes := w.notes ++ [{ submittedAt := now }]
               clock := now } := by
  simp [exec, Op.apply, CWithdrawalValidator.submitWithdrawal, hsignature, hanchor, Op.notes,
    Op.executes, CWithdrawalValidator.holding]

theorem exec_challenge {proof : FraudProof}
    (hlook : w.validator.lookup P withdrawalHash = some (i, r))
    (hproof : w.validator.verifyFraudProof P proof = true) :
    exec P ⟨now, .challengeWithdrawal withdrawalHash proof⟩ w =
      { w with
        validator := { w.validator.store i
            { r with status := .challenged,
                     challengeReason := proof.correctStateTransitionProof } with
          mFraudProofs := w.validator.mFraudProofs ++ [proof] }
        notes := w.notes.modify i fun n => { n with challenged := true }
        clock := now } := by
  simp [exec, Op.apply, CWithdrawalValidator.challengeWithdrawal, hlook, hproof, Op.notes,
    Op.executes, CWithdrawalValidator.store]

theorem exec_approve (hlook : w.validator.lookup P withdrawalHash = some (i, r))
    (hstatus : r.status = .pending) (hend : r.challengeEndTime ≤ now) :
    exec P ⟨now, .approveWithdrawal withdrawalHash⟩ w =
      { w with validator := w.validator.store i { r with status := .approved }
               clock := now } := by
  simp [exec, Op.apply, CWithdrawalValidator.approveWithdrawal, hlook, hstatus,
    UInt64.not_lt.mpr hend, Op.notes, Op.executes]

theorem exec_execute (hlook : w.validator.lookup P withdrawalHash = some (i, r))
    (hstatus : r.status = .approved) (hamount : r.amount ≤ maxWithdrawalDelay) :
    exec P ⟨now, .executeWithdrawal withdrawalHash⟩ w =
      { validator := w.validator.store i { r with status := .executed }
        notes := w.notes.modify i fun n => { n with executedAt := some now }
        executions := w.executions ++ [withdrawalHash]
        clock := now } := by
  simp [exec, Op.apply, CWithdrawalValidator.executeWithdrawal, hlook, hstatus,
    UInt64.not_lt.mpr hamount, Op.notes, Op.executes]

end Steps

/-- An accepted request with a new identifier and a small amount can be executed as soon as
its own deadline allows. -/
theorem runOps_straight {w : World} {request : WithdrawalRequest} {now later : UInt64}
    (hsignature : w.validator.verifyWithdrawalSignature P request = true)
    (hanchor : w.validator.verifyStateRootAnchor request.stateRoot = true)
    (hnew : ∀ r ∈ w.validator.mPendingWithdrawals,
      calculateWithdrawalId P r ≠ calculateWithdrawalId P request)
    (hamount : request.amount ≤ maxWithdrawalDelay) (hend : request.challengeEndTime ≤ later)
    (hlength : w.notes.length = w.validator.mPendingWithdrawals.length) :
    runOps (exec P) (straight P request now later) w =
      { validator := w.validator.holding { request with status := .executed }
        notes := w.notes ++ [{ submittedAt := now, executedAt := some later }]
        executions := w.executions ++ [calculateWithdrawalId P request]
        clock := later } := by
  have hlook : ∀ status, (w.validator.holding { request with status }).lookup P
      (calculateWithdrawalId P request) =
        some (w.validator.mPendingWithdrawals.length, { request with status }) :=
    fun _ => lookup_holding rfl hnew
  rw [straight, runOps, List.foldl_cons, List.foldl_cons, List.foldl_cons, List.foldl_nil,
    exec_submit hsignature hanchor,
    exec_approve (r := { request with status := .pending }) (hlook .pending) rfl hend,
    store_holding, exec_execute (r := { request with status := .approved }) (hlook .approved) rfl
      hamount, store_holding, ← hlength]
  simp only [List.modify_eq_take_drop, List.take_left, List.drop_left, List.modifyHead_cons]

end Outcomes

/-! ## A request -/

/-- A verifier that every signature satisfies, under a digest without collisions. -/
def trusting : Primitives where
  sha256 data := data
  importPublicKey _ _ := true
  verifyDetached _ _ _ _ := true

/-- A request for `5` at the root `[1]` of block `7`, with a deadline. -/
def someRequest (challengeEndTime : UInt64) : WithdrawalRequest where
  recipientBhcAddress := List.replicate 25 2
  amount := 5
  l2BlockNumber := 7
  l2TransactionHash := List.replicate 32 3
  stateRoot := { blockHeight := 7, stateRoot := [1], timestamp := 0, anchorTxHash := []
                 confirmed := true }
  merkleProof := { siblings := [], path := 0, leafHash := [] }
  signature := []
  mldsaPubkey := []
  requestTimestamp := challengeEndTime - challengePeriodSeconds
  status := .pending
  challengeEndTime := challengeEndTime
  challengeReason := []

end BhtBhte.Withdrawal
