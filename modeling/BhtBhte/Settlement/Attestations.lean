import BhtBhte.Lib.Ghost
import BhtBhte.Settlement.Fraud
import BhtBhte.Vm.Precompile

/-!
# Attested signatures

`verifyMLDSASignature` asks the precompile first and falls back to the commitments that the owner
has recorded.  The contract emits nothing for those and keeps only hashes, so a run is taken beside
a log of what was attested; the log is a ghost.  `verifyMLDSASignature_run_iff` says what is
accepted after any run; what is accepted stays accepted.
-/
namespace BhtBhte.Settlement
open BhtBhte.Lib

/-! ## The check -/

section Check
variable (P : Primitives) (staticcall : List UInt8 → Option (List UInt8))

/-- `_verifyMLDSANative`; the call of the precompile returns bytes or fails. -/
def verifyMLDSANative (message : Bytes32) (signature pubkey : List UInt8) : Bool :=
  let input := wordBytes message ++ pubkey ++ signature
  match staticcall input with
  | none => false
  | some ret => if ret.length < 32 then false else wordAt ret 0 = 1

/-- `_verifyMLDSA`. -/
def verifyMLDSA (message : Bytes32) (signature pubkey : List UInt8) (c : State) :
    Except String Bool := do
  require (signature.length = mldsaSignatureLen) "Invalid ML-DSA signature length"
  require (pubkey.length = mldsaPubkeyLen) "Invalid ML-DSA pubkey length"
  if verifyMLDSANative staticcall message signature pubkey then pure true
  else pure (c.verifiedMLDSACommitments (mldsaCommitment P message signature pubkey))

/-- What the contract accepts: the precompile is asked first, then the commitments. -/
def verifyMLDSASignature (message : Bytes32) (signature pubkey : List UInt8) (c : State) :
    Except String Bool := do
  require (signature.length = mldsaSignatureLen) "Invalid ML-DSA signature length"
  require (pubkey.length = mldsaPubkeyLen) "Invalid ML-DSA pubkey length"
  verifyMLDSA P staticcall message signature pubkey c

variable {P staticcall}

theorem verifyMLDSASignature_eq_true {message : Bytes32} {signature pubkey : List UInt8}
    {c : State} :
    verifyMLDSASignature P staticcall message signature pubkey c = .ok true ↔
      signature.length = mldsaSignatureLen ∧ pubkey.length = mldsaPubkeyLen ∧
        (verifyMLDSANative staticcall message signature pubkey = true ∨
          c.verifiedMLDSACommitments (mldsaCommitment P message signature pubkey) = true) := by
  simp only [verifyMLDSASignature, verifyMLDSA, require_bind_eq_ok]
  by_cases hnative : verifyMLDSANative staticcall message signature pubkey
  · simp [hnative]
    tauto
  · simp [hnative]
    tauto

end Check

/-! ## The log -/

/-- A triple that was attested, by whom, and who owned the contract then. -/
structure Attestation where
  sender : Address
  owner : Address
  message : Bytes32
  signature : List UInt8
  pubkey : List UInt8
  deriving DecidableEq

/-- The bytes that are hashed. -/
def Attestation.packed (a : Attestation) : List UInt8 :=
  wordBytes a.message ++ a.signature ++ a.pubkey

/-- What a call attests. -/
def attestations (msg : Address × Call) (owner : Address) : List Attestation :=
  match msg.2 with
  | .addVerifiedMLDSACommitment message signature pubkey =>
      [⟨msg.1, owner, message, signature, pubkey⟩]
  | .batchAddVerifiedMLDSACommitments messages signatures pubkeys =>
      (messages.zip (signatures.zip pubkeys)).map fun t => ⟨msg.1, owner, t.1, t.2.1, t.2.2⟩
  | _ => []

/-- A call adds what it attests to the log. -/
def noteAttestations (msg : Address × Call) (w : World) (log : List Attestation) :
    List Attestation :=
  log ++ attestations msg w.contract.owner

/-- A run beside the log of its attestations. -/
def runLogged (P : Primitives) : List Transaction → World × List Attestation →
    World × List Attestation
  | [], p => p
  | t :: ts, p => runLogged P ts (t.action.exec (ghosted (enter P t.time) noteAttestations) p)

/-- The log does not touch the run. -/
theorem runLogged_fst (P : Primitives) (ts : List Transaction) (p : World × List Attestation) :
    (runLogged P ts p).1 = run P ts p.1 := by
  induction ts generalizing p with
  | nil => rfl
  | cons t ts ih => rw [runLogged, ih, exec_ghosted, run]

/-! ## What a call attests is recorded -/

section Step
variable {P : Primitives} {msg : Msg} {call : Call} {c c' : State} {events : List Event}

/-- The triple has the lengths of ML-DSA-65 and the owner made it. -/
structure Attestation.Formed (a : Attestation) : Prop where
  owner : a.sender = a.owner
  signature : a.signature.length = mldsaSignatureLen
  pubkey : a.pubkey.length = mldsaPubkeyLen

/-- The loop of a batch records every commitment, and stops at a wrong length. -/
theorem addCommitments_eq_ok {ts : List (Bytes32 × List UInt8 × List UInt8)}
    {commitments commitments' : Bytes32 → Bool}
    (h : addCommitments P ts commitments = .ok commitments') :
    (∀ t ∈ ts, t.2.1.length = mldsaSignatureLen ∧ t.2.2.length = mldsaPubkeyLen) ∧
      ∀ hash, commitments' hash = true ↔ commitments hash = true ∨
        ∃ t ∈ ts, mldsaCommitment P t.1 t.2.1 t.2.2 = hash := by
  induction ts generalizing commitments with
  | nil =>
      rw [addCommitments, pure_eq_ok] at h
      subst h
      simp
  | cons t ts ih =>
      obtain ⟨message, signature, pubkey⟩ := t
      simp only [addCommitments, require_bind_eq_ok] at h
      obtain ⟨hsignature, hpubkey, h⟩ := h
      obtain ⟨hlengths, hrecorded⟩ := ih h
      refine ⟨?_, fun hash => ?_⟩
      · intro t ht
        rcases List.mem_cons.mp ht with rfl | ht
        · exact ⟨hsignature, hpubkey⟩
        · exact hlengths t ht
      · rw [hrecorded]
        by_cases hhash : hash = mldsaCommitment P message signature pubkey
        · simp [hhash]
        · simp [Function.update_of_ne hhash, Ne.symm hhash]

theorem body_attestations (h : call.body P msg c = .ok (c', events)) :
    (∀ a ∈ attestations (msg.sender, call) c.owner, a.Formed) ∧
      ∀ hash, c'.verifiedMLDSACommitments hash = true ↔
        c.verifiedMLDSACommitments hash = true ∨
          ∃ a ∈ attestations (msg.sender, call) c.owner, P.keccak256 a.packed = hash := by
  cases call with
  | addVerifiedMLDSACommitment message signature pubkey =>
      simp only [Call.body, addVerifiedMLDSACommitment, onlyOwner, require_bind_eq_ok, pure_eq_ok,
        Prod.mk.injEq] at h
      obtain ⟨howner, hsignature, hpubkey, rfl, -⟩ := h
      simp only [attestations, List.mem_singleton, forall_eq, exists_eq_left]
      refine ⟨⟨howner, hsignature, hpubkey⟩, fun hash => ?_⟩
      by_cases hhash : hash = mldsaCommitment P message signature pubkey
      · simp [hhash, mldsaCommitment, Attestation.packed]
      · rw [Function.update_of_ne hhash]
        exact ⟨.inl, fun hor => hor.resolve_right (Ne.symm hhash)⟩
  | batchAddVerifiedMLDSACommitments messages signatures pubkeys =>
      simp only [Call.body, batchAddVerifiedMLDSACommitments, onlyOwner, require_bind_eq_ok] at h
      obtain ⟨howner, -, -, h⟩ := h
      cases hadd : addCommitments P (messages.zip (signatures.zip pubkeys))
          c.verifiedMLDSACommitments with
      | error e =>
          rw [hadd] at h
          cases h
      | ok commitments =>
          rw [hadd] at h
          cases h
          obtain ⟨hlengths, hrecorded⟩ := addCommitments_eq_ok hadd
          rw [attestations]
          refine ⟨?_, ?_⟩
          · rw [List.forall_mem_map]
            exact fun t ht => ⟨howner, (hlengths t ht).1, (hlengths t ht).2⟩
          · simp only [List.mem_map, exists_exists_and_eq_and]
            exact hrecorded
  | processWithdrawal l => simp [Call.body] at h
  | setAnchorValidator v e =>
      obtain ⟨-, ⟨-, -, rfl⟩ | ⟨-, -, -, rfl⟩ | rfl⟩ := setAnchorValidator_of_ok h
      all_goals simp [attestations]
  | resolveFraudProof bh f =>
      simp only [Call.body, resolveFraudProof, onlyOwner, require_bind_eq_ok, pure_eq_ok,
        Prod.mk.injEq] at h
      obtain ⟨-, -, -, rfl, -⟩ := h
      cases f <;> simp [attestations]
  | _ =>
      -- the remaining entry points attest nothing and leave the commitments alone
      simp only [Call.body, approveAnchor, submitAnchor, initiateWithdrawal, challengeWithdrawal,
        submitFraudProof, updateBridge, updateSequencer, setAnchorThreshold, pause, unpause,
        transferOwnership, renounceOwnership, receive, onlyOwner, require_bind_eq_ok,
        checkedAdd_bind_eq_ok, checkedSub_bind_eq_ok, pure_eq_ok, Prod.mk.injEq] at h
      have hsame : c'.verifiedMLDSACommitments = c.verifiedMLDSACommitments := by
        first
          | obtain ⟨rfl, -⟩ := h; rfl
          | obtain ⟨-, rfl, -⟩ := h; rfl
          | obtain ⟨-, -, rfl, -⟩ := h; rfl
          | obtain ⟨-, -, -, rfl, -⟩ := h; rfl
          | obtain ⟨-, -, -, -, -, -, rfl, -⟩ := h; rfl
          | obtain ⟨-, -, -, -, -, -, -, rfl, -⟩ := h; rfl
          | obtain ⟨-, -, -, -, -, -, -, -, -, -, -, rfl, -⟩ := h; rfl
      simp [attestations, hsame]

end Step

/-! ## Runs -/

/-- The log tells which commitments are recorded, and every entry is the owner's. -/
structure LoggedInv (P : Primitives) (p : World × List Attestation) : Prop where
  formed : ∀ a ∈ p.2, a.Formed
  recorded : ∀ hash, p.1.contract.verifiedMLDSACommitments hash = true ↔
    ∃ a ∈ p.2, P.keccak256 a.packed = hash

theorem LoggedInv.note {P : Primitives} {p : World × List Attestation} (hp : LoggedInv P p)
    {msg : Msg} {call : Call} {w' : World}
    (hformed : ∀ a ∈ attestations (msg.sender, call) p.1.contract.owner, a.Formed)
    (hrecorded : ∀ hash, w'.contract.verifiedMLDSACommitments hash = true ↔
      p.1.contract.verifiedMLDSACommitments hash = true ∨
        ∃ a ∈ attestations (msg.sender, call) p.1.contract.owner, P.keccak256 a.packed = hash) :
    LoggedInv P (w', noteAttestations (msg.sender, call) p.1 p.2) where
  formed := by
    intro a ha
    rcases List.mem_append.mp ha with ha | ha
    · exact hp.formed a ha
    · exact hformed a ha
  recorded := by
    intro hash
    rw [hrecorded, hp.recorded]
    simp only [noteAttestations, List.mem_append, or_and_right, exists_or]

theorem processWithdrawalEnter_commitments {msg : Msg} {l : Bytes32} {c c' : State}
    (h : processWithdrawalEnter msg l c = .ok c') :
    c'.verifiedMLDSACommitments = c.verifiedMLDSACommitments := by
  simp only [processWithdrawalEnter, require_bind_eq_ok, checkedSub_bind_eq_ok, pure_eq_ok] at h
  obtain ⟨-, -, -, -, -, -, -, -, rfl⟩ := h
  rfl

theorem loggedInv_preserved (P : Primitives) (time : ℕ) :
    Preserved (ghosted (enter P time) noteAttestations) (LoggedInv P) := by
  refine Preserved.of_ghosted ?_ ?_ ?_
  · intro msg w log w' hw h
    obtain ⟨c, events, hbody, rfl⟩ := enter_eq_done h
    obtain ⟨hformed, hrecorded⟩ := body_attestations hbody
    exact @LoggedInv.note P _ hw ⟨msg.1, time⟩ _ _ hformed hrecorded
  · intro msg w log w' resume hw h
    obtain ⟨l, c, hcall, hpay, rfl, -⟩ := enter_eq_callOut h
    have hsame := processWithdrawalEnter_commitments hpay
    have hnone : attestations (msg.1, msg.2) w.contract.owner = [] := by
      rw [attestations, hcall]
    refine @LoggedInv.note P _ hw ⟨msg.1, time⟩ _ _ ?_ ?_
    · simp [hnone]
    · simp [hnone, hsame]
  · intro msg w w' resume v log v' h hv hr
    obtain ⟨l, c, -, -, -, rfl⟩ := enter_eq_callOut h
    cases hr
    exact ⟨hv.formed, hv.recorded⟩

theorem LoggedInv.runLogged {P : Primitives} (ts : List Transaction)
    {p : World × List Attestation} (hp : LoggedInv P p) : LoggedInv P (runLogged P ts p) := by
  induction ts generalizing p with
  | nil => exact hp
  | cons t ts ih => exact ih ((loggedInv_preserved P t.time).exec t.action p hp)

/-- The bytes of a word, the lowest first. -/
theorem reverse_wordBytes (w : Bytes32) : (wordBytes w).reverse = leBytes 32 w.toNat := by
  apply List.ext_getElem
  · simp [wordBytes]
  · intro i hi hi'
    rw [length_leBytes] at hi'
    have hsub : 31 - (31 - i) = i := by omega
    rw [getElem_leBytes]
    simp [wordBytes, hsub]

theorem wordBytes_inj {w w' : Bytes32} (h : wordBytes w = wordBytes w') : w = w' := by
  have hvalue := congrArg (fun b => bytesValue b.reverse) h
  simp only [reverse_wordBytes, bytesValue_leBytes] at hvalue
  rw [Nat.mod_eq_of_lt (by simpa using w.isLt), Nat.mod_eq_of_lt (by simpa using w'.isLt)] at hvalue
  exact BitVec.eq_of_toNat_eq hvalue

@[simp] theorem length_wordBytes (w : Bytes32) : (wordBytes w).length = 32 := by simp [wordBytes]

/-- The packing of three parts of fixed lengths can be undone. -/
theorem Attestation.Formed.packed_inj {a : Attestation} (ha : a.Formed) {message : Bytes32}
    {signature pubkey : List UInt8} (hsignature : signature.length = mldsaSignatureLen)
    (h : a.packed = wordBytes message ++ signature ++ pubkey) :
    a.message = message ∧ a.signature = signature ∧ a.pubkey = pubkey := by
  rw [packed] at h
  obtain ⟨hleft, hpubkey⟩ := List.append_inj h (by simp [ha.signature, hsignature])
  obtain ⟨hmessage, hsig⟩ := List.append_inj hleft (by simp)
  exact ⟨wordBytes_inj hmessage, hsig, hpubkey⟩

/-! ## What is accepted -/

section Accepted
variable {P : Primitives} {staticcall : List UInt8 → Option (List UInt8)}

/-- A triple hashes like one of the log. -/
theorem LoggedInv.recorded_iff {p : World × List Attestation} (hp : LoggedInv P p)
    {message : Bytes32} {signature pubkey : List UInt8}
    (hsignature : signature.length = mldsaSignatureLen) :
    p.1.contract.verifiedMLDSACommitments (mldsaCommitment P message signature pubkey) = true ↔
      (∃ a ∈ p.2, a.message = message ∧ a.signature = signature ∧ a.pubkey = pubkey) ∨
      ∃ a ∈ p.2, a.packed ≠ wordBytes message ++ signature ++ pubkey ∧
        P.keccak256 a.packed = P.keccak256 (wordBytes message ++ signature ++ pubkey) := by
  rw [hp.recorded]
  constructor
  · rintro ⟨a, ha, hhash⟩
    by_cases hpacked : a.packed = wordBytes message ++ signature ++ pubkey
    · exact .inl ⟨a, ha, (hp.formed a ha).packed_inj hsignature hpacked⟩
    · exact .inr ⟨a, ha, hpacked, hhash⟩
  · rintro (⟨a, ha, rfl, rfl, rfl⟩ | ⟨a, ha, -, hhash⟩)
    · exact ⟨a, ha, rfl⟩
    · exact ⟨a, ha, hhash⟩

/-- **What the contract accepts after any run.**  The parts have their lengths, and the precompile
says yes, or the owner of that moment attested the same triple in the run, or a triple that
collides with it. -/
theorem verifyMLDSASignature_run_iff {msg : Msg} {bridge sequencer verifier : Address} {c : State}
    (hc : constructor msg bridge sequencer verifier = .ok c) (ts : List Transaction)
    (message : Bytes32) (signature pubkey : List UInt8) :
    (runLogged P ts (⟨c, []⟩, [])).1 = run P ts ⟨c, []⟩ ∧
    (∀ a ∈ (runLogged P ts (⟨c, []⟩, [])).2, a.Formed) ∧
    (verifyMLDSASignature P staticcall message signature pubkey (run P ts ⟨c, []⟩).contract =
        .ok true ↔
      signature.length = mldsaSignatureLen ∧ pubkey.length = mldsaPubkeyLen ∧
        (verifyMLDSANative staticcall message signature pubkey = true ∨
          (∃ a ∈ (runLogged P ts (⟨c, []⟩, [])).2,
            a.message = message ∧ a.signature = signature ∧ a.pubkey = pubkey) ∨
          ∃ a ∈ (runLogged P ts (⟨c, []⟩, [])).2,
            a.packed ≠ wordBytes message ++ signature ++ pubkey ∧
            P.keccak256 a.packed = P.keccak256 (wordBytes message ++ signature ++ pubkey))) := by
  have hdeployed : LoggedInv P (⟨c, []⟩, []) := by
    simp only [constructor, require_bind_eq_ok, pure_eq_ok] at hc
    obtain ⟨-, -, -, rfl⟩ := hc
    exact ⟨by simp, by simp⟩
  have hlog := hdeployed.runLogged ts
  have hrun := runLogged_fst P ts (⟨c, []⟩, [])
  refine ⟨hrun, hlog.formed, ?_⟩
  rw [verifyMLDSASignature_eq_true]
  refine and_congr_right fun hsignature => and_congr_right fun _ => or_congr_right ?_
  rw [← hrun]
  exact hlog.recorded_iff hsignature

/-- **What is accepted stays accepted**, whatever anybody does afterwards, the owner included. -/
theorem verifyMLDSASignature_after {C : Address × Call → World → Prop} {w₀ w : World}
    (hafter : After P C w₀ w) {message : Bytes32} {signature pubkey : List UInt8}
    (haccepted : verifyMLDSASignature P staticcall message signature pubkey w₀.contract =
      .ok true) :
    verifyMLDSASignature P staticcall message signature pubkey w.contract = .ok true := by
  have hkept : ∀ hash, w₀.contract.verifiedMLDSACommitments hash = true →
      w.contract.verifiedMLDSACommitments hash = true := by
    intro hash h₀
    induction hafter with
    | refl => exact h₀
    | done _ _ h ih =>
        obtain ⟨c, events, hbody, rfl⟩ := enter_eq_done h
        exact ((body_attestations hbody).2 hash).mpr (.inl ih)
    | callOut _ _ h ih =>
        obtain ⟨l, c, -, hpay, rfl, -⟩ := enter_eq_callOut h
        rwa [processWithdrawalEnter_commitments hpay]
    | resume h _ hr ih =>
        obtain ⟨l, c, -, -, -, rfl⟩ := enter_eq_callOut h
        cases hr
        exact ih
  rw [verifyMLDSASignature_eq_true] at haccepted ⊢
  exact ⟨haccepted.1, haccepted.2.1, haccepted.2.2.imp_right (hkept _)⟩

/-! ## With the precompile of the Go package -/

variable [Mldsa.Xof]

/-- The call of the precompile's address runs the precompile. -/
def CallsPrecompile (staticcall : List UInt8 → Option (List UInt8)) : Prop :=
  ∀ input out, Vm.MLDSAPrecompile.run input = some out → staticcall input = out.toOption

omit [Mldsa.Xof] in
theorem wordAt_result : wordAt Vm.MLDSAPrecompile.result 0 = 1 := by decide

/-- The native check is the verification of the Go package. -/
theorem verifyMLDSANative_iff (hcalls : CallsPrecompile staticcall) {message : Bytes32}
    {signature pubkey : List UInt8} (hsignature : signature.length = mldsaSignatureLen)
    (hpubkey : pubkey.length = mldsaPubkeyLen) {pk : Mldsa.PublicKey}
    (hpk : Mldsa.publicKeyFromBytes .mldsa65 pubkey = .ok pk) {err : Except Mldsa.Error Unit}
    (hverify : Mldsa.verify .mldsa65 pk (wordBytes message) signature = some err) :
    verifyMLDSANative staticcall message signature pubkey = err.isOk := by
  have hsized : Vm.Sized (wordBytes message) pubkey signature :=
    ⟨length_wordBytes message, hpubkey, hsignature⟩
  have hrun := Vm.run_append hsized []
  rw [List.append_nil, Vm.verifyMLDSA_eq hsized hpk, hverify] at hrun
  rw [verifyMLDSANative]
  simp only [hcalls _ _ hrun]
  cases err with
  | error e => rfl
  | ok _ =>
      have hone := wordAt_result
      simp only [Except.isOk, Except.toBool, Bool.not_true, Bool.false_eq_true, if_false,
        Except.toOption, hone]
      rfl

/-- **A signature of the Go package under a generated key is accepted in every state**, attested
or not. -/
theorem verifyMLDSASignature_sign (hcalls : CallsPrecompile staticcall) {xi rnd sig : List UInt8}
    {pk : Mldsa.PublicKey} {sk : Mldsa.SecretKey} {message : Bytes32}
    (hkey : Mldsa.keyGenFromSeed .mldsa65 xi = some (.ok (pk, sk)))
    (hsign : Mldsa.sign .mldsa65 sk (wordBytes message) rnd = some (.ok sig)) (c : State) :
    verifyMLDSASignature P staticcall message sig (Mldsa.publicKeyToBytes pk) c = .ok true := by
  have hrun := Vm.run_sign hkey hsign (length_wordBytes message)
  have hread := Mldsa.publicKeyFromBytes_publicKeyToBytes (Mldsa.wellFormed_keyGenFromSeed hkey).1
  have hone := wordAt_result
  rw [verifyMLDSASignature_eq_true]
  refine ⟨Mldsa.length_sign hsign, Vm.length_of_publicKeyFromBytes hread, .inl ?_⟩
  rw [verifyMLDSANative]
  simp only [hcalls _ _ hrun, Except.toOption, hone]
  rfl

end Accepted

section Example
variable {P : Primitives} {signature pubkey : List UInt8}

/-- The owner's attestation is logged and that of anybody else is refused. -/
theorem runLogged_two (hsignature : signature.length = mldsaSignatureLen)
    (hpubkey : pubkey.length = mldsaPubkeyLen) {c : State} {owner other : Address}
    (howner : c.owner = owner) (hother : other ≠ owner) (message message' : Bytes32) :
    (runLogged P
      [ ⟨10, .call (owner, .addVerifiedMLDSACommitment message signature pubkey) [] true⟩,
        ⟨11, .call (other, .addVerifiedMLDSACommitment message' signature pubkey) [] true⟩ ]
      (⟨c, []⟩, [])).2 = [⟨owner, owner, message, signature, pubkey⟩] := by
  simp [runLogged, Action.exec, ghosted, enter, Call.body, noteAttestations, attestations,
    addVerifiedMLDSACommitment, onlyOwner, require, howner, hother, hsignature, hpubkey, bind,
    Except.bind, pure, Except.pure, World.emit]

/-- A signature and a key of the right lengths. -/
def zeroSignature : List UInt8 := List.replicate mldsaSignatureLen 0
def zeroPubkey : List UInt8 := List.replicate mldsaPubkeyLen 0

theorem length_zeroSignature : zeroSignature.length = mldsaSignatureLen := List.length_replicate
theorem length_zeroPubkey : zeroPubkey.length = mldsaPubkeyLen := List.length_replicate

/-- A hash that tells one packed triple from everything else. -/
def markingPrimitives : Primitives where
  keccak256 bytes := if bytes = wordBytes 5 ++ zeroSignature ++ zeroPubkey then 1 else 0
  ecrecover _ _ _ _ := 0

/-- The owner attests a signature of `5`; somebody else tries to attest one of `6`. -/
def attestingRun : List Transaction :=
  [ ⟨10, .call (0xad, .addVerifiedMLDSACommitment 5 zeroSignature zeroPubkey) [] true⟩,
    ⟨11, .call (0xbb, .addVerifiedMLDSACommitment 6 zeroSignature zeroPubkey) [] true⟩ ]

/-- Without the precompile the first is accepted after `attestingRun` and the second is not. -/
theorem verifyMLDSASignature_attestingRun :
    verifyMLDSASignature markingPrimitives (fun _ => none) 5 zeroSignature zeroPubkey
        (run markingPrimitives attestingRun ⟨deployed, []⟩).contract = .ok true ∧
      verifyMLDSASignature markingPrimitives (fun _ => none) 6 zeroSignature zeroPubkey
        (run markingPrimitives attestingRun ⟨deployed, []⟩).contract ≠ .ok true := by
  have hiff : ∀ message, _ := fun message => (@verifyMLDSASignature_run_iff markingPrimitives
    (fun _ => none) ⟨0xad, 0⟩ 0xb0 0x5e 0xfe deployed rfl attestingRun message zeroSignature
    zeroPubkey).2.2
  have hlog : (runLogged markingPrimitives attestingRun (⟨deployed, []⟩, [])).2 =
      [⟨0xad, 0xad, 5, zeroSignature, zeroPubkey⟩] := by
    have howner : deployed.owner = 0xad := rfl
    rw [attestingRun, runLogged_two length_zeroSignature length_zeroPubkey howner (by decide)]
  have hbytes : wordBytes 6 ≠ wordBytes 5 := fun heq => absurd (wordBytes_inj heq) (by decide)
  constructor
  · rw [hiff, hlog]
    exact ⟨length_zeroSignature, length_zeroPubkey,
      .inr (.inl ⟨_, List.mem_singleton_self _, rfl, rfl, rfl⟩)⟩
  · rw [ne_eq, hiff, hlog]
    rintro ⟨-, -, hnative | ⟨a, ha, hmessage, -⟩ | ⟨a, ha, -, hhash⟩⟩
    · cases hnative
    · rw [List.mem_singleton] at ha
      subst ha
      exact absurd hmessage (by decide)
    · rw [List.mem_singleton] at ha
      subst ha
      have hne : wordBytes 6 ++ zeroSignature ++ zeroPubkey ≠
          wordBytes 5 ++ zeroSignature ++ zeroPubkey := by
        rw [ne_eq, List.append_cancel_right_eq, List.append_cancel_right_eq]
        exact hbytes
      simp only [markingPrimitives, Attestation.packed, if_true, if_neg hne] at hhash
      exact absurd hhash (by decide)

/-- `deployed` with one triple attested. -/
def attested : State :=
  { deployed with
    verifiedMLDSACommitments := Function.update deployed.verifiedMLDSACommitments
      (mldsaCommitment markingPrimitives 5 zeroSignature zeroPubkey) true }

/-- The owner cannot take it back by giving the contract up. -/
theorem verifyMLDSASignature_after_renouncing :
    verifyMLDSASignature markingPrimitives (fun _ => none) 5 zeroSignature zeroPubkey
      (run markingPrimitives [⟨10, .call (0xad, .pause) [] true⟩,
        ⟨11, .call (0xad, .renounceOwnership) [] true⟩] ⟨attested, []⟩).contract = .ok true := by
  refine verifyMLDSASignature_after (after_run markingPrimitives _ _) ?_
  have hrecorded : attested.verifiedMLDSACommitments
      (mldsaCommitment markingPrimitives 5 zeroSignature zeroPubkey) = true := by
    simp only [attested, Function.update_self]
  rw [verifyMLDSASignature_eq_true]
  exact ⟨length_zeroSignature, length_zeroPubkey, .inr hrecorded⟩

end Example

/-- The static call that runs the precompile of the Go package. -/
def callPrecompile [Mldsa.Xof] (input : List UInt8) : Option (List UInt8) :=
  (Vm.MLDSAPrecompile.run input).bind Except.toOption

theorem callsPrecompile [Mldsa.Xof] : CallsPrecompile callPrecompile := by
  intro input out hrun
  rw [callPrecompile, hrun, Option.bind_some]

theorem verifyMLDSASignature_sign_constant : letI := Mldsa.Xof.constant
    ∃ pk sk sig, Mldsa.keyGenFromSeed .mldsa65 (List.replicate 32 0) = some (.ok (pk, sk)) ∧
      Mldsa.sign .mldsa65 sk (wordBytes 7) (List.replicate 32 0) = some (.ok sig) ∧
      verifyMLDSASignature fixedPrimitives callPrecompile 7 sig (Mldsa.publicKeyToBytes pk)
        deployed = .ok true := by
  let _ := Mldsa.Xof.constant
  obtain ⟨pk, sk, hkey⟩ := Mldsa.keyGenFromSeed_constant Mldsa.constantStreams_constant
    (List.replicate 32 0)
  obtain ⟨sig, hsign⟩ := Mldsa.sign_constant Mldsa.constantStreams_constant hkey (wordBytes 7)
    (List.replicate 32 0)
  exact ⟨pk, sk, sig, hkey, hsign, verifyMLDSASignature_sign callsPrecompile hkey hsign deployed⟩

end BhtBhte.Settlement
