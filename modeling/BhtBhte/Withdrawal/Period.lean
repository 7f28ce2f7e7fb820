import BhtBhte.Withdrawal.Runs

/-!
# The challenge period

A withdrawal may be approved from `challengeEndTime` on, and that is a field of the request: whoever
submits it sets its deadline.  A challenge does not look at the status either, so it takes an
executed withdrawal back.  Apart from these two the states are kept apart well: a challenged
withdrawal never becomes approved.  On calls that avoid the two every withdrawal is timely
(`timely_of_careful`).
-/
namespace BhtBhte.Withdrawal

open BhtBhte.Lib
open BhtBhte.Script (MldsaLevel)

/-- A withdrawal that was executed, if at all, at least the challenge period after it was
submitted and without a challenge, and that has been in this state ever since. -/
structure Timely (r : WithdrawalRequest) (note : Note) : Prop where
  kept : r.status = .executed ↔ note.executedAt.isSome = true
  late : ∀ t, note.executedAt = some t →
    note.submittedAt.toNat + challengePeriodSeconds.toNat ≤ t.toNat
  unchallenged : note.executedAt.isSome = true → note.challenged = false

theorem Timely.not_executed {r : WithdrawalRequest} {note : Note} (h : Timely r note)
    (hr : r.status ≠ .executed) : note.executedAt = none := by
  rw [← Option.not_isSome_iff_eq_none, ← h.kept]
  exact hr

theorem Timely.of_not_executed {r : WithdrawalRequest} {note : Note} (hr : r.status ≠ .executed)
    (h : note.executedAt = none) : Timely r note := by
  constructor <;> simp [h, hr]

/-- Every withdrawal of the epoch is timely. -/
def AllTimely (w : World) : Prop :=
  List.Forall₂ Timely w.validator.mPendingWithdrawals w.notes

theorem AllTimely.get {w : World} (h : AllTimely w) {i : ℕ} {r : WithdrawalRequest} {note : Note}
    (hr : w.validator.mPendingWithdrawals[i]? = some r) (hnote : w.notes[i]? = some note) :
    Timely r note := by
  obtain ⟨h₁, rfl⟩ := List.getElem?_eq_some_iff.mp hr
  obtain ⟨h₂, rfl⟩ := List.getElem?_eq_some_iff.mp hnote
  exact (List.forall₂_iff_get.mp h).2 i h₁ h₂

section Invariant
variable {P : Primitives} {w : World} {clock clock' : UInt64} {r r' : WithdrawalRequest}
  {note : Note}

/-- What is known of a withdrawal by its status. -/
structure Settled (clock : UInt64) (r : WithdrawalRequest) (note : Note) : Prop where
  timely : Timely r note
  unchallenged : r.status = .pending ∨ r.status = .approved → note.challenged = false
  ripe : r.status = .approved → r.amount ≤ maxWithdrawalDelay →
    note.submittedAt.toNat + challengePeriodSeconds.toNat ≤ clock.toNat

theorem Settled.mono (h : Settled clock r note) (hle : clock ≤ clock') :
    Settled clock' r note where
  timely := h.timely
  unchallenged := h.unchallenged
  ripe hstatus hamount := (h.ripe hstatus hamount).trans (UInt64.le_iff_toNat_le.mp hle)

/-- The notes fit the withdrawals, and the deadlines that count leave the period. -/
structure PeriodInv (P : Primitives) (w : World) : Prop where
  length : w.notes.length = w.validator.mPendingWithdrawals.length
  settled : ∀ (i : ℕ) r note, w.validator.mPendingWithdrawals[i]? = some r →
    w.notes[i]? = some note → Settled w.clock r note
  deadline : ∀ (i : ℕ) hash r note, FirstAt P w.validator.mPendingWithdrawals hash i r →
    w.notes[i]? = some note → r.amount ≤ maxWithdrawalDelay →
      note.submittedAt.toNat + challengePeriodSeconds.toNat ≤ r.challengeEndTime.toNat

theorem PeriodInv.allTimely (h : PeriodInv P w) : AllTimely w := by
  rw [AllTimely, List.forall₂_iff_get]
  refine ⟨h.length.symm, fun i h₁ h₂ => ?_⟩
  exact (h.settled i _ _ (List.getElem?_eq_getElem h₁) (List.getElem?_eq_getElem h₂)).timely

theorem PeriodInv.of_empty (hpending : w.validator.mPendingWithdrawals = [])
    (hnotes : w.notes = []) : PeriodInv P w := by
  constructor
  · rw [hpending, hnotes]
    rfl
  · intro i r note hr
    rw [hpending] at hr
    cases hr
  · intro i hash r note hr
    rw [hpending] at hr
    cases hr.1

theorem PeriodInv.tick (h : PeriodInv P w) (hle : w.clock ≤ clock) :
    PeriodInv P { w with clock := clock } where
  length := h.length
  settled i r note hr hnote := (h.settled i r note hr hnote).mono hle
  deadline := h.deadline

/-- One withdrawal gets a new status, and perhaps a new note. -/
theorem PeriodInv.write {i : ℕ} {v' : CWithdrawalValidator} {f : Note → Note}
    (executions : List Bytes) (h : PeriodInv P w) (hle : w.clock ≤ clock)
    (hget : w.validator.mPendingWithdrawals[i]? = some r)
    (hpending : v'.mPendingWithdrawals = w.validator.mPendingWithdrawals.set i r')
    (hid : calculateWithdrawalId P r' = calculateWithdrawalId P r) (hamount : r'.amount = r.amount)
    (hend : r'.challengeEndTime = r.challengeEndTime)
    (hnote : ∀ n, (f n).submittedAt = n.submittedAt)
    (hsettled : ∀ n, w.notes[i]? = some n → Settled clock r n → Settled clock r' (f n)) :
    PeriodInv P ⟨v', w.notes.modify i f, executions, clock⟩ := by
  have hlt : i < w.validator.mPendingWithdrawals.length := (List.getElem?_eq_some_iff.mp hget).1
  have hnotes : ∀ j n, (w.notes.modify i f)[j]? = some n →
      ∃ n₀, w.notes[j]? = some n₀ ∧ n = if j = i then f n₀ else n₀ := by
    intro j n hn
    rw [List.getElem?_modify, Option.map_eq_map, Option.map_eq_some_iff] at hn
    obtain ⟨n₀, hn₀, rfl⟩ := hn
    exact ⟨n₀, hn₀, by simp only [eq_comm]⟩
  constructor
  · rw [List.length_modify, hpending, List.length_set]
    exact h.length
  · intro j s n hs hn
    obtain ⟨n₀, hn₀, rfl⟩ := hnotes j n hn
    rw [hpending] at hs
    by_cases hji : j = i
    · subst hji
      rw [List.getElem?_set_self hlt] at hs
      obtain rfl := Option.some.inj hs
      rw [if_pos rfl]
      exact hsettled n₀ hn₀ ((h.settled j r n₀ hget hn₀).mono hle)
    · rw [List.getElem?_set_ne (fun heq => hji heq.symm)] at hs
      rw [if_neg hji]
      exact (h.settled j s n₀ hs hn₀).mono hle
  · intro j hash s n hfirst hn hsmall
    obtain ⟨n₀, hn₀, rfl⟩ := hnotes j n hn
    rw [hpending] at hfirst
    rcases firstAt_set hget hid hfirst with ⟨rfl, rfl, hold⟩ | ⟨hji, hold⟩
    · rw [if_pos rfl, hnote, hend]
      exact h.deadline j hash r n₀ hold hn₀ (hamount ▸ hsmall)
    · rw [if_neg hji]
      exact h.deadline j hash s n₀ hold hn₀ hsmall

/-- A submitted withdrawal comes last. -/
theorem PeriodInv.submit {v' : CWithdrawalValidator} (h : PeriodInv P w) (hle : w.clock ≤ clock)
    (hpending : v'.mPendingWithdrawals = w.validator.mPendingWithdrawals ++ [r])
    (hstatus : r.status = .pending)
    (hdeadline : (∀ s ∈ w.validator.mPendingWithdrawals,
        calculateWithdrawalId P s ≠ calculateWithdrawalId P r) →
      r.amount ≤ maxWithdrawalDelay →
        clock.toNat + challengePeriodSeconds.toNat ≤ r.challengeEndTime.toNat) :
    PeriodInv P ⟨v', w.notes ++ [{ submittedAt := clock }], w.executions, clock⟩ := by
  have hnotes : ∀ (i : ℕ) n, (w.notes ++ [{ submittedAt := clock }])[i]? = some n →
      (i < w.notes.length ∧ w.notes[i]? = some n) ∨
        (i = w.notes.length ∧ n = { submittedAt := clock }) := by
    intro i n hn
    rcases Nat.lt_trichotomy i w.notes.length with hlt | heq | hgt
    · exact .inl ⟨hlt, by rwa [List.getElem?_append_left hlt] at hn⟩
    · subst heq
      rw [List.getElem?_concat_length, Option.some.injEq] at hn
      exact .inr ⟨rfl, hn.symm⟩
    · rw [List.getElem?_eq_none (by simp; omega)] at hn
      cases hn
  constructor
  · rw [List.length_append, hpending, List.length_append, h.length]
    rfl
  · intro i s n hs hn
    rw [hpending] at hs
    rcases hnotes i n hn with ⟨hlt, hold⟩ | ⟨rfl, rfl⟩
    · rw [List.getElem?_append_left (h.length ▸ hlt)] at hs
      exact (h.settled i s n hs hold).mono hle
    · rw [h.length, List.getElem?_concat_length, Option.some.injEq] at hs
      subst hs
      refine ⟨⟨?_, ?_, ?_⟩, fun _ => rfl, ?_⟩ <;> simp [hstatus]
  · intro i hash s n hfirst hn hsmall
    rw [hpending] at hfirst
    rcases firstAt_of_concat hfirst with hold | ⟨rfl, rfl, hnew⟩
    · have hlt := (List.getElem?_eq_some_iff.mp hold.1).1
      rw [List.getElem?_append_left (h.length ▸ hlt)] at hn
      exact h.deadline i hash s n hold hn hsmall
    · rw [← h.length, List.getElem?_concat_length, Option.some.injEq] at hn
      obtain rfl := hfirst.2.1
      exact hn ▸ hdeadline hnew hsmall

/-- The period is left before the deadline of a request that counts, and no executed withdrawal
is challenged. -/
def Careful (P : Primitives) (w : World) (call : Call) : Prop :=
  match call.op with
  | .submitWithdrawal request =>
    w.validator.verifyWithdrawalSignature P request = true →
      w.validator.verifyStateRootAnchor request.stateRoot = true →
      (∀ r ∈ w.validator.mPendingWithdrawals,
        calculateWithdrawalId P r ≠ calculateWithdrawalId P request) →
      request.amount ≤ maxWithdrawalDelay →
        call.now.toNat + challengePeriodSeconds.toNat ≤ request.challengeEndTime.toNat
  | .challengeWithdrawal hash proof =>
    w.validator.verifyFraudProof P proof = true →
      ∀ i r, FirstAt P w.validator.mPendingWithdrawals hash i r → r.status ≠ .executed
  | _ => True

theorem PeriodInv.exec {call : Call} (h : PeriodInv P w) (hle : w.clock ≤ call.now)
    (hcareful : Careful P w call) : PeriodInv P (exec P call w) := by
  have hout := outcome_exec P call w
  generalize BhtBhte.Withdrawal.exec P call w = w' at hout
  cases hout with
  | same => exact h.tick hle
  | epoch hpending => exact .of_empty hpending rfl
  | submitted hop haccepted hpending =>
      obtain ⟨hsignature, hanchor, -⟩ := submitWithdrawal_eq_true haccepted
      simp only [Careful, hop] at hcareful
      exact h.submit hle hpending rfl (hcareful hsignature hanchor)
  | @challenged hash proof i r v' reason hop hproof hfirst hpending =>
      simp only [Careful, hop] at hcareful
      refine PeriodInv.write _ h hle hfirst.1 hpending rfl rfl rfl (fun _ => rfl) fun n _ hn => ?_
      have hnever := hn.timely.not_executed (hcareful hproof i r hfirst)
      exact ⟨.of_not_executed (by simp) hnever, by simp, by simp⟩
  | @approved hash i r v' hop hfirst hstatus hend hpending =>
      have hwrite := PeriodInv.write (f := id) w.executions h hle hfirst.1 hpending rfl rfl rfl
        (fun _ => rfl) fun n hnote hn => by
          have hnever := hn.timely.not_executed (by simp [hstatus])
          refine ⟨.of_not_executed (by simp) hnever, fun _ => hn.unchallenged (.inl hstatus),
            fun _ hamount => ?_⟩
          exact (h.deadline i hash r n hfirst hnote hamount).trans (UInt64.le_iff_toNat_le.mp hend)
      rwa [List.modify_id] at hwrite
  | executed hop hfirst hstatus hamount hpending =>
      refine PeriodInv.write _ h hle hfirst.1 hpending rfl rfl rfl (fun _ => rfl) fun n _ hn => ?_
      refine ⟨⟨by simp, fun t ht => ?_, fun _ => hn.unchallenged (.inr hstatus)⟩, by simp, by simp⟩
      obtain rfl := Option.some.inj ht
      exact hn.ripe hstatus hamount
  | @expired i r v' hget hstatus hpending =>
      have hwrite := PeriodInv.write (f := id) w.executions h hle hget hpending rfl rfl rfl
        (fun _ => rfl) fun n _ hn => by
          have hnever := hn.timely.not_executed (by rcases hstatus with hs | hs <;> simp [hs])
          exact ⟨.of_not_executed (by simp) hnever, by simp, by simp⟩
      rwa [List.modify_id] at hwrite

/-- A request with an earlier deadline that counts, or a late challenge: some calls later a
withdrawal is not timely. -/
theorem exists_untimely {call : Call} {w : World} (h : PeriodInv P w) (hle : w.clock ≤ call.now)
    (hcareless : ¬ Careful P w call) :
    ∃ calls, Monotone P (call :: calls) w ∧ ¬ AllTimely (runOps (exec P) (call :: calls) w) := by
  obtain ⟨now, op⟩ := call
  cases op with
  | submitWithdrawal request =>
      simp only [Careful, Classical.not_imp, not_le] at hcareless
      obtain ⟨hsignature, hanchor, hnew, hamount, hearly⟩ := hcareless
      have hlater : ∃ later, now ≤ later ∧ request.challengeEndTime ≤ later ∧
          later.toNat < now.toNat + challengePeriodSeconds.toNat := by
        have hperiod : 0 < challengePeriodSeconds.toNat := by decide
        rcases UInt64.le_total now request.challengeEndTime with hcase | hcase
        · exact ⟨_, hcase, UInt64.le_refl _, hearly⟩
        · exact ⟨_, UInt64.le_refl _, hcase, by omega⟩
      obtain ⟨later, hnow, hend, hlate⟩ := hlater
      refine ⟨(straight P request now later).tail, ?_, fun htimely => ?_⟩
      · simpa [Monotone, straight, Allowed] using ⟨hle, hnow⟩
      · have hrun := @runOps_straight P w request now later hsignature hanchor hnew hamount hend
          h.length
        rw [show Call.mk now (.submitWithdrawal request) :: (straight P request now later).tail =
          straight P request now later from rfl, hrun] at htimely
        have hlast : Timely { request with status := .executed }
            { submittedAt := now, executedAt := some later } :=
          htimely.get (i := w.notes.length) (by rw [h.length]; exact List.getElem?_concat_length)
            List.getElem?_concat_length
        exact absurd (hlast.late later rfl) (not_le.mpr hlate)
  | challengeWithdrawal hash proof =>
      simp only [Careful, Classical.not_imp, not_forall, not_not] at hcareless
      obtain ⟨hproof, i, r, hfirst, hstatus⟩ := hcareless
      refine ⟨[], ⟨hle, trivial⟩, fun htimely => ?_⟩
      have hlt : i < w.validator.mPendingWithdrawals.length :=
        (List.getElem?_eq_some_iff.mp hfirst.1).1
      have hnote := List.getElem?_eq_getElem (h.length ▸ hlt : i < w.notes.length)
      have hbefore := (h.settled i r _ hfirst.1 hnote).timely.kept.mp hstatus
      have hafter : (exec P ⟨now, .challengeWithdrawal hash proof⟩ w) = _ :=
        exec_challenge (lookup_eq_some.mpr hfirst) hproof
      rw [runOps, List.foldl_cons, List.foldl_nil, hafter] at htimely
      have hlast := htimely.get (i := i) (List.getElem?_set_self hlt)
        (by rw [List.getElem?_modify_eq, hnote]; rfl)
      exact absurd (hlast.kept.mpr hbefore) (by simp)
  | _ => exact absurd trivial hcareless

end Invariant

/-- **On careful runs no withdrawal is executed early, or after a challenge, or undone.** -/
theorem timely_of_careful (P : Primitives) (level : MldsaLevel) (calls : List Call)
    (hclock : Monotone P calls (.start level))
    (hcareful : Allowed (exec P) (Careful P) calls (.start level)) :
    AllTimely (runOps (exec P) calls (.start level)) := by
  have hboth : Allowed (exec P) (fun w call => w.clock ≤ call.now ∧ Careful P w call) calls
      (.start level) := allowed_and.mpr ⟨hclock, hcareful⟩
  have hstart : PeriodInv P (.start level) := .of_empty rfl rfl
  exact (run_induction (fun call w h hcall => h.exec hcall.1 hcall.2) hstart hboth).allTimely

/-- A parsed request leaves the period when its timestamp is not in the past and the sum does not
wrap around. -/
theorem deadline_of_parse {memory request : WithdrawalRequest} {rawRequest : Bytes} (now : UInt64)
    (h : parseWithdrawalRequest memory rawRequest = some request) :
    now.toNat + challengePeriodSeconds.toNat ≤ request.challengeEndTime.toNat ↔
      now ≤ request.requestTimestamp ∧
        request.requestTimestamp.toNat + challengePeriodSeconds.toNat < 2 ^ 64 := by
  have hend : request.challengeEndTime = request.requestTimestamp + challengePeriodSeconds := by
    simp only [parseWithdrawalRequest] at h
    split_ifs at h
    obtain rfl := Option.some.inj h
    rfl
  have hlt := request.requestTimestamp.toNat_lt
  have hperiod : challengePeriodSeconds.toNat = 604800 := by decide
  rw [hend, UInt64.toNat_add, hperiod, UInt64.le_iff_toNat_le]
  rcases Nat.lt_or_ge (request.requestTimestamp.toNat + 604800) (2 ^ 64) with hfit | hwrap
  · rw [Nat.mod_eq_of_lt hfit]
    omega
  · rw [Nat.mod_eq_sub_mod hwrap, Nat.mod_eq_of_lt (by omega)]
    omega

/-- A week's deadline counted from the timestamp `0`, while the clock is far beyond it. -/
def earlyCalls : List Call :=
  ⟨1000000, .initWithdrawalEpoch [1] 7⟩ ::
    straight trusting (someRequest challengePeriodSeconds) 1000000 1000000

/-- It is submitted, approved and executed in one second. -/
theorem not_allTimely_earlyCalls : Monotone trusting earlyCalls (.start .level3) ∧
    ¬ AllTimely (runOps (exec trusting) earlyCalls (.start .level3)) := by
  refine ⟨⟨by decide, by decide, by decide, by decide, trivial⟩, fun htimely => ?_⟩
  have hfirst := htimely.get (i := 0) rfl rfl
  exact absurd (hfirst.late 1000000 rfl) (by decide)

/-- With a deadline that leaves the period the withdrawal is executed in time. -/
theorem allTimely_patient :
    AllTimely (runOps (exec trusting)
      (⟨0, .initWithdrawalEpoch [1] 7⟩ ::
        straight trusting (someRequest challengePeriodSeconds) 0 challengePeriodSeconds)
      (.start .level3)) :=
  timely_of_careful trusting .level3 _
    ⟨by decide, by decide, by decide, by decide, trivial⟩
    ⟨trivial, fun _ _ _ _ => by decide, trivial, trivial, trivial⟩

end BhtBhte.Withdrawal
