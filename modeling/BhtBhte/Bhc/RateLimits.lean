import BhtBhte.Bhc.Registration
import BhtBhte.Lib.RateLimit

/-!
# Registrations in an hour

The rate limit of `registerMiner` counts from the first attempt of a window, and a new window may
begin at the end of the last one.  So an hour can hold the attempts of two windows, all but one.
`judgedTimes_hour_le`: the key of a miner is looked at nineteen times an hour at most.
-/
namespace BhtBhte.Coordinator

open BhtBhte.Lib
open BhtBhte.Channel (Hash)

/-- The answer to an attempt that is not looked at. -/
def rateLimitedReply : Except String Unit :=
  .error ("miner registration rate limited: max " ++
    toString maxMinerRegistrationsPerHour ++ " per hour")

/-- When a miner attempts to register. -/
def Op.attemptTime? (minerID : String) : Op → Option ℤ
  | .registerMiner minerID' _ now _ => if minerID' = minerID then some now else none
  | .setDifficulty _ => none
  | .checkMinerHealth _ => none

/-- The times of the attempts of a miner that are answered otherwise than by the rate limit. -/
def judgedTimes (keccak256 : List UInt8 → Hash) (minerID : String) :
    List Op → MergeMiningCoordinator → List ℤ
  | [], _ => []
  | op :: ops, c =>
    let rest := judgedTimes keccak256 minerID ops (exec keccak256 op c)
    match op with
    | .registerMiner minerID' minerPubKey now later =>
      if minerID' = minerID ∧
          (registerMiner keccak256 minerID' minerPubKey now later c).1 ≠ rateLimitedReply then
        now :: rest
      else rest
    | _ => rest

/-- The counter of a miner. -/
def MergeMiningCoordinator.counter (c : MergeMiningCoordinator) (minerID : String) :
    Option (ℤ × ℤ) :=
  (c.registrationLimiter.get? minerID).map fun attempt => (attempt.count, attempt.firstSeen)

variable {keccak256 : List UInt8 → Hash} {c c' : MergeMiningCoordinator} {minerID minerID' : String}
  {minerPubKey : List UInt8} {now later : ℤ}

/-! ## One attempt -/

/-- Counting an attempt takes it from the miner's counter. -/
theorem counter_countAttempt : RateLimit.take maxMinerRegistrationsPerHour hour now (c.counter minerID) =
    (countAttempt minerID now c).bind (·.counter minerID) := by
  rw [MergeMiningCoordinator.counter, countAttempt]
  cases c.registrationLimiter.get? minerID with
  | none => simp [RateLimit.take, MergeMiningCoordinator.counter]
  | some attempt =>
      by_cases hrecent : now - attempt.firstSeen < hour
      · by_cases hfull : attempt.count ≥ maxMinerRegistrationsPerHour
        · simp [RateLimit.take, hrecent, hfull]
        · simp [RateLimit.take, MergeMiningCoordinator.counter, hrecent, hfull]
      · simp [RateLimit.take, MergeMiningCoordinator.counter, hrecent]

theorem counter_of_countAttempt (h : countAttempt minerID now c = some c') :
    (c'.counter minerID).isSome = true := by
  rw [countAttempt] at h
  dsimp only at h
  split at h
  · split_ifs at h
    all_goals
      cases h
      simp [MergeMiningCoordinator.counter]
  · cases h
    simp [MergeMiningCoordinator.counter]

/-- The counters of the other miners stay. -/
theorem counter_of_ne (h : countAttempt minerID' now c = some c') (hne : minerID' ≠ minerID) :
    c'.counter minerID = c.counter minerID := by
  rw [countAttempt] at h
  dsimp only at h
  split at h
  · split_ifs at h
    all_goals
      cases h
      simp [MergeMiningCoordinator.counter, FinMap.get?_insert_of_ne _ _ hne.symm]
  · cases h
    simp [MergeMiningCoordinator.counter, FinMap.get?_insert_of_ne _ _ hne.symm]

@[simp] theorem counter_noteFailure : (noteFailure minerID' c).counter minerID = c.counter minerID := by
  unfold noteFailure
  cases c.activeMiners.get? minerID' with
  | none => rfl
  | some miner => rfl

/-- What `registerMiner` does after the attempt was counted leaves the counters. -/
theorem counter_registerMiner (h : countAttempt minerID' now c = some c') :
    (registerMiner keccak256 minerID' minerPubKey now later c).2.counter minerID =
      c'.counter minerID := by
  rw [registerMiner, h]
  dsimp only
  cases verifyMinerPoW keccak256 minerPubKey c' with
  | error e => exact counter_noteFailure
  | ok pow =>
      dsimp only
      split_ifs <;> rfl

/-- An attempt that is not rate limited has another answer. -/
theorem reply_eq_rateLimitedReply :
    (registerMiner keccak256 minerID minerPubKey now later c).1 = rateLimitedReply ↔
      countAttempt minerID now c = none := by
  rw [registerMiner]
  cases countAttempt minerID now c with
  | none => exact ⟨fun _ => rfl, fun _ => rfl⟩
  | some c' =>
      simp only [reduceCtorEq, iff_false]
      cases hverify : verifyMinerPoW keccak256 minerPubKey c' with
      | error e =>
          intro h
          have htext := congrArg String.toList (Except.error.inj h)
          simp at htext
      | ok pow =>
          dsimp only
          rw [if_pos (lt_powThreshold hverify)]
          intro h
          have htext := congrArg String.toList (Except.error.inj h)
          simp at htext

/-! ## Every run -/

/-- The attempts that are looked at are the ones the counter admits. -/
theorem judgedTimes_eq (ops : List Op) (c : MergeMiningCoordinator) :
    judgedTimes keccak256 minerID ops c =
      RateLimit.admitted maxMinerRegistrationsPerHour hour (c.counter minerID)
        (ops.filterMap (·.attemptTime? minerID)) := by
  induction ops generalizing c with
  | nil => rfl
  | cons op ops ih =>
      cases op with
      | setDifficulty newDiff => exact ih _
      | checkMinerHealth now => exact ih _
      | registerMiner minerID' minerPubKey now later =>
          rw [judgedTimes, ih]
          by_cases hid : minerID' = minerID
          · subst hid
            have htime : Op.attemptTime? minerID' (.registerMiner minerID' minerPubKey now later) =
                some now := if_pos rfl
            rw [List.filterMap_cons_some htime, RateLimit.admitted, counter_countAttempt, exec]
            cases hcount : countAttempt minerID' now c with
            | none =>
                have hlimited : c.RateLimited minerID' now := countAttempt_eq_none.mp hcount
                rw [if_neg fun h => h.2 (reply_eq_rateLimitedReply.mpr hcount),
                  registerMiner_rateLimited hlimited]
                rfl
            | some c' =>
                have hreply : (registerMiner keccak256 minerID' minerPubKey now later c).1 ≠
                    rateLimitedReply := fun h =>
                  Option.some_ne_none c' (hcount.symm.trans (reply_eq_rateLimitedReply.mp h))
                obtain ⟨s', hs'⟩ := Option.isSome_iff_exists.mp (counter_of_countAttempt hcount)
                rw [if_pos ⟨rfl, hreply⟩, counter_registerMiner hcount, Option.bind_some, hs']
          · have htime : Op.attemptTime? minerID (.registerMiner minerID' minerPubKey now later) =
                none := if_neg hid
            rw [List.filterMap_cons_none htime, if_neg fun h => hid h.1, exec]
            cases hcount : countAttempt minerID' now c with
            | none => rw [registerMiner_rateLimited (countAttempt_eq_none.mp hcount)]
            | some c' => rw [counter_registerMiner hcount, counter_of_ne hcount hid]

/-- **Nineteen an hour.**  In every run in which the attempts of a miner are in order of time, the
coordinator looks at nineteen keys of it at most within any hour, whatever else is called in
between. -/
theorem judgedTimes_hour_le (keccak256 : List UInt8 → Hash) (minerID : String) (ops : List Op)
    (t : ℤ) (hsorted : (ops.filterMap (·.attemptTime? minerID)).Pairwise (· ≤ ·)) :
    (((judgedTimes keccak256 minerID ops newMergeMiningCoordinator).filter
      (RateLimit.Within t hour ·)).length : ℤ) ≤ 2 * maxMinerRegistrationsPerHour - 1 := by
  rw [judgedTimes_eq]
  exact RateLimit.countWithin_le (by decide) trivial hsorted

/-- Attempts of a miner at one time. -/
def attempts (n : ℕ) (now : ℤ) : List Op :=
  List.replicate n (.registerMiner "miner" [] now now)

/-- One attempt, nine at the end of its hour, and ten at the begin of the next one. -/
theorem judgedTimes_hour_le_two :
    ((judgedTimes keepHash "miner" (attempts 1 0 ++ (attempts 9 (hour - 1) ++ attempts 10 hour))
      newMergeMiningCoordinator).filter (RateLimit.Within (hour - 1) hour ·)).length = 19 ∧
    (((judgedTimes keepHash "miner" (attempts 1 0 ++ (attempts 9 (hour - 1) ++ attempts 10 hour))
      newMergeMiningCoordinator).filter (RateLimit.Within (hour - 1) hour ·)).length : ℤ) ≤
        2 * maxMinerRegistrationsPerHour - 1 :=
  ⟨by decide, judgedTimes_hour_le keepHash "miner" _ (hour - 1) (by decide)⟩

end BhtBhte.Coordinator
