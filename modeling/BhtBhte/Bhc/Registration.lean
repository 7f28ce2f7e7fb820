import BhtBhte.Bhc.Anchors
import BhtBhte.Lib.FinMap
import BhtBhte.Lib.Runs
import BhtBhte.Spv.Work

/-!
# Registering miners

`MergeMiningCoordinator` of `bhc/coordinator/coordinator.go`, as far as miners become active: the
rate limit, the two tests on the hash of a public key, and the difficulty.  The first test wants
the hash below a thousandth of the threshold and the second wants it at or above the threshold, so
no miner is ever registered.  Keccak-256 is a parameter and times are in nanoseconds.  The shares
of a miner per hour, which start at zero and which nothing here reads, are left out.
-/
namespace BhtBhte.Coordinator

open BhtBhte.Lib
open BhtBhte.Channel (Hash)
open BhtBhte.Spv (setBytes)

def minPoWDifficulty : ℤ := 1000
def maxMinerRegistrationsPerHour : ℤ := 10
def hour : ℤ := 3600000000000
def staleThreshold : ℤ := 1800000000000

/-- A registered miner. -/
structure MinerStatus where
  minerID : String
  lastShareTime : ℤ
  totalShares : UInt64
  verifiedPoW : ℤ
  registeredAt : ℤ
  lastPoWCheck : ℤ
  registrationFailures : UInt64
  active : Bool
  deriving DecidableEq

/-- The attempts of a miner in a window. -/
structure RegistrationAttempt where
  count : ℤ
  firstSeen : ℤ
  deriving DecidableEq

/-- The coordinator, as far as miners are concerned. -/
structure MergeMiningCoordinator where
  activeMiners : FinMap String MinerStatus
  powThreshold : ℤ
  registrationLimiter : FinMap String RegistrationAttempt

def newMergeMiningCoordinator : MergeMiningCoordinator where
  activeMiners := ∅
  powThreshold := minPoWDifficulty
  registrationLimiter := ∅

/-- The first part of `registerMiner`, which counts the attempt unless there were too many. -/
def countAttempt (minerID : String) (now : ℤ) (c : MergeMiningCoordinator) :
    Option MergeMiningCoordinator :=
  let write (attempt : RegistrationAttempt) : MergeMiningCoordinator :=
    { c with registrationLimiter := c.registrationLimiter.insert minerID attempt }
  match c.registrationLimiter.get? minerID with
  | some attempt =>
    if now - attempt.firstSeen < hour then
      if attempt.count ≥ maxMinerRegistrationsPerHour then none
      else some (write { attempt with count := attempt.count + 1 })
    else some (write { count := 1, firstSeen := now })
  | none => some (write { count := 1, firstSeen := now })

/-- A miner that is there has one more failure. -/
def noteFailure (minerID : String) (c : MergeMiningCoordinator) : MergeMiningCoordinator :=
  match c.activeMiners.get? minerID with
  | none => c
  | some miner =>
    let miner := { miner with registrationFailures := miner.registrationFailures + 1 }
    { c with activeMiners := c.activeMiners.insert minerID miner }

section
variable (keccak256 : List UInt8 → Hash)

/-- The first test on the hash of a public key, and the difficulty that the hash shows. -/
def verifyMinerPoW (minerPubKey : List UInt8) (c : MergeMiningCoordinator) : Except String ℤ :=
  let hashBig : ℤ := setBytes (keccak256 minerPubKey).1
  let target := c.powThreshold / 1000
  if hashBig ≥ target then .error "hash does not meet difficulty target" else .ok hashBig

/-- The clock is read twice: `later` is when the miner is entered. -/
def registerMiner (minerID : String) (minerPubKey : List UInt8) (now later : ℤ)
    (c : MergeMiningCoordinator) : Except String Unit × MergeMiningCoordinator :=
  match countAttempt minerID now c with
  | none => (.error ("miner registration rate limited: max " ++
      toString maxMinerRegistrationsPerHour ++ " per hour"), c)
  | some c =>
    match verifyMinerPoW keccak256 minerPubKey c with
    | .error e => (.error ("PoW verification failed: " ++ e), noteFailure minerID c)
    | .ok verifiedPoW =>
      if verifiedPoW < c.powThreshold then
        (.error ("insufficient PoW: have " ++ toString verifiedPoW ++ ", need " ++
          toString c.powThreshold), c)
      else
        let miner : MinerStatus :=
          { minerID, lastShareTime := later, totalShares := 0, verifiedPoW, registeredAt := now,
            lastPoWCheck := now, registrationFailures := 0, active := true }
        (.ok (), { c with activeMiners := c.activeMiners.insert minerID miner })

end

/-- Set the threshold, which has a least value. -/
def setDifficulty (newDiff : ℤ) (c : MergeMiningCoordinator) : MergeMiningCoordinator :=
  { c with powThreshold := if newDiff < minPoWDifficulty then minPoWDifficulty else newDiff }

/-- Mark the miners that are silent as inactive. -/
def checkMinerHealth (now : ℤ) (c : MergeMiningCoordinator) : MergeMiningCoordinator :=
  { c with activeMiners := c.activeMiners.mapValues fun miner =>
      if now - miner.lastShareTime > staleThreshold then { miner with active := false }
      else miner }

/-! ## Runs -/

inductive Op where
  | registerMiner (minerID : String) (minerPubKey : List UInt8) (now later : ℤ)
  | setDifficulty (newDiff : ℤ)
  | checkMinerHealth (now : ℤ)

def exec (keccak256 : List UInt8 → Hash) : Op → MergeMiningCoordinator → MergeMiningCoordinator
  | .registerMiner minerID minerPubKey now later, c =>
      (Coordinator.registerMiner keccak256 minerID minerPubKey now later c).2
  | .setDifficulty newDiff, c => Coordinator.setDifficulty newDiff c
  | .checkMinerHealth now, c => Coordinator.checkMinerHealth now c

variable {keccak256 : List UInt8 → Hash} {c c' : MergeMiningCoordinator} {minerID : String}
  {minerPubKey : List UInt8} {now later : ℤ}

/-! ## The rate limit -/

/-- The miner has had its attempts of this hour. -/
def MergeMiningCoordinator.RateLimited (c : MergeMiningCoordinator) (minerID : String) (now : ℤ) :
    Prop :=
  ∃ attempt, c.registrationLimiter.get? minerID = some attempt ∧
    now - attempt.firstSeen < hour ∧ attempt.count ≥ maxMinerRegistrationsPerHour

theorem countAttempt_eq_none : countAttempt minerID now c = none ↔ c.RateLimited minerID now := by
  unfold countAttempt MergeMiningCoordinator.RateLimited
  cases c.registrationLimiter.get? minerID with
  | none => simp
  | some attempt =>
      by_cases hrecent : now - attempt.firstSeen < hour
      · simp [hrecent]
      · simp [hrecent]

/-- Counting an attempt touches the limiter only. -/
theorem countAttempt_eq_some (h : countAttempt minerID now c = some c') :
    c'.powThreshold = c.powThreshold ∧ c'.activeMiners = c.activeMiners := by
  unfold countAttempt at h
  dsimp only at h
  split at h
  · split_ifs at h
    · cases h
      exact ⟨rfl, rfl⟩
    · cases h
      exact ⟨rfl, rfl⟩
  · cases h
    exact ⟨rfl, rfl⟩

/-! ## The two tests -/

/-- What passes the first test is below the threshold. -/
theorem lt_powThreshold {pow : ℤ} (h : verifyMinerPoW keccak256 minerPubKey c = .ok pow) :
    pow < c.powThreshold := by
  unfold verifyMinerPoW at h
  dsimp only at h
  split_ifs at h with htarget
  cases h
  have hpos := Int.natCast_nonneg (setBytes (keccak256 minerPubKey).1)
  omega

/-- **No attempt succeeds.**  The miners change at most by a failure that is noted. -/
theorem registerMiner_refuses (keccak256 : List UInt8 → Hash) (minerID : String)
    (minerPubKey : List UInt8) (now later : ℤ) (c : MergeMiningCoordinator) :
    ∃ e w, registerMiner keccak256 minerID minerPubKey now later c = (.error e, w) ∧
      (w = c ∨ ∃ counted, countAttempt minerID now c = some counted ∧
        (w = counted ∨ w = noteFailure minerID counted)) := by
  rw [registerMiner]
  cases hcount : countAttempt minerID now c with
  | none => exact ⟨_, _, rfl, .inl rfl⟩
  | some counted =>
      dsimp only
      cases hverify : verifyMinerPoW keccak256 minerPubKey counted with
      | error e => exact ⟨_, _, rfl, .inr ⟨counted, rfl, .inr rfl⟩⟩
      | ok pow => exact ⟨_, _, if_pos (lt_powThreshold hverify), .inr ⟨counted, rfl, .inl rfl⟩⟩

/-- A rate limited miner is refused, and nothing is counted. -/
theorem registerMiner_rateLimited (h : c.RateLimited minerID now) :
    (registerMiner keccak256 minerID minerPubKey now later c).2 = c := by
  rw [registerMiner, countAttempt_eq_none.mpr h]

/-- Some key registers the miner, unless it is rate limited. -/
def MergeMiningCoordinator.Admits (keccak256 : List UInt8 → Hash) (c : MergeMiningCoordinator)
    (minerID : String) (now later : ℤ) : Prop :=
  ¬ c.RateLimited minerID now → ∃ minerPubKey,
    (registerMiner keccak256 minerID minerPubKey now later c).1 = .ok () ∧
      ∃ miner, (registerMiner keccak256 minerID minerPubKey now later c).2.activeMiners.get? minerID
        = some miner ∧ miner.active = true

/-- Whatever passes the first test passes the second. -/
def MergeMiningCoordinator.TestsAgree (keccak256 : List UInt8 → Hash)
    (c : MergeMiningCoordinator) : Prop :=
  ∀ minerPubKey pow, verifyMinerPoW keccak256 minerPubKey c = .ok pow → ¬ pow < c.powThreshold

theorem admits_iff : c.Admits keccak256 minerID now later ↔ c.RateLimited minerID now := by
  constructor
  · intro h
    by_contra hfree
    obtain ⟨minerPubKey, hok, -⟩ := h hfree
    obtain ⟨e, w, hrefused, -⟩ := registerMiner_refuses keccak256 minerID minerPubKey now later c
    rw [hrefused] at hok
    cases hok
  · exact fun hlimited hfree => absurd hlimited hfree

theorem le_setDifficulty (newDiff : ℤ) (c : MergeMiningCoordinator) :
    minPoWDifficulty ≤ (setDifficulty newDiff c).powThreshold := by
  unfold setDifficulty
  dsimp only
  split_ifs with hlow
  · exact le_refl _
  · exact not_lt.mp hlow

/-- The number zero as a hash. -/
def zeroHash : Hash := Bhc.hashOf ""

/-- A key whose hash is zero passes the first test. -/
theorem verifyMinerPoW_zero (hkey : keccak256 minerPubKey = zeroHash)
    (hmin : minPoWDifficulty ≤ c.powThreshold) :
    verifyMinerPoW keccak256 minerPubKey c = .ok 0 := by
  have hzero : setBytes zeroHash.1 = 0 := by decide
  have hmin' : (1000 : ℤ) ≤ c.powThreshold := hmin
  have hbelow : ¬ (0 : ℤ) ≥ c.powThreshold / 1000 := by omega
  rw [verifyMinerPoW, hkey, hzero]
  exact if_neg hbelow

theorem not_testsAgree (hkey : keccak256 minerPubKey = zeroHash)
    (hmin : minPoWDifficulty ≤ c.powThreshold) : ¬ c.TestsAgree keccak256 := by
  intro hagree
  have hok := verifyMinerPoW_zero hkey hmin
  exact hagree minerPubKey 0 hok (lt_powThreshold hok)

/-- **Whatever threshold is set, no key registers a miner that is not rate limited, and the two
tests disagree.** -/
theorem admits_never (keccak256 : List UInt8 → Hash) (hsurj : Function.Surjective keccak256)
    (c : MergeMiningCoordinator) (newDiff : ℤ) :
    (∀ minerID now later, (setDifficulty newDiff c).Admits keccak256 minerID now later ↔
        (setDifficulty newDiff c).RateLimited minerID now) ∧
      ¬ (setDifficulty newDiff c).TestsAgree keccak256 := by
  obtain ⟨minerPubKey, hkey⟩ := hsurj zeroHash
  exact ⟨fun _ _ _ => admits_iff, not_testsAgree hkey (le_setDifficulty newDiff c)⟩

/-- A digest that keeps strings of its own length. -/
def keepHash (b : List UInt8) : Hash := if h : b.length = 32 then ⟨b, h⟩ else zeroHash

theorem keepHash_surjective : Function.Surjective keepHash := fun hash =>
  ⟨hash.1, dif_pos hash.2⟩

theorem admits_never_keepHash :
    (∀ minerID now later,
        (setDifficulty 5000 newMergeMiningCoordinator).Admits keepHash minerID now later ↔
          (setDifficulty 5000 newMergeMiningCoordinator).RateLimited minerID now) ∧
      ¬ (setDifficulty 5000 newMergeMiningCoordinator).TestsAgree keepHash :=
  admits_never keepHash keepHash_surjective newMergeMiningCoordinator 5000

/-- On a new coordinator a key with the best hash there is has too little work. -/
theorem not_admits_zeroHash :
    (registerMiner keepHash "miner" [] 0 0 newMergeMiningCoordinator).1 =
        .error "insufficient PoW: have 0, need 1000" ∧
      ¬ newMergeMiningCoordinator.Admits keepHash "miner" 0 0 ∧
      ¬ newMergeMiningCoordinator.TestsAgree keepHash := by
  have hfree : ¬ newMergeMiningCoordinator.RateLimited "miner" 0 := by
    rintro ⟨attempt, hnone, -⟩
    cases hnone
  have hkey : keepHash [] = zeroHash := dif_neg (by decide)
  exact ⟨by decide, mt admits_iff.mp hfree, not_testsAgree hkey (le_refl _)⟩

/-! ## Every run -/

theorem noteFailure_of_empty (h : c.activeMiners = ∅) (minerID : String) :
    noteFailure minerID c = c := by
  rw [noteFailure, h]
  rfl

theorem activeMiners_exec (op : Op) (h : c.activeMiners = ∅) :
    (exec keccak256 op c).activeMiners = ∅ := by
  cases op with
  | setDifficulty newDiff => exact h
  | checkMinerHealth now =>
      rw [exec, checkMinerHealth, h]
      rfl
  | registerMiner minerID minerPubKey now later =>
      obtain ⟨e, w, hrefused, hw⟩ :=
        registerMiner_refuses keccak256 minerID minerPubKey now later c
      rw [exec, hrefused]
      rcases hw with rfl | ⟨counted, hcount, hw⟩
      · exact h
      · have hempty : counted.activeMiners = ∅ := (countAttempt_eq_some hcount).2.trans h
        rcases hw with rfl | rfl
        · exact hempty
        · rwa [noteFailure_of_empty hempty]

/-- **Whatever is called in whatever order, no miner is ever entered.** -/
theorem activeMiners_run (keccak256 : List UInt8 → Hash) (ops : List Op) :
    (runOps (exec keccak256) ops newMergeMiningCoordinator).activeMiners = ∅ :=
  run_invariant (P := fun c : MergeMiningCoordinator => c.activeMiners = ∅)
    (fun op _ h => activeMiners_exec op h) ops rfl

end BhtBhte.Coordinator
