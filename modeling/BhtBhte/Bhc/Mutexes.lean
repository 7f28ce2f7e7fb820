import BhtBhte.Bhc.Registration
import BhtBhte.Lib.Bytes
import BhtBhte.Lib.Locks

/-!
# The mutexes of the coordinator

`submitShare`, `verifyShare`, `finalizeCoordination`, `registerMiner`, `checkMinerHealth` and
`GetStats` of `bhc/coordinator/coordinator.go`, with the operations on their mutexes. `submitShare`
holds `minersMu` for writing when it calls `verifyShare`, which asks for it again. What is only
logged is left out, and so are the shares of a miner per hour.  A miner that was entered has a proof
of work, so the test for a missing one is left out.  A share of a known miner is never counted
(`submitShare_never_returns`); without such a call every call returns, and `disciplined_iff` says
which calls keep to the discipline.
-/
namespace BhtBhte.Coordinator

open BhtBhte.Lib
open BhtBhte.Lib.Locked (perform locking reading)
open BhtBhte.Channel (Hash)

/-- The mutexes of the coordinator. -/
inductive Mutex where
  | minersMu
  | coordinationMu
  | limiterMu
  deriving DecidableEq

/-- A block that waits; a time that is zero is `none`. -/
structure CoordinatedBlock where
  bhteDifficulty : ℤ
  minedAt : Option ℤ
  submitAttempts : ℤ
  deriving DecidableEq

/-- The coordinator with what its goroutines share. -/
structure SharedCoordinator extends MergeMiningCoordinator where
  pendingBlocks : FinMap Hash CoordinatedBlock
  enabled : Bool

/-- What `GetStats` reports. -/
structure CoordinatorStats where
  pendingBlocks : ℕ
  activeMiners : ℕ
  totalMiners : ℕ
  enabled : Bool
  deriving DecidableEq

/-- Computations of the coordinator with their operations on the mutexes. -/
abbrev Locking := Locked Mutex SharedCoordinator

namespace Locking

/-- An update of the part that miners are registered in. -/
def modifyMiners (f : MergeMiningCoordinator → MergeMiningCoordinator) : Locking Unit :=
  Locked.modify fun c => { c with toMergeMiningCoordinator := f c.toMergeMiningCoordinator }

/-- Whether a share has a hundredth of the difficulty that its miner has shown. -/
def verifyShare (minerID : String) (shareDiff : ℤ) : Locking Bool := do
  perform (.rlock .minersMu)
  let c ← Locked.get
  perform (.runlock .minersMu)
  match c.activeMiners.get? minerID with
  | none => pure false
  | some miner =>
    if !miner.active then pure false
    else
      let requiredDiff := miner.verifiedPoW / 100
      pure (decide (shareDiff ≥ requiredDiff))

/-- The entry is dropped, whatever the number of attempts. -/
def finalizeBlock (blockHash : Hash) (now : ℤ) (c : SharedCoordinator) : SharedCoordinator :=
  match c.pendingBlocks.get? blockHash with
  | none => c
  | some coordinated =>
    let coordinated : CoordinatedBlock :=
      { coordinated with minedAt := some (coordinated.minedAt.getD now)
                         submitAttempts := coordinated.submitAttempts + 1 }
    let written := c.pendingBlocks.insert blockHash coordinated
    if coordinated.submitAttempts ≥ 3 then { c with pendingBlocks := written.erase blockHash }
    else { c with pendingBlocks := written.erase blockHash }

/-- The coordination of a block, under the mutex of the pending blocks. -/
def finalizeCoordination (blockHash : Hash) (now : ℤ) : Locking Unit :=
  locking .coordinationMu (Locked.modify (finalizeBlock blockHash now))

/-- The share is counted for the miner. -/
def countShare (minerID : String) (miner : MinerStatus) (now : ℤ) (c : MergeMiningCoordinator) :
    MergeMiningCoordinator :=
  let counted := { miner with lastShareTime := now, totalShares := miner.totalShares + 1 }
  { c with activeMiners := c.activeMiners.insert minerID counted }

/-- Note when a block was mined. -/
def markMined (blockHash : Hash) (coordinated : CoordinatedBlock) (now : ℤ)
    (c : SharedCoordinator) : SharedCoordinator :=
  let marked := { coordinated with minedAt := some now }
  { c with pendingBlocks := c.pendingBlocks.insert blockHash marked }

/-- The clock is read when the share is counted, when the block is marked and when it is
finalized. -/
def submitShare (minerID : String) (blockHash : Hash) (shareDiff now minedAt finalizedAt : ℤ) :
    Locking (Except String Unit) :=
  locking .minersMu do
    let c ← Locked.get
    match c.activeMiners.get? minerID with
    | none => pure (.error ("unknown miner: " ++ minerID))
    | some miner =>
      let verified ← verifyShare minerID shareDiff
      if !verified then pure (.error "share does not meet PoW threshold")
      else
        modifyMiners (countShare minerID miner now)
        perform (.rlock .coordinationMu)
        let c ← Locked.get
        perform (.runlock .coordinationMu)
        match c.pendingBlocks.get? blockHash with
        | none => pure (.ok ())
        | some coordinated =>
          if shareDiff ≥ coordinated.bhteDifficulty then
            perform (.lock .coordinationMu)
            Locked.modify (markMined blockHash coordinated minedAt)
            perform (.unlock .coordinationMu)
            finalizeCoordination blockHash finalizedAt
            pure (.ok ())
          else pure (.ok ())

/-- Register a miner; the mutex of the limiter is held throughout. -/
def registerMiner (keccak256 : List UInt8 → Hash) (minerID : String) (minerPubKey : List UInt8)
    (now later : ℤ) : Locking (Except String Unit) :=
  locking .limiterMu do
    let c ← Locked.get
    match countAttempt minerID now c.toMergeMiningCoordinator with
    | none => pure (.error ("miner registration rate limited: max " ++
        toString maxMinerRegistrationsPerHour ++ " per hour"))
    | some counted =>
      modifyMiners fun _ => counted
      match verifyMinerPoW keccak256 minerPubKey counted with
      | .error e =>
        locking .minersMu (modifyMiners (noteFailure minerID))
        pure (.error ("PoW verification failed: " ++ e))
      | .ok verifiedPoW =>
        if verifiedPoW < counted.powThreshold then
          pure (.error ("insufficient PoW: have " ++ toString verifiedPoW ++ ", need " ++
            toString counted.powThreshold))
        else
          let miner : MinerStatus :=
            { minerID, lastShareTime := later, totalShares := 0, verifiedPoW, registeredAt := now,
              lastPoWCheck := now, registrationFailures := 0, active := true }
          locking .minersMu do
            modifyMiners fun c => { c with activeMiners := c.activeMiners.insert minerID miner }
            pure (.ok ())

/-- Mark the miners that are silent as inactive. -/
def checkMinerHealth (now : ℤ) : Locking Unit :=
  locking .minersMu (modifyMiners (Coordinator.checkMinerHealth now))

def getStats : Locking CoordinatorStats :=
  reading .coordinationMu do
    reading .minersMu do
      let c ← Locked.get
      pure
        { pendingBlocks := c.pendingBlocks.keys.length
          activeMiners := (c.activeMiners.entries.filter fun e => e.2.active).length
          totalMiners := c.activeMiners.keys.length
          enabled := c.enabled }

/-- With its mutexes granted, a registration is the one without mutexes. -/
theorem registerMiner_eq (keccak256 : List UInt8 → Hash) (minerID : String)
    (minerPubKey : List UInt8) (now later : ℤ) (c : SharedCoordinator) :
    ((registerMiner keccak256 minerID minerPubKey now later).result c,
        ((registerMiner keccak256 minerID minerPubKey now later).state c).toMergeMiningCoordinator) =
      Coordinator.registerMiner keccak256 minerID minerPubKey now later
        c.toMergeMiningCoordinator := by
  rw [registerMiner, Coordinator.registerMiner]
  simp only [Locked.result_locking, Locked.state_locking, Locked.result_bind, Locked.state_bind,
    Locked.result_get, Locked.state_get]
  cases countAttempt minerID now c.toMergeMiningCoordinator with
  | none => rfl
  | some counted =>
      simp only [Locked.result_bind, Locked.state_bind]
      cases verifyMinerPoW keccak256 minerPubKey counted with
      | error e => rfl
      | ok verifiedPoW =>
          dsimp only
          split_ifs with hlow
          · rfl
          · rfl

end Locking

/-! ## The entry points -/

/-- The five entry points. -/
inductive Call where
  | submitShare (minerID : String) (blockHash : Hash) (shareDiff now minedAt finalizedAt : ℤ)
  | registerMiner (minerID : String) (minerPubKey : List UInt8) (now later : ℤ)
  | checkMinerHealth (now : ℤ)
  | getStats
  | finalizeCoordination (blockHash : Hash) (now : ℤ)

namespace Call

/-- The operations on mutexes of a call that finds the coordinator in this state. -/
def trace (keccak256 : List UInt8 → Hash) (c : SharedCoordinator) : Call → List (LockOp Mutex)
  | submitShare minerID blockHash shareDiff now minedAt finalizedAt =>
      (Locking.submitShare minerID blockHash shareDiff now minedAt finalizedAt).trace c
  | registerMiner minerID minerPubKey now later =>
      (Locking.registerMiner keccak256 minerID minerPubKey now later).trace c
  | checkMinerHealth now => (Locking.checkMinerHealth now).trace c
  | getStats => Locking.getStats.trace c
  | finalizeCoordination blockHash now => (Locking.finalizeCoordination blockHash now).trace c

/-- The call submits a share for a miner that is known. -/
def SubmitsKnown (c : SharedCoordinator) : Call → Prop
  | submitShare minerID _ _ _ _ _ => ∃ miner, c.activeMiners.get? minerID = some miner
  | _ => False

/-- A share of a known miner is counted once. -/
def CountsShare (c : SharedCoordinator) : Call → Prop
  | submitShare minerID blockHash shareDiff now minedAt finalizedAt =>
      ∀ miner, c.activeMiners.get? minerID = some miner →
        ∃ miner', ((Locking.submitShare minerID blockHash shareDiff now minedAt finalizedAt).state
            c).activeMiners.get? minerID = some miner' ∧
          miner'.totalShares = miner.totalShares + 1
  | _ => True

end Call

/-- The order in which the calls take their mutexes. -/
def Mutex.rank : Mutex → ℕ
  | limiterMu => 0
  | coordinationMu => 1
  | minersMu => 2

section
variable {keccak256 : List UInt8 → Hash} {c : SharedCoordinator} {call : Call}

theorem trace_submitShare_unknown {minerID : String} (h : c.activeMiners.get? minerID = none)
    (blockHash : Hash) (shareDiff now minedAt finalizedAt : ℤ) :
    (Locking.submitShare minerID blockHash shareDiff now minedAt finalizedAt).trace c =
      [.lock .minersMu, .unlock .minersMu] := by
  simp [Locking.submitShare, h]

/-- The mutex of the miners is asked for again while it is held. -/
theorem trace_submitShare_known {minerID : String} {miner : MinerStatus}
    (h : c.activeMiners.get? minerID = some miner) (blockHash : Hash)
    (shareDiff now minedAt finalizedAt : ℤ) :
    ∃ ops, (Locking.submitShare minerID blockHash shareDiff now minedAt finalizedAt).trace c =
      .lock .minersMu :: .rlock .minersMu :: ops := by
  simp [Locking.submitShare, Locking.verifyShare, h]

theorem trace_registerMiner (keccak256 : List UInt8 → Hash) (minerID : String)
    (minerPubKey : List UInt8) (now later : ℤ) (c : SharedCoordinator) :
    (Locking.registerMiner keccak256 minerID minerPubKey now later).trace c =
        [.lock .limiterMu, .unlock .limiterMu] ∨
      (Locking.registerMiner keccak256 minerID minerPubKey now later).trace c =
        [.lock .limiterMu, .lock .minersMu, .unlock .minersMu, .unlock .limiterMu] := by
  rw [Locking.registerMiner]
  simp only [Locked.trace_locking, Locked.trace_bind, Locked.trace_get, Locked.result_get]
  cases countAttempt minerID now c.toMergeMiningCoordinator with
  | none => exact .inl rfl
  | some counted =>
      simp only [Locked.trace_bind]
      cases verifyMinerPoW keccak256 minerPubKey counted with
      | error e => exact .inr rfl
      | ok verifiedPoW =>
          dsimp only
          split_ifs with hlow
          · exact .inl rfl
          · exact .inr rfl

/-- **Every other call takes its mutexes in the one order.** -/
theorem ordered_trace (h : ¬ call.SubmitsKnown c) :
    Ordered Mutex.rank [] (call.trace keccak256 c) := by
  cases call with
  | submitShare minerID blockHash shareDiff now minedAt finalizedAt =>
      have hnone : c.activeMiners.get? minerID = none :=
        Option.eq_none_iff_forall_ne_some.mpr fun miner hminer => h ⟨miner, hminer⟩
      rw [Call.trace, trace_submitShare_unknown hnone]
      simp [Ordered, LockOp.after, LockOp.asks]
  | registerMiner minerID minerPubKey now later =>
      rw [Call.trace]
      rcases trace_registerMiner keccak256 minerID minerPubKey now later c with htrace | htrace
      · rw [htrace]
        simp [Ordered, LockOp.after, LockOp.asks]
      · rw [htrace]
        simp [Ordered, LockOp.after, LockOp.asks, Mutex.rank]
  | checkMinerHealth now => simp [Call.trace, Locking.checkMinerHealth, Locking.modifyMiners,
      Ordered, LockOp.after, LockOp.asks]
  | getStats => simp [Call.trace, Locking.getStats, Ordered, LockOp.after, LockOp.asks, Mutex.rank]
  | finalizeCoordination blockHash now => simp [Call.trace, Locking.finalizeCoordination, Ordered,
      LockOp.after, LockOp.asks]

/-- A share of a known miner waits for itself. -/
theorem not_free_trace (h : call.SubmitsKnown c) : ¬ Free [] (call.trace keccak256 c) := by
  cases call with
  | submitShare minerID blockHash shareDiff now minedAt finalizedAt =>
      obtain ⟨miner, hminer⟩ := h
      obtain ⟨ops, htrace⟩ :=
        trace_submitShare_known hminer blockHash shareDiff now minedAt finalizedAt
      rw [Call.trace, htrace]
      intro hfree
      exact hfree.2.1 (List.mem_singleton.mpr rfl)
  | registerMiner minerID minerPubKey now later => exact h.elim
  | checkMinerHealth now => exact h.elim
  | getStats => exact h.elim
  | finalizeCoordination blockHash now => exact h.elim

end

/-! ## Calls that run together -/

variable {ι : Type} [DecidableEq ι]

/-- The calls, each with the state that it finds, before any of them has done anything. -/
def callers (keccak256 : List UInt8 → Hash) (calls : ι → Call × SharedCoordinator) :
    ι → Caller Mutex :=
  fun i => starting ((calls i).1.trace keccak256 (calls i).2)

/-- The call has ended whenever nothing is granted any more. -/
def Returns (keccak256 : List UInt8 → Hash) (calls : ι → Call × SharedCoordinator) (i : ι) :
    Prop :=
  ∀ callers', Together (callers keccak256 calls) callers' → Stuck callers' →
    (callers' i).rest = []

/-- No call waits for itself, no two take the mutexes of miners and blocks in different orders, and
a share of a known miner is counted once by a call that returns. -/
structure Disciplined (keccak256 : List UInt8 → Hash) (calls : ι → Call × SharedCoordinator) :
    Prop where
  free : ∀ i, Free [] ((calls i).1.trace keccak256 (calls i).2)
  sameOrder : ∀ i j, SameOrder .minersMu .coordinationMu
    ((calls i).1.trace keccak256 (calls i).2) ((calls j).1.trace keccak256 (calls j).2)
  counted : ∀ i, (calls i).1.SubmitsKnown (calls i).2 →
    Returns keccak256 calls i ∧ (calls i).1.CountsShare (calls i).2

section
variable {keccak256 : List UInt8 → Hash} {calls : ι → Call × SharedCoordinator}

/-- **A share of a known miner never returns**, whatever runs beside it. -/
theorem submitShare_never_returns {callers' : ι → Caller Mutex} {i : ι}
    (h : (calls i).1.SubmitsKnown (calls i).2)
    (hrun : Together (callers keccak256 calls) callers') : (callers' i).rest ≠ [] :=
  not_finished hrun (not_free_trace h)

/-- **Without a share of a known miner every call returns**, and there is a run to the end. -/
theorem all_return [Fintype ι] (h : ∀ i, ¬ (calls i).1.SubmitsKnown (calls i).2) :
    (∀ i, Returns keccak256 calls i) ∧
      ∃ callers', Together (callers keccak256 calls) callers' ∧ ∀ i, (callers' i).rest = [] := by
  have hreturns : ∀ i, Returns keccak256 calls i := fun i _ hrun hstuck =>
    finished_of_stuck (fun j => ordered_trace (h j)) hrun hstuck i
  obtain ⟨callers', hrun, hstuck⟩ := exists_stuck (callers keccak256 calls)
  exact ⟨hreturns, callers', hrun, fun i => hreturns i callers' hrun hstuck⟩

end

/-- **The discipline is kept exactly when no call submits a share for a known miner.** -/
theorem disciplined_iff (keccak256 : List UInt8 → Hash) (calls : ι → Call × SharedCoordinator) :
    Disciplined keccak256 calls ↔ ∀ i, ¬ (calls i).1.SubmitsKnown (calls i).2 := by
  constructor
  · exact fun h i hknown => not_free_trace hknown (h.free i)
  · intro h
    refine ⟨fun i => (ordered_trace (h i)).free, fun i j => ?_, fun i hknown => absurd hknown (h i)⟩
    exact (ordered_trace (h i)).sameOrder (ordered_trace (h j)) _ _

/-- A coordinator with one miner. -/
def oneMiner : SharedCoordinator where
  activeMiners := (∅ : FinMap String MinerStatus).insert "miner"
    { minerID := "miner", lastShareTime := 0, totalShares := 0, verifiedPoW := 1000
      registeredAt := 0, lastPoWCheck := 0, registrationFailures := 0, active := true }
  powThreshold := minPoWDifficulty
  registrationLimiter := ∅
  pendingBlocks := ∅
  enabled := true

/-- A share beside a request for the statistics. -/
def shareAndStats : Bool → Call × SharedCoordinator
  | true => (.submitShare "miner" zeroHash 10 1 2 3, oneMiner)
  | false => (.getStats, oneMiner)

/-- The share waits for itself and never returns, and it would ask for the blocks under the
miners, the statistics for the miners under the blocks. -/
theorem not_disciplined_shareAndStats :
    ¬ Disciplined keepHash shareAndStats ∧
      (∀ callers', Together (callers keepHash shareAndStats) callers' →
        (callers' true).rest ≠ []) ∧
      ¬ SameOrder .minersMu .coordinationMu
        ((shareAndStats true).1.trace keepHash (shareAndStats true).2)
        ((shareAndStats false).1.trace keepHash (shareAndStats false).2) := by
  have hknown : (shareAndStats true).1.SubmitsKnown (shareAndStats true).2 :=
    ⟨_, FinMap.get?_insert_self _ _ _⟩
  exact ⟨fun h => not_free_trace hknown (h.free true),
    fun _ hrun => submitShare_never_returns hknown hrun, by decide⟩

end BhtBhte.Coordinator
