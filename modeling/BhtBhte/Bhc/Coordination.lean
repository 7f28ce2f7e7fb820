import BhtBhte.Bhc.Fetching
import BhtBhte.Bhc.Matching
import BhtBhte.Bhc.Mutexes

/-!
# Coordinating blocks

The life of a header in `bhc/coordinator/coordinator.go`: it is sent to a channel, queued with the
block of the other chain that matches it, and dropped by its timer, by a cleanup or after a share. A
goroutine that waits is a timer with the hash it waits for and the time when it is due.  Starting
and stopping are left out, and a share is looked at in the states that are reached.  No coordination
is ever complete, and none is given up after three attempts (`outcome_run`).
-/
namespace BhtBhte.Coordinator

open BhtBhte.Lib
open BhtBhte.AuxPow (AuxPoWData AuxRpc getAuxBlockForBHTTBlock)
open BhtBhte.Channel (Hash)

def maxMergeMiningDelay : ℤ := 30000000000

/-- The capacity of the channel of headers. -/
def headerChanSize : ℕ := 100

/-- The members of a header that are read. -/
structure Header where
  hash : Hash
  difficulty : ℤ
  deriving DecidableEq

/-- A block that waits, with what it was matched with. -/
structure QueuedBlock extends CoordinatedBlock where
  bhcAuxData : Option AuxPoWData
  bhcBlockHash : Hash
  createdAt : ℤ

/-- The coordinator with its channel and its timers. -/
structure Coordination extends MergeMiningCoordinator where
  bhteHeaderChan : List Header
  pendingBlocks : FinMap Hash QueuedBlock
  timers : List (Hash × ℤ)
  enabled : Bool

def newCoordination : Coordination where
  toMergeMiningCoordinator := newMergeMiningCoordinator
  bhteHeaderChan := []
  pendingBlocks := ∅
  timers := []
  enabled := true

/-- What a coordination ends with. -/
inductive Outcome where
  | missing
  | maxAttempts
  | complete
  | dropped
  deriving DecidableEq

/-- A channel that is full stays full until the time is over. -/
def submitBHTEHeader (header : Header) (c : Coordination) : Except String Unit × Coordination :=
  if !c.enabled then (.error "merge mining is disabled", c)
  else if c.bhteHeaderChan.length < headerChanSize then
    (.ok (), { c with bhteHeaderChan := c.bhteHeaderChan ++ [header] })
  else (.error "timeout submitting BHTX header", c)

/-- The block that `processBHTEHeader` queues. -/
def coordinatedBlock (rpc : AuxRpc) (header : Header) (now : ℤ) : QueuedBlock :=
  let coordinated : QueuedBlock :=
    { bhteDifficulty := header.difficulty, minedAt := none, submitAttempts := 0,
      bhcAuxData := none, bhcBlockHash := AuxPow.zeroHash, createdAt := now }
  match findMatchingBHCBlock rpc.toRpc header.difficulty with
  | .error _ => coordinated
  | .ok bhcBlockHash =>
    { coordinated with
        bhcBlockHash, bhcAuxData := (getAuxBlockForBHTTBlock rpc bhcBlockHash).toOption }

/-- The clock is read twice: `started` is when the timer is set. -/
def processBHTEHeader (rpc : AuxRpc) (header : Header) (now started : ℤ) (c : Coordination) :
    Coordination :=
  match c.pendingBlocks.get? header.hash with
  | some _ => c
  | none =>
    { c with
        pendingBlocks := c.pendingBlocks.insert header.hash (coordinatedBlock rpc header now)
        timers := (header.hash, started + maxMergeMiningDelay) :: c.timers }

/-- One round of `coordinateBlocks`. -/
def coordinateBlock (rpc : AuxRpc) (now started : ℤ) (c : Coordination) : Coordination :=
  match c.bhteHeaderChan with
  | [] => c
  | header :: rest => processBHTEHeader rpc header now started { c with bhteHeaderChan := rest }

/-- Count an attempt for a queued block and take it off the queue, whatever comes of it. -/
def finalizeCoordination (blockHash : Hash) (now : ℤ) (c : Coordination) : Outcome × Coordination :=
  match c.pendingBlocks.get? blockHash with
  | none => (.missing, c)
  | some coordinated =>
    let coordinated : QueuedBlock :=
      { coordinated with minedAt := some (coordinated.minedAt.getD now)
                         submitAttempts := coordinated.submitAttempts + 1 }
    let written := c.pendingBlocks.insert blockHash coordinated
    if coordinated.submitAttempts ≥ 3 then
      (.maxAttempts, { c with pendingBlocks := written.erase blockHash })
    else if coordinated.bhcAuxData.isSome then
      (.complete, { c with pendingBlocks := written.erase blockHash })
    else (.dropped, { c with pendingBlocks := written.erase blockHash })

/-- The goroutine of `scheduleCoordination` wakes up. -/
def fireTimer (blockHash : Hash) (due now : ℤ) (c : Coordination) : Outcome × Coordination :=
  if (blockHash, due) ∈ c.timers ∧ due ≤ now then
    finalizeCoordination blockHash now { c with timers := c.timers.erase (blockHash, due) }
  else (.missing, c)

/-- Drop the queued blocks that are older than the threshold. -/
def removeStalePendingBlocks (now : ℤ) (c : Coordination) : Coordination :=
  { c with pendingBlocks :=
      c.pendingBlocks.filter fun _ block => !(now - block.createdAt > maxMergeMiningDelay * 2) }

/-- The part that the mutexes guard. -/
def Coordination.shared (c : Coordination) : SharedCoordinator where
  toMergeMiningCoordinator := c.toMergeMiningCoordinator
  pendingBlocks := c.pendingBlocks.mapValues (·.toCoordinatedBlock)
  enabled := c.enabled

/-! ## Runs -/

/-- What a goroutine of the coordinator does next. -/
inductive Step where
  | submitBHTEHeader (header : Header)
  | coordinateBlock (rpc : AuxRpc) (now started : ℤ)
  | fireTimer (blockHash : Hash) (due now : ℤ)
  | removeStalePendingBlocks (now : ℤ)
  | miners (op : Op)

/-- One step. -/
def step (keccak256 : List UInt8 → Hash) : Step → Coordination → Coordination
  | .submitBHTEHeader header, c => (Coordinator.submitBHTEHeader header c).2
  | .coordinateBlock rpc now started, c => Coordinator.coordinateBlock rpc now started c
  | .fireTimer blockHash due now, c => (Coordinator.fireTimer blockHash due now c).2
  | .removeStalePendingBlocks now, c => Coordinator.removeStalePendingBlocks now c
  | .miners op, c =>
      { c with toMergeMiningCoordinator := exec keccak256 op c.toMergeMiningCoordinator }

/-- A header has a difficulty of at most 256 bits, and the clock does not go back while it is
processed. -/
def Step.Fine : Step → Prop
  | .submitBHTEHeader header => header.difficulty.natAbs < 2 ^ 256
  | .coordinateBlock _ now started => now ≤ started
  | _ => True

/-- What holds of a block that is queued: nothing was found for it, nobody tried to submit it, and
its timer is set. -/
structure Waits (timers : List (Hash × ℤ)) (blockHash : Hash) (block : QueuedBlock) : Prop where
  unmatched : block.bhcAuxData = none ∧ block.bhcBlockHash = AuxPow.zeroHash
  untried : block.submitAttempts = 0 ∧ block.minedAt = none
  timer : ∃ due, (blockHash, due) ∈ timers ∧ block.createdAt + maxMergeMiningDelay ≤ due

/-- What holds between two steps. -/
structure Coordination.Idle (c : Coordination) : Prop where
  headers : ∀ header ∈ c.bhteHeaderChan, header.difficulty.natAbs < 2 ^ 256
  waits : ∀ blockHash block, c.pendingBlocks.get? blockHash = some block →
    Waits c.timers blockHash block
  noMiners : c.activeMiners = ∅

variable {keccak256 : List UInt8 → Hash} {c : Coordination} {blockHash : Hash} {header : Header}
  {rpc : AuxRpc} {now started due : ℤ} {block : QueuedBlock}

/-! ## One step -/

/-- Nothing matches a difficulty of at most 256 bits. -/
theorem coordinatedBlock_eq (h : header.difficulty.natAbs < 2 ^ 256) :
    coordinatedBlock rpc header now =
      { bhteDifficulty := header.difficulty, minedAt := none, submitAttempts := 0,
        bhcAuxData := none, bhcBlockHash := AuxPow.zeroHash, createdAt := now } := by
  have hbits : (header.difficulty / 1000).natAbs < 2 ^ 256 := by omega
  rw [coordinatedBlock]
  cases hfind : findMatchingBHCBlock rpc.toRpc header.difficulty with
  | error e => rfl
  | ok bhcBlockHash =>
      exact absurd hfind (findMatchingBHCBlock_ne_ok
        (fun blockHash => isValidAuxProof_eq_false blockHash hbits) rpc.toRpc bhcBlockHash)

theorem Coordination.Idle.submitBHTEHeader (h : c.Idle) (hheader : header.difficulty.natAbs < 2 ^ 256) :
    (submitBHTEHeader header c).2.Idle := by
  rw [Coordinator.submitBHTEHeader]
  split_ifs
  · exact h
  · refine ⟨fun header' hmem => ?_, h.waits, h.noMiners⟩
    rcases List.mem_append.mp hmem with hmem | hmem
    · exact h.headers header' hmem
    · rwa [List.mem_singleton.mp hmem]
  · exact h

theorem Coordination.Idle.processBHTEHeader (h : c.Idle)
    (hheader : header.difficulty.natAbs < 2 ^ 256) (hclock : now ≤ started) :
    (processBHTEHeader rpc header now started c).Idle := by
  rw [Coordinator.processBHTEHeader]
  cases hpending : c.pendingBlocks.get? header.hash with
  | some _ => exact h
  | none =>
      refine ⟨h.headers, fun blockHash block hblock => ?_, h.noMiners⟩
      dsimp only at hblock
      rw [FinMap.get?_insert] at hblock
      split_ifs at hblock with hhash
      · rw [Option.some_inj, coordinatedBlock_eq hheader] at hblock
        subst hblock hhash
        exact ⟨⟨rfl, rfl⟩, ⟨rfl, rfl⟩, _, List.mem_cons_self, by dsimp only; omega⟩
      · obtain ⟨hunmatched, huntried, due, hmem, hdue⟩ := h.waits blockHash block hblock
        exact ⟨hunmatched, huntried, due, List.mem_cons_of_mem _ hmem, hdue⟩

theorem Coordination.Idle.coordinateBlock (h : c.Idle) (hclock : now ≤ started) :
    (coordinateBlock rpc now started c).Idle := by
  rw [Coordinator.coordinateBlock]
  cases hchan : c.bhteHeaderChan with
  | nil => exact h
  | cons header rest =>
      have hheaders := h.headers
      rw [hchan] at hheaders
      have hrest : ({ c with bhteHeaderChan := rest } : Coordination).Idle :=
        ⟨fun header' hmem => hheaders header' (List.mem_cons_of_mem _ hmem), h.waits, h.noMiners⟩
      exact hrest.processBHTEHeader (hheaders header List.mem_cons_self) hclock

theorem erase_insert_self {V : Type} (m : FinMap Hash V) (blockHash : Hash) (v : V) :
    (m.insert blockHash v).erase blockHash = m.erase blockHash := by
  ext1 k
  by_cases hk : k = blockHash
  · rw [hk, FinMap.get?_erase_self, FinMap.get?_erase_self]
  · rw [FinMap.get?_erase_of_ne _ hk, FinMap.get?_erase_of_ne _ hk, FinMap.get?_insert_of_ne _ _ hk]

theorem erase_of_get?_eq_none {V : Type} {m : FinMap Hash V} (h : m.get? blockHash = none) :
    m.erase blockHash = m := by
  ext1 k
  by_cases hk : k = blockHash
  · rw [hk, FinMap.get?_erase_self, h]
  · exact FinMap.get?_erase_of_ne _ hk

/-- **Whatever it ends with, the block is gone.** -/
theorem finalizeCoordination_state (blockHash : Hash) (now : ℤ) (c : Coordination) :
    (finalizeCoordination blockHash now c).2 =
      { c with pendingBlocks := c.pendingBlocks.erase blockHash } := by
  rw [finalizeCoordination]
  cases hget : c.pendingBlocks.get? blockHash with
  | none => rw [erase_of_get?_eq_none hget]
  | some coordinated =>
      dsimp only
      rw [erase_insert_self]
      split_ifs <;> rfl

/-- A block that waits is dropped. -/
theorem outcome_of_waits {timers : List (Hash × ℤ)}
    (h : ∀ block, c.pendingBlocks.get? blockHash = some block → Waits timers blockHash block)
    (now : ℤ) : (finalizeCoordination blockHash now c).1 = .missing ∨
      (finalizeCoordination blockHash now c).1 = .dropped := by
  rw [finalizeCoordination]
  cases hget : c.pendingBlocks.get? blockHash with
  | none => exact .inl rfl
  | some block =>
      have hwaits := h block hget
      have hfew : ¬ block.submitAttempts + 1 ≥ 3 := by
        rw [hwaits.untried.1]
        decide
      simp [hfew, hwaits.unmatched.1]

theorem Coordination.Idle.fireTimer (h : c.Idle) (blockHash : Hash) (due now : ℤ) :
    (fireTimer blockHash due now c).2.Idle := by
  rw [Coordinator.fireTimer]
  split_ifs
  · rw [finalizeCoordination_state]
    refine ⟨h.headers, fun hash block hblock => ?_, h.noMiners⟩
    dsimp only at hblock ⊢
    by_cases hhash : hash = blockHash
    · rw [hhash, FinMap.get?_erase_self] at hblock
      cases hblock
    · rw [FinMap.get?_erase_of_ne _ hhash] at hblock
      obtain ⟨hunmatched, huntried, due', hmem, hdue⟩ := h.waits hash block hblock
      have hother : (hash, due') ≠ (blockHash, due) := fun heq => hhash (congrArg Prod.fst heq)
      exact ⟨hunmatched, huntried, due', (List.mem_erase_of_ne hother).mpr hmem, hdue⟩
  · exact h

theorem Coordination.Idle.removeStalePendingBlocks (h : c.Idle) (now : ℤ) :
    (removeStalePendingBlocks now c).Idle := by
  refine ⟨h.headers, fun hash block hblock => h.waits hash block ?_, h.noMiners⟩
  rw [Coordinator.removeStalePendingBlocks, FinMap.get?_filter, Option.filter_eq_some_iff] at hblock
  exact hblock.1

theorem Coordination.Idle.step (h : c.Idle) (keccak256 : List UInt8 → Hash) (s : Step)
    (hs : s.Fine) : (step keccak256 s c).Idle := by
  cases s with
  | submitBHTEHeader header => exact h.submitBHTEHeader hs
  | coordinateBlock rpc now started => exact h.coordinateBlock hs
  | fireTimer blockHash due now => exact h.fireTimer blockHash due now
  | removeStalePendingBlocks now => exact h.removeStalePendingBlocks now
  | miners op => exact ⟨h.headers, h.waits, activeMiners_exec op h.noMiners⟩

/-! ## The part that the mutexes guard -/

theorem mapValues_erase (m : FinMap Hash QueuedBlock) (blockHash : Hash) :
    (m.erase blockHash).mapValues (·.toCoordinatedBlock) =
      (m.mapValues (·.toCoordinatedBlock)).erase blockHash := by
  ext1 k
  by_cases hk : k = blockHash
  · rw [hk, FinMap.get?_mapValues, FinMap.get?_erase_self, FinMap.get?_erase_self, Option.map_none]
  · rw [FinMap.get?_mapValues, FinMap.get?_erase_of_ne _ hk, FinMap.get?_erase_of_ne _ hk,
      FinMap.get?_mapValues]

theorem finalizeBlock_eq (blockHash : Hash) (now : ℤ) (s : SharedCoordinator) :
    Locking.finalizeBlock blockHash now s =
      { s with pendingBlocks := s.pendingBlocks.erase blockHash } := by
  rw [Locking.finalizeBlock]
  cases hget : s.pendingBlocks.get? blockHash with
  | none => rw [erase_of_get?_eq_none hget]
  | some coordinated =>
      dsimp only
      rw [erase_insert_self, ite_self]

/-- **Finalizing is what it is for the mutexes.** -/
theorem shared_finalizeCoordination (blockHash : Hash) (now : ℤ) (c : Coordination) :
    (finalizeCoordination blockHash now c).2.shared =
      Locking.finalizeBlock blockHash now c.shared := by
  rw [finalizeCoordination_state, finalizeBlock_eq, Coordination.shared, mapValues_erase]
  rfl

/-- A share is refused where there are no miners. -/
theorem submitShare_refused {s : SharedCoordinator} (h : s.activeMiners = ∅) (minerID : String)
    (blockHash : Hash) (shareDiff now minedAt finalizedAt : ℤ) :
    (Locking.submitShare minerID blockHash shareDiff now minedAt finalizedAt).result s =
        .error ("unknown miner: " ++ minerID) ∧
      (Locking.submitShare minerID blockHash shareDiff now minedAt finalizedAt).state s = s := by
  simp [Locking.submitShare, h]

/-! ## Every run -/

theorem idle_new : newCoordination.Idle where
  headers _ hmem := absurd hmem List.not_mem_nil
  waits _ _ hnone := by cases hnone
  noMiners := rfl

theorem idle_run {steps : List Step} (hsteps : ∀ s ∈ steps, s.Fine) (h : c.Idle) :
    (runOps (step keccak256) steps c).Idle := by
  induction steps generalizing c with
  | nil => exact h
  | cons s steps ih =>
      exact ih (fun s' hs' => hsteps s' (List.mem_cons_of_mem s hs'))
        (h.step keccak256 s (hsteps s List.mem_cons_self))

theorem Coordination.Idle.outcome_fireTimer (h : c.Idle) (blockHash : Hash) (due now : ℤ) :
    (Coordinator.fireTimer blockHash due now c).1 = .missing ∨
      (Coordinator.fireTimer blockHash due now c).1 = .dropped := by
  rw [Coordinator.fireTimer]
  split_ifs
  · exact outcome_of_waits (c := { c with timers := c.timers.erase (blockHash, due) })
      (h.waits blockHash) now
  · exact .inl rfl

/-- The timer of a block drops it. -/
theorem Coordination.Idle.exists_timer (h : c.Idle)
    (hblock : c.pendingBlocks.get? blockHash = some block) :
    ∃ due, block.createdAt + maxMergeMiningDelay ≤ due ∧
      (Coordinator.fireTimer blockHash due due c).1 = .dropped ∧
      (Coordinator.fireTimer blockHash due due c).2.pendingBlocks.get? blockHash = none := by
  obtain ⟨due, hmem, hdue⟩ := (h.waits blockHash block hblock).timer
  refine ⟨due, hdue, ?_⟩
  rw [Coordinator.fireTimer, if_pos ⟨hmem, le_rfl⟩, finalizeCoordination_state]
  refine ⟨?_, FinMap.get?_erase_self ..⟩
  rcases outcome_of_waits (c := { c with timers := c.timers.erase (blockHash, due) })
    (h.waits blockHash) due with hmissing | hdropped
  · rw [finalizeCoordination, hblock] at hmissing
    dsimp only at hmissing
    split_ifs at hmissing
  · exact hdropped

/-- **Merge mining completes for no block.**  Whatever headers of at most 256 bits of difficulty are
sent, whatever the nodes answer and in whatever order the goroutines run: a timer that wakes up drops
its block or finds none, each block that waits has a timer that drops it, half a minute after it was
queued or later, and a share is refused and changes nothing. -/
theorem outcome_run (keccak256 : List UInt8 → Hash) (steps : List Step)
    (hsteps : ∀ s ∈ steps, s.Fine) (hc : c = runOps (step keccak256) steps newCoordination) :
    (∀ blockHash due now, (fireTimer blockHash due now c).1 = .missing ∨
        (fireTimer blockHash due now c).1 = .dropped) ∧
      (∀ blockHash block, c.pendingBlocks.get? blockHash = some block →
        ∃ due, block.createdAt + maxMergeMiningDelay ≤ due ∧
          (fireTimer blockHash due due c).1 = .dropped ∧
          (fireTimer blockHash due due c).2.pendingBlocks.get? blockHash = none) ∧
      ∀ minerID blockHash shareDiff now minedAt finalizedAt,
        (Locking.submitShare minerID blockHash shareDiff now minedAt finalizedAt).result c.shared =
            .error ("unknown miner: " ++ minerID) ∧
          (Locking.submitShare minerID blockHash shareDiff now minedAt finalizedAt).state c.shared =
            c.shared := by
  have hidle : (runOps (step keccak256) steps newCoordination).Idle := idle_run hsteps idle_new
  rw [← hc] at hidle
  exact ⟨hidle.outcome_fireTimer, fun _ _ hblock => hidle.exists_timer hblock,
    submitShare_refused hidle.noMiners⟩

/-- A header that is sent at once and queued at time five. -/
def oneHeader : List Step :=
  [.submitBHTEHeader ⟨AuxPow.zeroHash, 1000000000⟩, .coordinateBlock AuxPow.oneBlockRpc 5 6]

theorem fine_oneHeader : ∀ s ∈ oneHeader, s.Fine := by
  simp [oneHeader, Step.Fine]

theorem pendingBlocks_oneHeader :
    (runOps (step keepHash) oneHeader newCoordination).pendingBlocks.get? AuxPow.zeroHash =
      some (coordinatedBlock AuxPow.oneBlockRpc ⟨AuxPow.zeroHash, 1000000000⟩ 5) :=
  FinMap.get?_insert_self ∅ _ _

theorem outcome_run_oneHeader : ∃ due, 5 + maxMergeMiningDelay ≤ due ∧
    (fireTimer AuxPow.zeroHash due due
        (runOps (step keepHash) oneHeader newCoordination)).1 = .dropped := by
  have hbits : (1000000000 : ℤ).natAbs < 2 ^ 256 := by decide
  obtain ⟨due, hdue, hdropped, -⟩ :=
    (outcome_run keepHash oneHeader fine_oneHeader rfl).2.1 _ _ pendingBlocks_oneHeader
  rw [coordinatedBlock_eq hbits] at hdue
  exact ⟨due, hdue, hdropped⟩

end BhtBhte.Coordinator
