import BhtBhte.Lib.Lists
import BhtBhte.Lib.Runs
import BhtBhte.Network.Htlc

/-!
# The life of a contract

`HtlcStep` says once what an operation can do to a contract, and `Lifecycle` what the events of a
contract are in each of its states.  Both are about one contract at a time: an operation does
nothing to the contracts it does not name, and the expiry looks at each of them on its own.
`lifecycle_of_run` is how a contract is settled and refunded over every run, and `refundHTLC_iff`
when one that timed out can still be refunded.
-/
namespace BhtBhte.Htlc

open BhtBhte.Lib
open BhtBhte.Channel (Hash Address ByteArrayOf)

variable {sha256 : Hash → Hash} {m m' : HTLCManager} {w : World}

/-! ## What one operation does -/

theorem lookup_eq_some {htlcID : Hash} {k : ℕ} {htlc : HTLC} :
    m.lookup htlcID = some (k, htlc) ↔ m.htlcs.get? htlcID = some k ∧ m.heap[k]? = some htlc := by
  simp only [HTLCManager.lookup, Option.bind_eq_some_iff, Option.map_eq_some_iff, Prod.mk.injEq]
  constructor
  · rintro ⟨k', hk', htlc', hhtlc', rfl, rfl⟩
    exact ⟨hk', hhtlc'⟩
  · rintro ⟨hk, hhtlc⟩
    exact ⟨k, hk, htlc, hhtlc, rfl, rfl⟩

/-- A contract before and after an operation, with the events that the operation adds. -/
inductive HtlcStep (sha256 : Hash → Hash) (k : ℕ) (h : HTLC) : List Event → HTLC → Prop
  | same : HtlcStep sha256 k h [] h
  | opened {preimage now later} (hstate : h.state = .statePending) (hnow : now ≤ h.timeout)
      (hlock : sha256 preimage = h.hashLock) :
      HtlcStep sha256 k h [.opened k preimage now]
        { h with preimage, state := .stateOpen, settledAt := later }
  | expired {now} (hstate : h.state = .statePending) (hnow : h.timeout < now) :
      HtlcStep sha256 k h [] { h with state := .stateExpired }
  | settled (hstate : h.state = .stateOpen) :
      HtlcStep sha256 k h [.settled k] { h with state := .stateSettled }
  | refunded {now} (hstate : h.state = .statePending) (hnow : h.timeout ≤ now) :
      HtlcStep sha256 k h [.refunded k now] { h with state := .stateRefunded }

theorem HTLC.expire_expire (now : ℕ) (h : HTLC) : (h.expire now).expire now = h.expire now := by
  unfold HTLC.expire
  split_ifs with h₁ h₂
  · cases h₂.1
  · rfl
  · rfl

/-- The expiry goes over the pointers of the map. -/
theorem expireHTLCs_heap (clock : Clock) (m : HTLCManager) :
    (expireHTLCs clock m).heap = (m.htlcs.entries.map Prod.snd).foldl
      (fun heap k => heap.modify k (.expire (clock 0))) m.heap := by
  rw [List.foldl_map]
  rfl

/-- The contracts of the map that are pending and late expire. -/
theorem heap_expireHTLCs (clock : Clock) (m : HTLCManager) (k : ℕ) :
    (expireHTLCs clock m).heap[k]? = (m.heap[k]?).map fun h =>
      if k ∈ m.htlcs.entries.map Prod.snd then h.expire (clock 0) else h := by
  rw [expireHTLCs_heap, getElem?_foldl_modify (HTLC.expire_expire _)]

theorem length_expireHTLCs (clock : Clock) (m : HTLCManager) :
    (expireHTLCs clock m).heap.length = m.heap.length := by
  rw [expireHTLCs_heap, length_foldl_modify]

/-- Everything an operation can do, with its guards. -/
inductive Outcome (sha256 : Hash → Hash) (w : World) : Op → World → Prop
  | same {op} : Outcome sha256 w op w
  | created {channelID sender receiver amount timeout hashLock fee random clock h m'}
      (hmin : htlcTimeoutMin ≤ timeout) (hstate : h.state = .statePending)
      (hid : h.htlcID = generateHTLCID random (clock 0))
      (htimeout : h.timeout = clock 1 + timeout.toNat)
      (hheap : m'.heap = w.manager.heap ++ [h])
      (hhtlcs : m'.htlcs = w.manager.htlcs.insert h.htlcID w.manager.heap.length) :
      Outcome sha256 w (.createHTLC channelID sender receiver amount timeout hashLock fee random
        clock) { w with manager := m' }
  | opened {htlcID preimage clock k h} (hlook : w.manager.lookup htlcID = some (k, h))
      (hstate : h.state = .statePending) (hnow : clock 0 ≤ h.timeout)
      (hlock : sha256 preimage = h.hashLock) :
      Outcome sha256 w (.openHTLC htlcID preimage clock)
        ⟨w.manager.store k { h with preimage, state := .stateOpen, settledAt := clock 1 },
          w.events ++ [.opened k preimage (clock 0)]⟩
  | lateOpen {htlcID preimage clock k h} (hlook : w.manager.lookup htlcID = some (k, h))
      (hstate : h.state = .statePending) (hnow : h.timeout < clock 0) :
      Outcome sha256 w (.openHTLC htlcID preimage clock)
        { w with manager := w.manager.store k { h with state := .stateExpired } }
  | settled {htlcID k h} (hlook : w.manager.lookup htlcID = some (k, h))
      (hstate : h.state = .stateOpen) :
      Outcome sha256 w (.settleHTLC htlcID)
        ⟨w.manager.store k { h with state := .stateSettled }, w.events ++ [.settled k]⟩
  | refunded {htlcID clock k h} (hlook : w.manager.lookup htlcID = some (k, h))
      (hstate : h.state = .statePending) (hnow : h.timeout ≤ clock 0) :
      Outcome sha256 w (.refundHTLC htlcID clock)
        ⟨w.manager.store k { h with state := .stateRefunded }, w.events ++ [.refunded k (clock 0)]⟩
  | expired {clock} :
      Outcome sha256 w (.expireHTLCs clock) { w with manager := expireHTLCs clock w.manager }

theorem outcome_exec (sha256 : Hash → Hash) (op : Op) (w : World) :
    Outcome sha256 w op (exec sha256 op w) := by
  cases op with
  | createHTLC channelID sender receiver amount timeout hashLock fee random clock =>
      simp only [exec, Op.apply, createHTLC]
      split_ifs with hmin hmax
      · exact .same
      · exact .same
      · simp only [Op.events, List.append_nil]
        exact .created (Int.not_lt.mp hmin) rfl rfl rfl rfl rfl
  | openHTLC htlcID preimage clock =>
      simp only [exec, Op.apply, openHTLC]
      cases hlook : w.manager.lookup htlcID with
      | none => exact .same
      | some e =>
          obtain ⟨k, h⟩ := e
          have hget := (lookup_eq_some.mp hlook).1
          dsimp only
          split_ifs with hstate hnow hlock
          · exact .same
          · exact .lateOpen hlook (not_not.mp hstate) hnow
          · exact .same
          · simp only [Op.events, hget, Option.toList_some, List.map_cons, List.map_nil]
            exact .opened hlook (not_not.mp hstate) (Nat.not_lt.mp hnow) (not_not.mp hlock)
  | settleHTLC htlcID =>
      simp only [exec, Op.apply, settleHTLC]
      cases hlook : w.manager.lookup htlcID with
      | none => exact .same
      | some e =>
          obtain ⟨k, h⟩ := e
          have hget := (lookup_eq_some.mp hlook).1
          dsimp only
          split_ifs with hstate
          · exact .same
          · simp only [Op.events, hget, Option.toList_some, List.map_cons, List.map_nil]
            exact .settled hlook (not_not.mp hstate)
  | refundHTLC htlcID clock =>
      simp only [exec, Op.apply, refundHTLC]
      cases hlook : w.manager.lookup htlcID with
      | none => exact .same
      | some e =>
          obtain ⟨k, h⟩ := e
          have hget := (lookup_eq_some.mp hlook).1
          dsimp only
          split_ifs with hstate hnow
          · exact .same
          · exact .same
          · simp only [Op.events, hget, Option.toList_some, List.map_cons, List.map_nil]
            exact .refunded hlook (not_not.mp hstate) (Nat.not_lt.mp hnow)
  | expireHTLCs clock =>
      simp only [exec, Op.apply, Op.events, List.append_nil]
      exact .expired

/-! ## One contract at a time -/

theorem HtlcStep.pointer {k : ℕ} {h h' : HTLC} {es : List Event}
    (hstep : HtlcStep sha256 k h es h') : ∀ e ∈ es, e.pointer = k := by
  cases hstep <;> simp [Event.pointer]

/-- A contract is written: to the others nothing happens. -/
theorem htlcStep_of_store {k k' : ℕ} {h h' hk : HTLC} {es : List Event}
    (hget : w.manager.heap[k]? = some h) (hstep : HtlcStep sha256 k h es h')
    (hget' : w.manager.heap[k']? = some hk) :
    ∃ es' hk', (w.manager.store k h').heap[k']? = some hk' ∧
      (w.events ++ es).filter (·.pointer = k') = w.history k' ++ es' ∧
      HtlcStep sha256 k' hk es' hk' := by
  have hpointer := hstep.pointer
  rw [List.filter_append]
  by_cases hkk : k = k'
  · subst hkk
    rw [hget, Option.some.injEq] at hget'
    subst hget'
    refine ⟨es, h', List.getElem?_set_self (List.getElem?_eq_some_iff.mp hget).1, ?_, hstep⟩
    rw [List.filter_eq_self.mpr fun e he => decide_eq_true (hpointer e he)]
    rfl
  · refine ⟨[], hk, (List.getElem?_set_ne hkk).trans hget', ?_, .same⟩
    have hnone : es.filter (·.pointer = k') = [] := by
      rw [List.filter_eq_nil_iff]
      intro e he
      rw [hpointer e he, decide_eq_true_eq]
      exact hkk
    rw [hnone]
    rfl

/-- What an operation does to a contract. -/
theorem htlcStep_exec (op : Op) {k : ℕ} {h : HTLC} (hk : w.manager.heap[k]? = some h) :
    ∃ es h', (exec sha256 op w).manager.heap[k]? = some h' ∧
      (exec sha256 op w).history k = w.history k ++ es ∧ HtlcStep sha256 k h es h' := by
  have houtcome := outcome_exec sha256 op w
  generalize exec sha256 op w = w' at houtcome
  cases houtcome with
  | same => exact ⟨[], h, hk, (List.append_nil _).symm, .same⟩
  | created _ _ _ _ hheap _ =>
      refine ⟨[], h, ?_, (List.append_nil _).symm, .same⟩
      rw [hheap, List.getElem?_append_left (List.getElem?_eq_some_iff.mp hk).1]
      exact hk
  | opened hlook hstate hnow hlock =>
      exact htlcStep_of_store (lookup_eq_some.mp hlook).2 (.opened hstate hnow hlock) hk
  | lateOpen hlook hstate hnow =>
      have hstep := @htlcStep_of_store sha256 w _ _ _ _ _ _ (lookup_eq_some.mp hlook).2
        (.expired hstate hnow) hk
      rwa [List.append_nil] at hstep
  | settled hlook hstate =>
      exact htlcStep_of_store (lookup_eq_some.mp hlook).2 (.settled hstate) hk
  | refunded hlook hstate hnow =>
      exact htlcStep_of_store (lookup_eq_some.mp hlook).2 (.refunded hstate hnow) hk
  | @expired clock =>
      have hheap := heap_expireHTLCs clock w.manager k
      rw [hk, Option.map_some] at hheap
      refine ⟨[], _, hheap, (List.append_nil _).symm, ?_⟩
      rw [HTLC.expire]
      split_ifs with hmem hlate
      · exact .expired hlate.1 hlate.2
      · exact .same
      · exact .same

/-! ## Lifecycle -/

/-- The events of a contract in each of its states. -/
def Lifecycle (sha256 : Hash → Hash) (k : ℕ) (h : HTLC) (history : List Event) : Prop :=
  match h.state with
  | .statePending => history = []
  | .stateExpired => history = []
  | .stateOpen => ∃ preimage now, history = [.opened k preimage now] ∧
      sha256 preimage = h.hashLock ∧ now ≤ h.timeout
  | .stateSettled => ∃ preimage now, history = [.opened k preimage now, .settled k] ∧
      sha256 preimage = h.hashLock ∧ now ≤ h.timeout
  | .stateRefunded => ∃ now, history = [.refunded k now] ∧ h.timeout ≤ now

theorem Lifecycle.step {k : ℕ} {h h' : HTLC} {history es : List Event}
    (hlife : Lifecycle sha256 k h history) (hstep : HtlcStep sha256 k h es h') :
    Lifecycle sha256 k h' (history ++ es) := by
  cases hstep with
  | same =>
      rw [List.append_nil]
      exact hlife
  | opened hstate hnow hlock =>
      simp only [Lifecycle, hstate] at hlife ⊢
      exact ⟨_, _, by rw [hlife]; rfl, hlock, hnow⟩
  | expired hstate hnow =>
      simp only [Lifecycle, hstate] at hlife ⊢
      rw [hlife]
      rfl
  | settled hstate =>
      simp only [Lifecycle, hstate] at hlife ⊢
      obtain ⟨preimage, now, hhistory, hlock, hnow⟩ := hlife
      exact ⟨preimage, now, by rw [hhistory]; rfl, hlock, hnow⟩
  | refunded hstate hnow =>
      simp only [Lifecycle, hstate] at hlife ⊢
      exact ⟨_, by rw [hlife]; rfl, hnow⟩

structure LifecycleInv (sha256 : Hash → Hash) (w : World) : Prop where
  alive : ∀ (k : ℕ) h, w.manager.heap[k]? = some h → Lifecycle sha256 k h (w.history k)
  later : ∀ e ∈ w.events, e.pointer < w.manager.heap.length

/-- The heap keeps its length, or a pending contract goes on top of it. -/
theorem Outcome.heap {op : Op} {w' : World} (h : Outcome sha256 w op w') :
    w'.manager.heap.length = w.manager.heap.length ∨
      ∃ h', w'.manager.heap = w.manager.heap ++ [h'] ∧ h'.state = .statePending := by
  cases h with
  | same => exact .inl rfl
  | created _ hstate _ _ hheap _ => exact .inr ⟨_, hheap, hstate⟩
  | opened => exact .inl List.length_set
  | lateOpen => exact .inl List.length_set
  | settled => exact .inl List.length_set
  | refunded => exact .inl List.length_set
  | expired => exact .inl (length_expireHTLCs ..)

/-- An event is about a contract that is there. -/
theorem Outcome.events {op : Op} {w' : World} (h : Outcome sha256 w op w') :
    w'.events = w.events ∨
      ∃ e, w'.events = w.events ++ [e] ∧ e.pointer < w.manager.heap.length := by
  have hlt : ∀ {id k h}, w.manager.lookup id = some (k, h) → k < w.manager.heap.length :=
    fun hlook => (List.getElem?_eq_some_iff.mp (lookup_eq_some.mp hlook).2).1
  cases h with
  | same => exact .inl rfl
  | created => exact .inl rfl
  | opened hlook => exact .inr ⟨_, rfl, hlt hlook⟩
  | lateOpen => exact .inl rfl
  | settled hlook => exact .inr ⟨_, rfl, hlt hlook⟩
  | refunded hlook => exact .inr ⟨_, rfl, hlt hlook⟩
  | expired => exact .inl rfl

namespace LifecycleInv

theorem new : LifecycleInv sha256 newWorld where
  alive := by
    intro k h hk
    cases hk
  later := by
    intro e he
    cases he

theorem exec (hw : LifecycleInv sha256 w) (op : Op) : LifecycleInv sha256 (exec sha256 op w) := by
  have houtcome := outcome_exec sha256 op w
  have hevents : ∀ e ∈ (Htlc.exec sha256 op w).events, e.pointer < w.manager.heap.length := by
    intro e he
    rcases houtcome.events with heq | ⟨e', heq, hlt⟩
    · exact hw.later e (heq ▸ he)
    · rw [heq] at he
      rcases List.mem_append.mp he with he | he
      · exact hw.later e he
      · rw [List.mem_singleton.mp he]
        exact hlt
  constructor
  · intro k h' hk
    by_cases hlt : k < w.manager.heap.length
    · have hget := List.getElem?_eq_getElem hlt
      obtain ⟨es, h'', hk'', hhistory, hchange⟩ := @htlcStep_exec sha256 w op _ _ hget
      rw [hk, Option.some.injEq] at hk''
      rw [hhistory, hk'']
      exact (hw.alive k _ hget).step hchange
    · -- beyond the old heap there is at most the new contract
      have hnil : (Htlc.exec sha256 op w).history k = [] := by
        rw [World.history, List.filter_eq_nil_iff]
        intro e he hek
        rw [decide_eq_true_eq] at hek
        exact hlt (hek ▸ hevents e he)
      have hk' := (List.getElem?_eq_some_iff.mp hk).1
      rcases houtcome.heap with hlength | ⟨new, hheap, hstate⟩
      · omega
      · rw [hheap, List.length_append, List.length_singleton] at hk'
        obtain rfl : k = w.manager.heap.length := by omega
        rw [hheap, List.getElem?_concat_length, Option.some.injEq] at hk
        rw [← hk]
        simp only [Lifecycle, hstate]
        exact hnil
  · intro e he
    have hlt := hevents e he
    rcases houtcome.heap with hlength | ⟨new, hheap, -⟩
    · omega
    · rw [hheap, List.length_append]
      omega

theorem of_run (sha256 : Hash → Hash) (ops : List Op) :
    LifecycleInv sha256 (run sha256 ops newWorld) :=
  run_invariant (fun op _ hw => hw.exec op) ops new

end LifecycleInv

/-- Nothing leads out of these states. -/
def HTLCState.Terminal (s : HTLCState) : Prop :=
  s = .stateSettled ∨ s = .stateRefunded ∨ s = .stateExpired

/-- The terms of a contract never change, and neither does a terminal state. -/
structure HTLC.Kept (h h' : HTLC) : Prop where
  hashLock : h'.hashLock = h.hashLock
  timeout : h'.timeout = h.timeout
  state : h.state.Terminal → h'.state = h.state

theorem HtlcStep.kept {k : ℕ} {h h' : HTLC} {es : List Event}
    (hstep : HtlcStep sha256 k h es h') : h.Kept h' := by
  have hleft : ∀ {s : HTLCState}, h.state = s → ¬ s.Terminal →
      ∀ s', h.state.Terminal → s' = h.state :=
    fun heq hnot _ hterminal => absurd (heq ▸ hterminal) hnot
  cases hstep with
  | same => exact ⟨rfl, rfl, fun _ => rfl⟩
  | opened hstate => exact ⟨rfl, rfl, hleft hstate (by simp [HTLCState.Terminal]) _⟩
  | expired hstate => exact ⟨rfl, rfl, hleft hstate (by simp [HTLCState.Terminal]) _⟩
  | settled hstate => exact ⟨rfl, rfl, hleft hstate (by simp [HTLCState.Terminal]) _⟩
  | refunded hstate => exact ⟨rfl, rfl, hleft hstate (by simp [HTLCState.Terminal]) _⟩

theorem HTLC.Kept.trans {h h₁ h₂ : HTLC} (hfirst : h.Kept h₁) (hlast : h₁.Kept h₂) :
    h.Kept h₂ where
  hashLock := hlast.hashLock.trans hfirst.hashLock
  timeout := hlast.timeout.trans hfirst.timeout
  state hterminal := by
    have hstate := hfirst.state hterminal
    exact (hlast.state (hstate ▸ hterminal)).trans hstate

theorem kept_run (sha256 : Hash → Hash) (ops : List Op) {k : ℕ} {h : HTLC}
    (hk : w.manager.heap[k]? = some h) :
    ∃ h', (run sha256 ops w).manager.heap[k]? = some h' ∧ h.Kept h' := by
  have hstep : ∀ op v, (∃ h', v.manager.heap[k]? = some h' ∧ h.Kept h') →
      ∃ h', (exec sha256 op v).manager.heap[k]? = some h' ∧ h.Kept h' := by
    rintro op v ⟨h₁, hk₁, hkept⟩
    obtain ⟨es, h₂, hk₂, -, hstep⟩ := @htlcStep_exec sha256 v op k h₁ hk₁
    exact ⟨h₂, hk₂, hkept.trans hstep.kept⟩
  exact @run_invariant _ _ (exec sha256)
    (fun v => ∃ h', v.manager.heap[k]? = some h' ∧ h.Kept h') hstep ops w
    ⟨h, hk, rfl, rfl, fun _ => rfl⟩

/-- **How a contract ends, over every run**: it is never both settled and refunded; a
settled one was opened, at or before its timeout, with a preimage of its hash lock; a
refunded one was refunded at or after its timeout and never opened; and whatever follows,
its terms stay and so does a state that is settled, refunded or expired. -/
theorem lifecycle_of_run (sha256 : Hash → Hash) (ops : List Op) {k : ℕ} {h : HTLC}
    (hk : (run sha256 ops newWorld).manager.heap[k]? = some h) :
    ¬ (.settled k ∈ (run sha256 ops newWorld).events ∧
      ∃ now, .refunded k now ∈ (run sha256 ops newWorld).events) ∧
    (.settled k ∈ (run sha256 ops newWorld).events ↔ h.state = .stateSettled) ∧
    ((∃ now, .refunded k now ∈ (run sha256 ops newWorld).events) ↔ h.state = .stateRefunded) ∧
    (h.state = .stateSettled → ∃ preimage now,
      (run sha256 ops newWorld).history k = [.opened k preimage now, .settled k] ∧
      sha256 preimage = h.hashLock ∧ now ≤ h.timeout) ∧
    (h.state = .stateRefunded → ∃ now,
      (run sha256 ops newWorld).history k = [.refunded k now] ∧ h.timeout ≤ now) ∧
    ∀ more, ∃ h', (run sha256 more (run sha256 ops newWorld)).manager.heap[k]? = some h' ∧
      h.Kept h' := by
  have hlife := (LifecycleInv.of_run sha256 ops).alive k h hk
  have hmem : ∀ e : Event, e.pointer = k →
      (e ∈ (run sha256 ops newWorld).events ↔ e ∈ (run sha256 ops newWorld).history k) := by
    intro e he
    simp [World.history, he]
  have hsettled : .settled k ∈ (run sha256 ops newWorld).events ↔ h.state = .stateSettled := by
    rw [hmem _ rfl]
    unfold Lifecycle at hlife
    split at hlife
    all_goals grind
  have hrefunded : (∃ now, .refunded k now ∈ (run sha256 ops newWorld).events) ↔
      h.state = .stateRefunded := by
    have hiff : ∀ now, .refunded k now ∈ (run sha256 ops newWorld).events ↔
        .refunded k now ∈ (run sha256 ops newWorld).history k := fun now => hmem _ rfl
    simp only [hiff]
    unfold Lifecycle at hlife
    split at hlife
    all_goals grind
  refine ⟨?_, hsettled, hrefunded, ?_, ?_, fun more => kept_run sha256 more hk⟩
  · rintro ⟨hset, href⟩
    have hstate := hsettled.mp hset
    rw [hrefunded.mp href] at hstate
    cases hstate
  · intro hstate
    simpa only [Lifecycle, hstate] using hlife
  · intro hstate
    simpa only [Lifecycle, hstate] using hlife

/-- A party to the contract below. -/
def someParty : Address := ⟨List.replicate 20 5, by simp⟩

def lockRandom : ByteArrayOf 24 := ⟨List.replicate 24 9, by simp⟩

/-- A contract with the shortest timeout, made at time `0`. -/
def lock : Op :=
  .createHTLC zeroPreimage someParty someParty 5 htlcTimeoutMin zeroPreimage 0 lockRandom fun _ => 0

def lockID : Hash := generateHTLCID lockRandom 0

def lockedHtlc : HTLC where
  htlcID := lockID
  channelID := zeroPreimage
  sender := someParty
  receiver := someParty
  amount := 5
  hashLock := zeroPreimage
  timeout := 3600000000000
  createdAt := 0
  fee := 0

theorem lookup_lock (sha256 : Hash → Hash) :
    (run sha256 [lock] newWorld).manager.lookup lockID = some (0, lockedHtlc) ∧
      (run sha256 [lock] newWorld).events = [] := by
  have hmin : ¬ htlcTimeoutMin < htlcTimeoutMin := by decide
  have hmax : ¬ htlcTimeoutMin > htlcTimeoutMax := by decide
  have htimeout : 0 + htlcTimeoutMin.toNat = 3600000000000 := by decide
  simp only [run, lock, List.foldl_cons, List.foldl_nil, exec, Op.apply, createHTLC, hmin, hmax,
    if_false, Op.events, newWorld, newHTLCManager, htimeout, lookup_eq_some]
  exact ⟨⟨FinMap.get?_insert_self .., rfl⟩, rfl⟩

/-- The contract is opened with its preimage and settled. -/
def settledRun : List Op := [lock, .openHTLC lockID zeroPreimage fun _ => 1, .settleHTLC lockID]

theorem lifecycle_settledRun : ∃ h, (run id settledRun newWorld).manager.heap[0]? = some h ∧
    ∃ preimage now, (run id settledRun newWorld).history 0 =
      [.opened 0 preimage now, .settled 0] ∧ id preimage = h.hashLock ∧ now ≤ h.timeout := by
  obtain ⟨hget, hk⟩ := lookup_eq_some.mp (lookup_lock id).1
  have hlt := (List.getElem?_eq_some_iff.mp hk).1
  let opened := { lockedHtlc with state := .stateOpen, settledAt := 1 }
  have hopen : (exec id (.openHTLC lockID zeroPreimage fun _ => 1)
      (run id [lock] newWorld)).manager = (run id [lock] newWorld).manager.store 0 opened := by
    have hstate : lockedHtlc.state = .statePending := rfl
    have hnow : ¬ 1 > lockedHtlc.timeout := by decide
    have hlock : lockedHtlc.hashLock = zeroPreimage := rfl
    simp only [exec, Op.apply, openHTLC, (lookup_lock id).1, hstate, hnow, hlock, id_eq, ne_eq,
      not_true_eq_false, if_false]
    rfl
  have hlook : ((run id [lock] newWorld).manager.store 0 opened).lookup lockID = some (0, opened) :=
    lookup_eq_some.mpr ⟨hget, List.getElem?_set_self hlt⟩
  have hsettled : (run id settledRun newWorld).manager.heap[0]? =
      some { opened with state := .stateSettled } := by
    have hrun : run id settledRun newWorld = exec id (.settleHTLC lockID)
        (exec id (.openHTLC lockID zeroPreimage fun _ => 1) (run id [lock] newWorld)) := rfl
    have hstate : opened.state = .stateOpen := rfl
    rw [hrun]
    generalize exec id (.openHTLC lockID zeroPreimage fun _ => 1) (run id [lock] newWorld) = v
      at hopen
    simp only [exec, Op.apply, settleHTLC, hopen, hlook, hstate, ne_eq, not_true_eq_false, if_false]
    refine List.getElem?_set_self ?_
    rw [HTLCManager.store, List.length_set]
    exact hlt
  exact ⟨_, hsettled, (lifecycle_of_run id settledRun hsettled).2.2.2.1 rfl⟩

/-! ## Refunds -/

/-- The calls that expire a contract when they come after its timeout. -/
def Op.late (htlcID : Hash) (timeout : ℕ) : Op → Prop
  | .openHTLC id _ clock => id = htlcID ∧ timeout < clock 0
  | .expireHTLCs clock => timeout < clock 0
  | _ => False

/-- A call of the run came late for a contract that was there already. -/
def CameLate (sha256 : Hash → Hash) (ops : List Op) (htlcID : Hash) (k timeout : ℕ) : Prop :=
  ∃ pre op post, ops = pre ++ op :: post ∧
    k < (run sha256 pre newWorld).manager.heap.length ∧ op.late htlcID timeout

/-- Identifiers lead to the contracts that have them. -/
def Mapped (m : HTLCManager) : Prop :=
  ∀ id k, m.htlcs.get? id = some k → ∃ h, m.heap[k]? = some h ∧ h.htlcID = id

/-- No two identifiers lead to one contract. -/
theorem Mapped.injective (hm : Mapped m) {id id' : Hash} {k : ℕ}
    (h : m.htlcs.get? id = some k) (h' : m.htlcs.get? id' = some k) : id = id' := by
  obtain ⟨a, ha, hid⟩ := hm id k h
  obtain ⟨a', ha', hid'⟩ := hm id' k h'
  rw [ha, Option.some.injEq] at ha'
  rw [← hid, ← hid', ha']

theorem HtlcStep.htlcID {k : ℕ} {h h' : HTLC} {es : List Event}
    (hstep : HtlcStep sha256 k h es h') : h'.htlcID = h.htlcID := by
  cases hstep <;> rfl

/-- The map changes only where a new contract is entered. -/
theorem Outcome.htlcs {op : Op} {w' : World} (h : Outcome sha256 w op w') :
    w'.manager.htlcs = w.manager.htlcs ∨ ∃ h', w'.manager.heap = w.manager.heap ++ [h'] ∧
      w'.manager.htlcs = w.manager.htlcs.insert h'.htlcID w.manager.heap.length := by
  cases h with
  | created _ _ _ _ hheap hhtlcs => exact .inr ⟨_, hheap, hhtlcs⟩
  | _ => exact .inl rfl

theorem Mapped.exec (hw : Mapped w.manager) (op : Op) : Mapped (exec sha256 op w).manager := by
  have hold : ∀ id k, w.manager.htlcs.get? id = some k →
      ∃ h, (Htlc.exec sha256 op w).manager.heap[k]? = some h ∧ h.htlcID = id := by
    intro id k hget
    obtain ⟨h, hk, hid⟩ := hw id k hget
    obtain ⟨es, h', hk', -, hstep⟩ := @htlcStep_exec sha256 w op k h hk
    exact ⟨h', hk', hstep.htlcID.trans hid⟩
  intro id k hget
  rcases (outcome_exec sha256 op w).htlcs with heq | ⟨new, hheap, heq⟩
  · exact hold id k (heq ▸ hget)
  · rw [heq, FinMap.get?_insert] at hget
    split at hget
    · next hid =>
      cases hget
      exact ⟨new, by rw [hheap, List.getElem?_concat_length], hid.symm⟩
    · exact hold id k hget

theorem mapped_run (sha256 : Hash → Hash) (ops : List Op) :
    Mapped (run sha256 ops newWorld).manager := by
  have hnew : Mapped newWorld.manager := by
    intro id k h
    cases h
  have hstep : ∀ op w, Mapped w.manager → Mapped (exec sha256 op w).manager :=
    fun op _ hw => hw.exec op
  exact run_invariant hstep ops hnew

theorem length_le_run (sha256 : Hash → Hash) (ops : List Op) (w : World) :
    w.manager.heap.length ≤ (run sha256 ops w).manager.heap.length := by
  have hstep : ∀ op v, w.manager.heap.length ≤ v.manager.heap.length →
      w.manager.heap.length ≤ (exec sha256 op v).manager.heap.length := by
    intro op v hle
    refine hle.trans ?_
    rcases (outcome_exec sha256 op v).heap with hlength | ⟨new, hheap, -⟩
    · exact hlength.ge
    · rw [hheap, List.length_append]
      exact Nat.le_add_right _ _
  exact @run_invariant _ _ (exec sha256)
    (fun v => w.manager.heap.length ≤ v.manager.heap.length) hstep ops w (Nat.le_refl _)

/-- A late call expires a pending contract. -/
theorem expired_of_late {op : Op} {htlcID : Hash} {k : ℕ} {h : HTLC}
    (hlook : w.manager.lookup htlcID = some (k, h)) (hstate : h.state = .statePending)
    (hlate : op.late htlcID h.timeout) :
    ∃ h', (exec sha256 op w).manager.heap[k]? = some h' ∧ h'.state = .stateExpired := by
  obtain ⟨hget, hk⟩ := lookup_eq_some.mp hlook
  have hlt := (List.getElem?_eq_some_iff.mp hk).1
  cases op with
  | openHTLC id preimage clock =>
      obtain ⟨rfl, hnow⟩ := hlate
      simp only [exec, Op.apply, openHTLC, hlook, hstate, ne_eq, not_true_eq_false, if_false,
        if_pos hnow]
      exact ⟨_, List.getElem?_set_self hlt, rfl⟩
  | expireHTLCs clock =>
      have hheap := heap_expireHTLCs clock w.manager k
      have hmem : k ∈ w.manager.htlcs.entries.map Prod.snd :=
        List.mem_map.mpr ⟨_, FinMap.get?_eq_some.mp hget, rfl⟩
      rw [hk, Option.map_some, if_pos hmem, HTLC.expire, if_pos ⟨hstate, hlate⟩] at hheap
      exact ⟨_, hheap, rfl⟩
  | createHTLC => cases hlate
  | settleHTLC => cases hlate
  | refundHTLC => cases hlate

/-- Only a late call expires a contract. -/
theorem late_of_expired {op : Op} {htlcID : Hash} {k : ℕ} {h h' : HTLC}
    (hw : Mapped w.manager) (hlook : w.manager.lookup htlcID = some (k, h))
    (hstate : h.state ≠ .stateExpired)
    (hk' : (exec sha256 op w).manager.heap[k]? = some h') (hexpired : h'.state = .stateExpired) :
    op.late htlcID h.timeout := by
  obtain ⟨hget, hk⟩ := lookup_eq_some.mp hlook
  have hlt := (List.getElem?_eq_some_iff.mp hk).1
  -- a write that the contract shows is a write through its own identifier
  have hstored : ∀ {id k' hk hnew}, w.manager.lookup id = some (k', hk) →
      (w.manager.store k' hnew).heap[k]? = some h' →
      id = htlcID ∧ h = hk ∧ h' = hnew := by
    intro id k' hk₁ hnew hlook' hset
    by_cases hkk : k' = k
    · subst hkk
      obtain ⟨hget', hk₂⟩ := lookup_eq_some.mp hlook'
      rw [hk, Option.some.injEq] at hk₂
      have hself : (w.manager.store k' hnew).heap[k']? = some hnew :=
        List.getElem?_set_self hlt
      rw [hself, Option.some.injEq] at hset
      exact ⟨hw.injective hget' hget, hk₂, hset.symm⟩
    · have hother : (w.manager.store k' hnew).heap[k]? = some h :=
        (List.getElem?_set_ne hkk).trans hk
      rw [hother, Option.some.injEq] at hset
      exact absurd (hset ▸ hexpired) hstate
  have houtcome := outcome_exec sha256 op w
  generalize exec sha256 op w = w' at houtcome hk'
  cases houtcome with
  | same =>
      rw [hk, Option.some.injEq] at hk'
      exact absurd (hk' ▸ hexpired) hstate
  | created _ _ _ _ hheap _ =>
      rw [hheap, List.getElem?_append_left hlt, hk, Option.some.injEq] at hk'
      exact absurd (hk' ▸ hexpired) hstate
  | opened hlook' =>
      obtain ⟨-, -, rfl⟩ := hstored hlook' hk'
      cases hexpired
  | lateOpen hlook' _ hnow =>
      obtain ⟨rfl, rfl, -⟩ := hstored hlook' hk'
      exact ⟨rfl, hnow⟩
  | settled hlook' =>
      obtain ⟨-, -, rfl⟩ := hstored hlook' hk'
      cases hexpired
  | refunded hlook' =>
      obtain ⟨-, -, rfl⟩ := hstored hlook' hk'
      cases hexpired
  | @expired clock =>
      have hheap := heap_expireHTLCs clock w.manager k
      rw [hk', hk, Option.map_some, Option.some.injEq] at hheap
      rw [hheap, HTLC.expire] at hexpired
      split_ifs at hexpired with hmem hlate
      · exact hlate.2
      · exact absurd hexpired hstate
      · exact absurd hexpired hstate

/-- A contract that the map leads to after an operation was led to before it, or is new. -/
theorem lookup_before {op : Op} {htlcID : Hash} {k : ℕ} {h' : HTLC}
    (hlook : (exec sha256 op w).manager.lookup htlcID = some (k, h')) :
    (∃ es h, w.manager.lookup htlcID = some (k, h) ∧ HtlcStep sha256 k h es h') ∨
      (k = w.manager.heap.length ∧ h'.state = .statePending) := by
  obtain ⟨hget, hk⟩ := lookup_eq_some.mp hlook
  by_cases hlt : k < w.manager.heap.length
  · have hget' : w.manager.htlcs.get? htlcID = some k := by
      rcases (outcome_exec sha256 op w).htlcs with heq | ⟨new, -, heq⟩
      · rwa [heq] at hget
      · rw [heq, FinMap.get?_insert] at hget
        split at hget
        · cases hget
          exact absurd hlt (Nat.lt_irrefl _)
        · exact hget
    have hk' := List.getElem?_eq_getElem hlt
    obtain ⟨es, h'', hk'', -, hstep⟩ := @htlcStep_exec sha256 w op k _ hk'
    rw [hk, Option.some.injEq] at hk''
    exact .inl ⟨es, _, lookup_eq_some.mpr ⟨hget', hk'⟩, hk'' ▸ hstep⟩
  · have hlt' := (List.getElem?_eq_some_iff.mp hk).1
    rcases (outcome_exec sha256 op w).heap with hlength | ⟨new, hheap, hstate⟩
    · omega
    · rw [hheap, List.length_append, List.length_singleton] at hlt'
      obtain rfl : k = w.manager.heap.length := by omega
      rw [hheap, List.getElem?_concat_length, Option.some.injEq] at hk
      exact .inr ⟨rfl, hk ▸ hstate⟩

theorem cameLate_concat {ops : List Op} {op : Op} {htlcID : Hash} {k timeout : ℕ} :
    CameLate sha256 (ops ++ [op]) htlcID k timeout ↔ CameLate sha256 ops htlcID k timeout ∨
      (k < (run sha256 ops newWorld).manager.heap.length ∧ op.late htlcID timeout) := by
  constructor
  · rintro ⟨pre, op', post, heq, hlt, hop⟩
    rcases List.eq_nil_or_concat' post with rfl | ⟨post, last, rfl⟩
    · obtain ⟨rfl, hlast⟩ := List.append_inj' heq rfl
      cases hlast
      exact .inr ⟨hlt, hop⟩
    · rw [← List.cons_append, ← List.append_assoc] at heq
      obtain ⟨rfl, -⟩ := List.append_inj' heq rfl
      exact .inl ⟨pre, op', post, rfl, hlt, hop⟩
  · rintro (⟨pre, op', post, rfl, hlt, hop⟩ | ⟨hlt, hop⟩)
    · exact ⟨pre, op', post ++ [op], by simp, hlt, hop⟩
    · exact ⟨ops, op, [], rfl, hlt, hop⟩

theorem CameLate.lt {ops : List Op} {htlcID : Hash} {k timeout : ℕ}
    (h : CameLate sha256 ops htlcID k timeout) :
    k < (run sha256 ops newWorld).manager.heap.length := by
  obtain ⟨pre, op, post, rfl, hlt, -⟩ := h
  have hle := length_le_run sha256 (op :: post) (run sha256 pre newWorld)
  have happend : run sha256 (pre ++ op :: post) newWorld =
      run sha256 (op :: post) (run sha256 pre newWorld) := List.foldl_append
  rw [happend]
  exact hlt.trans_le hle

/-- A contract expires exactly when a call comes late: an expired one has had such a call,
and one that has had such a call is no longer pending. -/
theorem expired_iff_cameLate (sha256 : Hash → Hash) (ops : List Op) {htlcID : Hash} {k : ℕ}
    {h : HTLC} (hlook : (run sha256 ops newWorld).manager.lookup htlcID = some (k, h)) :
    (h.state = .stateExpired → CameLate sha256 ops htlcID k h.timeout) ∧
      (CameLate sha256 ops htlcID k h.timeout → h.state ≠ .statePending) := by
  induction ops using List.reverseRecOn generalizing h with
  | nil => cases hlook
  | append_singleton ops op ih =>
      have hrun : run sha256 (ops ++ [op]) newWorld = exec sha256 op (run sha256 ops newWorld) :=
        runOps_concat ..
      rw [hrun] at hlook
      rw [cameLate_concat]
      have hk := (lookup_eq_some.mp hlook).2
      rcases lookup_before hlook with ⟨es, h₀, hlook₀, hstep⟩ | ⟨hnew, hpending⟩
      · obtain ⟨hexpired, hlate⟩ := ih hlook₀
        have hlt := (List.getElem?_eq_some_iff.mp (lookup_eq_some.mp hlook₀).2).1
        rw [hstep.kept.timeout]
        constructor
        · intro hstate
          by_cases hstate₀ : h₀.state = .stateExpired
          · exact .inl (hexpired hstate₀)
          · exact .inr ⟨hlt, late_of_expired (mapped_run sha256 ops) hlook₀ hstate₀ hk hstate⟩
        · intro hcame hstate
          -- a pending contract was pending before
          have hstate₀ : h₀.state = .statePending := by
            cases hstep with
            | same => exact hstate
            | _ => cases hstate
          rcases hcame with hcame | ⟨-, hop⟩
          · exact hlate hcame hstate₀
          · obtain ⟨h', hk', hexp⟩ :=
              @expired_of_late sha256 _ op htlcID k h₀ hlook₀ hstate₀ hop
            rw [hk, Option.some.injEq] at hk'
            rw [hk', hexp] at hstate
            cases hstate
      · refine ⟨fun hstate => ?_, ?_⟩
        · rw [hpending] at hstate
          cases hstate
        · rintro (hcame | ⟨hlt, -⟩)
          · exact absurd hcame.lt (hnew ▸ Nat.lt_irrefl _)
          · exact absurd hlt (hnew ▸ Nat.lt_irrefl _)

/-- **Which contracts can still be refunded**: after every run, a contract whose timeout
has passed, whose preimage was never revealed and which is not refunded yet can be refunded
exactly when no `ExpireHTLCs`, and no `OpenHTLC` of it, has come after its timeout. -/
theorem refundHTLC_iff (sha256 : Hash → Hash) (ops : List Op) {htlcID : Hash} {k : ℕ} {h : HTLC}
    (hlook : (run sha256 ops newWorld).manager.lookup htlcID = some (k, h))
    (hsecret : ∀ preimage now, .opened k preimage now ∉ (run sha256 ops newWorld).events)
    (hnot : h.state ≠ .stateRefunded) {clock : Clock} (hnow : h.timeout ≤ clock 0) :
    (refundHTLC htlcID clock (run sha256 ops newWorld).manager).1 = .ok () ↔
      ¬ CameLate sha256 ops htlcID k h.timeout := by
  obtain ⟨hexpired, hlate⟩ := expired_iff_cameLate sha256 ops hlook
  have hlife := (LifecycleInv.of_run sha256 ops).alive k h (lookup_eq_some.mp hlook).2
  have hstate : h.state = .statePending ∨ h.state = .stateExpired := by
    have hopened : ∀ preimage now,
        .opened k preimage now ∉ (run sha256 ops newWorld).history k :=
      fun preimage now hmem => hsecret preimage now (List.mem_of_mem_filter hmem)
    unfold Lifecycle at hlife
    split at hlife
    all_goals grind
  have hrefund : (refundHTLC htlcID clock (run sha256 ops newWorld).manager).1 = .ok () ↔
      h.state = .statePending := by
    rw [refundHTLC, hlook]
    dsimp only
    split_ifs with hpending hearly
    · simpa using hpending
    · exact absurd hnow (Nat.not_le.mpr hearly)
    · simpa using not_not.mp hpending
  rw [hrefund]
  constructor
  · exact fun hpending hcame => hlate hcame hpending
  · intro hcame
    rcases hstate with hpending | hstate
    · exact hpending
    · exact absurd (hexpired hstate) hcame

/-- Nothing but time has passed. -/
theorem refundHTLC_lock :
    (refundHTLC lockID (fun _ => 3600000000000) (run id [lock] newWorld).manager).1 = .ok () := by
  obtain ⟨hlook, hevents⟩ := lookup_lock id
  refine (@refundHTLC_iff id [lock] lockID 0 lockedHtlc hlook ?_ (by decide)
    (fun _ => 3600000000000) (Nat.le_refl _)).mpr ?_
  · intro preimage now hmem
    rw [hevents] at hmem
    cases hmem
  · rintro ⟨pre, op, post, heq, hlt, hlate⟩
    cases pre with
    | nil => exact absurd hlt (Nat.not_lt_zero _)
    | cons _ pre => simp at heq

/-- The periodic expiry has run once after the timeout, and the refund is refused. -/
theorem refundHTLC_after_expiry :
    ∃ h, (run id [lock, .expireHTLCs fun _ => 3600000000001] newWorld).manager.lookup lockID =
        some (0, h) ∧ h.timeout < 3600000000001 ∧ h.state ≠ .stateRefunded ∧
      (∀ preimage now, .opened 0 preimage now ∉
        (run id [lock, .expireHTLCs fun _ => 3600000000001] newWorld).events) ∧
      (refundHTLC lockID (fun _ => 3600000000001)
        (run id [lock, .expireHTLCs fun _ => 3600000000001] newWorld).manager).1 =
          .error "HTLC not pending: Expired" := by
  obtain ⟨hlook, hevents⟩ := lookup_lock id
  obtain ⟨hget, hk⟩ := lookup_eq_some.mp hlook
  have hrun : run id [lock, .expireHTLCs fun _ => 3600000000001] newWorld =
      exec id (.expireHTLCs fun _ => 3600000000001) (run id [lock] newWorld) := rfl
  have hheap := heap_expireHTLCs (fun _ => 3600000000001) (run id [lock] newWorld).manager 0
  have hmem : 0 ∈ (run id [lock] newWorld).manager.htlcs.entries.map Prod.snd :=
    List.mem_map.mpr ⟨_, FinMap.get?_eq_some.mp hget, rfl⟩
  rw [hk, Option.map_some, if_pos hmem, HTLC.expire, if_pos (by decide)] at hheap
  have hlook' : (expireHTLCs (fun _ => 3600000000001) (run id [lock] newWorld).manager).lookup
      lockID = some (0, { lockedHtlc with state := .stateExpired }) :=
    lookup_eq_some.mpr ⟨hget, hheap⟩
  refine ⟨{ lockedHtlc with state := .stateExpired }, ?_, by decide, by decide, ?_, ?_⟩
  · rw [hrun]
    exact hlook'
  · intro preimage now hopened
    rw [hrun] at hopened
    simp only [exec, Op.apply, Op.events, hevents, List.append_nil] at hopened
    cases hopened
  · rw [hrun]
    simp only [exec, Op.apply, refundHTLC, hlook']
    rw [if_pos (by decide)]
    rfl

end BhtBhte.Htlc
