import BhtBhte.Channel.Manager
import BhtBhte.Lib.FinMap
import BhtBhte.Lib.Latest
import BhtBhte.Lib.Rounds
import BhtBhte.Lib.Runs
import BhtBhte.Lib.Utf8
import Mathlib.Logic.Function.Basic

/-!
# The observer of L1

`core/bhc_observer`.  Each `Start` adds a goroutine that asks for the height again and again.  A
height above all before is remembered first; then the header is fetched, and its Merkle root is kept
as the anchor of that height.  Another goroutine asks for the headers near the tip again and logs
the differences.  The goroutines and the queries of clients interleave in any order.  Whatever the
order, an anchor is never changed, and a height that was passed over never gets one (`anchors_run`).
-/
namespace BhtBhte.Observer

open BhtBhte.Lib
open BhtBhte.Channel (decimal)

structure BlockHeader where
  hash : String
  height : UInt64
  time : Int64
  merkleRoot : String
  deriving DecidableEq

/-- The time is in seconds. -/
structure AnchorRecord where
  blockHeight : UInt64
  stateRoot : String
  txHash : String
  timestamp : Int64
  deriving DecidableEq

/-- Anchors are kept under the number of their height. -/
structure BHCObserver where
  latestHeight : UInt64
  anchors : FinMap ℕ AnchorRecord

def newBHCObserver : BHCObserver where
  latestHeight := 0
  anchors := ∅

/-! ## Queries -/

/-- Whether a state root is the anchor of a height. -/
def verifyAnchorOnL1 (stateRoot : String) (blockHeight : UInt64) (o : BHCObserver) : Bool :=
  match o.anchors.get? blockHeight.toNat with
  | none => false
  | some anchor => anchor.stateRoot = stateRoot

/-- The anchor of a height. -/
def getAnchorAtHeight (height : UInt64) (o : BHCObserver) : Except String AnchorRecord :=
  match o.anchors.get? height.toNat with
  | none => .error ("no anchor at height " ++ decimal height)
  | some anchor => .ok anchor

/-- `σ` is the order in which the map is ranged over.  The anchor of height zero would be passed
over, and the answer would be nil. -/
def getLatestAnchor (σ : RangeOrder) (o : BHCObserver) : Except String (Option AnchorRecord) :=
  if o.anchors.keys.length = 0 then .error "no anchors available"
  else .ok ((o.anchors.range σ).foldl (newer (fun e => some e.1) Prod.snd) (none, 0)).1

/-- The ticks before the timeout, each with the observer that it finds. -/
def waitForAnchor (expectedRoot : String) : List (RangeOrder × BHCObserver) →
    Except String AnchorRecord
  | [] => .error "timeout waiting for anchor"
  | (σ, o) :: ticks =>
    match (o.anchors.range σ).find? fun e => e.2.stateRoot = expectedRoot with
    | none => waitForAnchor expectedRoot ticks
    | some e => .ok e.2

/-! ## Watching -/

/-- The anchor that a header stands for. -/
def extractAnchorFromBlock (header : BlockHeader) : AnchorRecord where
  blockHeight := header.height
  stateRoot := header.merkleRoot
  txHash := header.hash
  timestamp := header.time

/-- The observer, and the height whose header each goroutine is waiting for. -/
structure Watched (ι : Type) where
  observer : BHCObserver
  fetching : ι → Option UInt64

def newWatched (ι : Type) : Watched ι where
  observer := newBHCObserver
  fetching _ := none

/-- The node answers a goroutine. -/
inductive Step (ι : Type) where
  | height (i : ι) (answer : Except String UInt64)
  | header (i : ι) (answer : Except String BlockHeader)

section
variable {ι : Type} [DecidableEq ι]

/-- The height is remembered, and the goroutine asks for its header. -/
def Watched.await (i : ι) (height : UInt64) (s : Watched ι) : Watched ι where
  observer := { s.observer with latestHeight := height }
  fetching := Function.update s.fetching i (some height)

/-- What `processNewBlock` does with the header. -/
def processHeader (height : UInt64) (answer : Except String BlockHeader) (o : BHCObserver) :
    BHCObserver :=
  match answer with
  | .error _ => o
  | .ok header =>
    { o with anchors := o.anchors.insert height.toNat (extractAnchorFromBlock header) }

/-- The goroutine returns to its ticker. -/
def Watched.process (i : ι) (height : UInt64) (answer : Except String BlockHeader)
    (s : Watched ι) : Watched ι where
  observer := processHeader height answer s.observer
  fetching := Function.update s.fetching i none

/-- A goroutine that waits for a header asks for no height, and the other way round. -/
def step : Step ι → Watched ι → Watched ι
  | .height i answer, s =>
    match s.fetching i, answer with
    | none, .ok height => if height > s.observer.latestHeight then s.await i height else s
    | _, _ => s
  | .header i answer, s =>
    match s.fetching i with
    | none => s
    | some height => s.process i height answer

/-- The observer after the steps, from its construction on. -/
def run (steps : List (Step ι)) : Watched ι := runOps step steps (newWatched ι)

theorem run_append (steps later : List (Step ι)) :
    run (steps ++ later) = runOps step later (run steps) := List.foldl_append

end

/-! ## Checking again -/

/-- A slice beyond the end of a string. -/
inductive Panic where
  | sliceBounds
  deriving DecidableEq

/-- A line of the log: the height and the beginnings of the two roots. -/
structure Warning where
  height : UInt64
  expected : List UInt8
  got : List UInt8
  deriving DecidableEq

/-- `s[:16]`. -/
def first16 (s : String) : Except Panic (List UInt8) :=
  if (encode s.toList).length < 16 then .error .sliceBounds else .ok ((encode s.toList).take 16)

/-- One round of the loop of `verifyRecentAnchors`. -/
def recheckAnchor (answer : Except String BlockHeader) (h : UInt64) (o : BHCObserver) :
    Except Panic (Option Warning) :=
  match o.anchors.get? h.toNat, answer with
  | some anchor, .ok header =>
    if header.merkleRoot ≠ anchor.stateRoot then do
      let expected ← first16 anchor.stateRoot
      let got ← first16 header.merkleRoot
      pure (some ⟨h, expected, got⟩)
    else pure none
  | _, _ => pure none

/-- The rounds at the heights; each finds its own observer. -/
def recheckAnchors (rpc : UInt64 → Except String BlockHeader) (found : UInt64 → BHCObserver) :
    List UInt64 → Except Panic (List Warning)
  | [] => pure []
  | h :: heights => do
      let warning ← recheckAnchor (rpc h) h (found h)
      let warnings ← recheckAnchors rpc found heights
      pure (warning.toList ++ warnings)

/-- A pass that begins with the latest height `height`; `fuel` bounds its rounds, which never end
when that is the last 64-bit number. -/
def verifyRecentAnchors (rpc : UInt64 → Except String BlockHeader) (fuel : ℕ) (height : UInt64)
    (found : UInt64 → BHCObserver) : Except Panic (List Warning) :=
  if height < 10 then pure []
  else recheckAnchors rpc found (rounds fuel (height - 10) height)

/-! ## Anchors are written once -/

section
variable {ι : Type} [DecidableEq ι] {s : Watched ι} {h : UInt64}

/-- No goroutine will write at the height any more. -/
def Closed (s : Watched ι) (h : UInt64) : Prop :=
  h ≤ s.observer.latestHeight ∧ ∀ i, s.fetching i ≠ some h

theorem get?_processHeader {height : UInt64} (hne : h ≠ height)
    (answer : Except String BlockHeader) (o : BHCObserver) :
    (processHeader height answer o).anchors.get? h.toNat = o.anchors.get? h.toNat := by
  cases answer with
  | error e => rfl
  | ok header =>
      exact FinMap.get?_insert_of_ne _ _ fun heq => hne (UInt64.toNat_inj.mp heq)

theorem latestHeight_processHeader (height : UInt64) (answer : Except String BlockHeader)
    (o : BHCObserver) : (processHeader height answer o).latestHeight = o.latestHeight := by
  cases answer <;> rfl

theorem fetching_await {i j : ι} {height : UInt64}
    (hj : (s.await i height).fetching j = some h) :
    (j = i ∧ h = height) ∨ (j ≠ i ∧ s.fetching j = some h) := by
  change Function.update s.fetching i (some height) j = some h at hj
  by_cases hji : j = i
  · rw [hji, Function.update_self] at hj
    exact .inl ⟨hji, (Option.some.inj hj).symm⟩
  · rw [Function.update_of_ne hji] at hj
    exact .inr ⟨hji, hj⟩

theorem fetching_process {i j : ι} {height : UInt64} {answer : Except String BlockHeader}
    (hj : (s.process i height answer).fetching j = some h) : j ≠ i ∧ s.fetching j = some h := by
  change Function.update s.fetching i none j = some h at hj
  by_cases hji : j = i
  · rw [hji, Function.update_self] at hj
    cases hj
  · rw [Function.update_of_ne hji] at hj
    exact ⟨hji, hj⟩

/-- What a goroutine does next: nothing, or remember a new height, or keep a header. -/
theorem step_cases (op : Step ι) (s : Watched ι) :
    step op s = s ∨
    (∃ i height, op = .height i (.ok height) ∧ s.observer.latestHeight < height ∧
      step op s = s.await i height) ∨
    ∃ i answer height, op = .header i answer ∧ s.fetching i = some height ∧
      step op s = s.process i height answer := by
  cases op with
  | height i answer =>
      rw [step.eq_def]
      dsimp only
      split
      · next height hfree =>
          split_ifs with hnew
          · exact .inr (.inl ⟨i, height, rfl, hnew, rfl⟩)
          · exact .inl rfl
      · exact .inl rfl
  | header i answer =>
      rw [step.eq_def]
      dsimp only
      split
      · exact .inl rfl
      · next height hbusy => exact .inr (.inr ⟨i, answer, height, rfl, hbusy, rfl⟩)

theorem Closed.step (hclosed : Closed s h) (op : Step ι) : Closed (step op s) h ∧
    (step op s).observer.anchors.get? h.toNat = s.observer.anchors.get? h.toNat := by
  obtain ⟨hle, hfree⟩ := hclosed
  rcases step_cases op s with heq | ⟨i, height, -, hnew, heq⟩ | ⟨i, answer, height, -, hi, heq⟩
  · rw [heq]
    exact ⟨⟨hle, hfree⟩, rfl⟩
  · rw [heq]
    refine ⟨⟨UInt64.le_trans hle (UInt64.le_of_lt hnew), fun j hj => ?_⟩, rfl⟩
    rcases fetching_await hj with ⟨-, rfl⟩ | ⟨-, hj⟩
    · exact UInt64.not_lt.mpr hle hnew
    · exact hfree j hj
  · rw [heq]
    refine ⟨⟨?_, fun j hj => hfree j (fetching_process hj).2⟩,
      get?_processHeader (fun hh => hfree i (by rw [hi, hh])) answer _⟩
    rw [Watched.process, latestHeight_processHeader]
    exact hle

theorem Closed.run (hclosed : Closed s h) (later : List (Step ι)) :
    Closed (runOps Observer.step later s) h ∧
      (runOps Observer.step later s).observer.anchors.get? h.toNat =
        s.observer.anchors.get? h.toNat :=
  run_invariant (P := fun t => Closed t h ∧
      t.observer.anchors.get? h.toNat = s.observer.anchors.get? h.toNat)
    (fun op _ ht => ⟨(ht.1.step op).1, (ht.1.step op).2.trans ht.2⟩) later ⟨hclosed, rfl⟩

/-- Goroutines wait for headers of different heights, none of which has an anchor. -/
structure Orderly (s : Watched ι) : Prop where
  fetching : ∀ i h, s.fetching i = some h →
    0 < h ∧ h ≤ s.observer.latestHeight ∧ s.observer.anchors.get? h.toNat = none
  distinct : ∀ i j h, s.fetching i = some h → s.fetching j = some h → i = j
  anchored : ∀ k a, s.observer.anchors.get? k = some a →
    0 < k ∧ k ≤ s.observer.latestHeight.toNat

theorem Orderly.step (ho : Orderly s) (op : Step ι) : Orderly (step op s) := by
  rcases step_cases op s with heq | ⟨i, height, -, hnew, heq⟩ | ⟨i, answer, height, -, hi, heq⟩
  · rwa [heq]
  · rw [heq]
    have hlt := UInt64.lt_iff_toNat_lt.mp hnew
    refine ⟨fun j h hj => ?_, fun j k h hj hk => ?_, fun k a hget => ?_⟩
    · rcases fetching_await hj with ⟨-, rfl⟩ | ⟨-, hj⟩
      · refine ⟨UInt64.lt_of_le_of_lt UInt64.zero_le hnew, UInt64.le_refl _, ?_⟩
        refine Option.eq_none_iff_forall_ne_some.mpr fun a hget => ?_
        have hle := (ho.anchored _ _ hget).2
        omega
      · obtain ⟨hpos, hle, hnone⟩ := ho.fetching j h hj
        exact ⟨hpos, UInt64.le_trans hle (UInt64.le_of_lt hnew), hnone⟩
    · have hold : ∀ i, s.fetching i ≠ some height := fun i hi =>
        UInt64.not_le.mpr hnew (ho.fetching i height hi).2.1
      rcases fetching_await hj with ⟨hji, hh⟩ | ⟨-, hj'⟩
      · rcases fetching_await hk with ⟨hki, -⟩ | ⟨-, hk'⟩
        · exact hji.trans hki.symm
        · exact absurd (hh ▸ hk') (hold k)
      · rcases fetching_await hk with ⟨-, hh⟩ | ⟨-, hk'⟩
        · exact absurd (hh ▸ hj') (hold j)
        · exact ho.distinct j k h hj' hk'
    · obtain ⟨hpos, hle⟩ := ho.anchored k a hget
      exact ⟨hpos, hle.trans hlt.le⟩
  · rw [heq]
    obtain ⟨hpos, hle, -⟩ := ho.fetching i height hi
    have hlatest := latestHeight_processHeader height answer s.observer
    refine ⟨fun j h hj => ?_, fun j k h hj hk => ?_, fun k a hget => ?_⟩
    · obtain ⟨hji, hj⟩ := fetching_process hj
      obtain ⟨hpos', hle', hnone⟩ := ho.fetching j h hj
      have hne : h ≠ height := fun hh => hji (ho.distinct j i h hj (hh ▸ hi))
      exact ⟨hpos', hlatest.symm ▸ hle', (get?_processHeader hne answer _).trans hnone⟩
    · exact ho.distinct j k h (fetching_process hj).2 (fetching_process hk).2
    · rw [Watched.process, hlatest]
      cases answer with
      | error e => exact ho.anchored k a hget
      | ok header =>
          by_cases hk : k = height.toNat
          · rw [hk]
            exact ⟨UInt64.lt_iff_toNat_lt.mp hpos, UInt64.le_iff_toNat_le.mp hle⟩
          · exact ho.anchored k a ((FinMap.get?_insert_of_ne _ _ hk).symm.trans hget)

omit [DecidableEq ι] in
theorem orderly_newWatched : Orderly (newWatched ι) where
  fetching _ _ hsome := nomatch hsome
  distinct _ _ _ hsome := nomatch hsome
  anchored _ _ hsome := nomatch hsome

theorem orderly_run (steps : List (Step ι)) : Orderly (run steps) :=
  run_invariant (fun op _ ho => ho.step op) steps orderly_newWatched

omit [DecidableEq ι] in
/-- A height with an anchor is closed. -/
theorem Orderly.closed (ho : Orderly s) {a : AnchorRecord}
    (hget : s.observer.anchors.get? h.toNat = some a) : Closed s h := by
  refine ⟨UInt64.le_iff_toNat_le.mpr (ho.anchored _ a hget).2, fun i hi => ?_⟩
  rw [(ho.fetching i h hi).2.2] at hget
  cases hget

/-- Goroutine `i` got the height `h` when it was a new one, and has waited for its header since. -/
def Awaits (steps : List (Step ι)) (i : ι) (h : UInt64) : Prop :=
  ∃ past waited, steps = past ++ .height i (.ok h) :: waited ∧
    (run past).observer.latestHeight < h ∧
    ∀ w, w <+: waited → (run (past ++ .height i (.ok h) :: w)).fetching i = some h

/-- The header came to goroutine `i` while it waited for the one of height `h`. -/
def Fetched (steps : List (Step ι)) (i : ι) (h : UInt64) (header : BlockHeader) : Prop :=
  ∃ asked rest, steps = asked ++ .header i (.ok header) :: rest ∧ Awaits asked i h

theorem Awaits.concat {steps : List (Step ι)} {i : ι} (hi : Awaits steps i h) {op : Step ι}
    (hwaits : (run (steps ++ [op])).fetching i = some h) : Awaits (steps ++ [op]) i h := by
  obtain ⟨past, waited, rfl, hnew, hall⟩ := hi
  refine ⟨past, waited ++ [op], by simp, hnew, fun w hw => ?_⟩
  rcases List.prefix_concat_iff.mp hw with rfl | hw
  · simpa using hwaits
  · exact hall w hw

theorem Fetched.concat {steps : List (Step ι)} {i : ι} {header : BlockHeader}
    (hf : Fetched steps i h header) (op : Step ι) : Fetched (steps ++ [op]) i h header := by
  obtain ⟨asked, rest, rfl, hawaits⟩ := hf
  exact ⟨asked, rest ++ [op], by simp, hawaits⟩

/-- Heights and anchors are what the node answered. -/
structure Traced (steps : List (Step ι)) : Prop where
  fetching : ∀ i h, (run steps).fetching i = some h → Awaits steps i h
  anchors : ∀ (h : UInt64) a, (run steps).observer.anchors.get? h.toNat = some a →
    ∃ i header, Fetched steps i h header ∧ a = extractAnchorFromBlock header

theorem Traced.concat {steps : List (Step ι)} (ht : Traced steps) (op : Step ι) :
    Traced (steps ++ [op]) := by
  have hrun : run (steps ++ [op]) = step op (run steps) := run_append steps [op]
  have hanchors : ∀ (h : UInt64) a, (run steps).observer.anchors.get? h.toNat = some a →
      ∃ i header, Fetched (steps ++ [op]) i h header ∧ a = extractAnchorFromBlock header := by
    intro h a hget
    obtain ⟨i, header, hf, ha⟩ := ht.anchors h a hget
    exact ⟨i, header, hf.concat op, ha⟩
  rcases step_cases op (run steps) with
    heq | ⟨i, height, hop, hnew, heq⟩ | ⟨i, answer, height, hop, hi, heq⟩
  · refine ⟨fun j h hj => ?_, fun h a hget => hanchors h a ?_⟩
    · exact (ht.fetching j h (by rwa [hrun, heq] at hj)).concat hj
    · rwa [hrun, heq] at hget
  · refine ⟨fun j h hj => ?_, fun h a hget => hanchors h a ?_⟩
    · have hstep := hj
      rw [hrun, heq] at hstep
      rcases fetching_await hstep with ⟨rfl, rfl⟩ | ⟨-, hj'⟩
      · refine ⟨steps, [], by rw [hop], hnew, fun w hw => ?_⟩
        rwa [List.prefix_nil.mp hw, ← hop]
      · exact (ht.fetching j h hj').concat hj
    · rwa [hrun, heq] at hget
  · refine ⟨fun j h hj => ?_, fun h a hget => ?_⟩
    · have hstep := hj
      rw [hrun, heq] at hstep
      exact (ht.fetching j h (fetching_process hstep).2).concat hj
    · rw [hrun, heq] at hget
      cases answer with
      | error e => exact hanchors h a hget
      | ok header =>
          by_cases hh : h = height
          · have hself : (processHeader height (.ok header) (run steps).observer).anchors.get?
                height.toNat = some (extractAnchorFromBlock header) := FinMap.get?_insert_self _ _ _
            rw [hh] at hget ⊢
            exact ⟨i, header, ⟨steps, [], by rw [hop], ht.fetching i height hi⟩,
              Option.some.inj (hget.symm.trans hself)⟩
          · exact hanchors h a ((get?_processHeader hh _ (run steps).observer).symm.trans hget)

theorem traced_run (steps : List (Step ι)) : Traced steps := by
  induction steps using List.reverseRecOn with
  | nil => exact ⟨fun _ _ hsome => (nomatch hsome), fun _ _ hsome => (nomatch hsome)⟩
  | append_singleton steps op ih => exact ih.concat op

omit [DecidableEq ι] in
theorem getAnchorAtHeight_eq_ok {o : BHCObserver} {a : AnchorRecord} :
    getAnchorAtHeight h o = .ok a ↔ o.anchors.get? h.toNat = some a := by
  rw [getAnchorAtHeight]
  cases o.anchors.get? h.toNat <;> simp

/-- The latest height never goes down. -/
theorem latestHeight_le_run (later : List (Step ι)) :
    s.observer.latestHeight ≤ (runOps step later s).observer.latestHeight := by
  refine run_invariant
    (P := fun t : Watched ι => s.observer.latestHeight ≤ t.observer.latestHeight)
    (fun op t hle => ?_) later (UInt64.le_refl _)
  rcases step_cases op t with heq | ⟨i, height, -, hnew, heq⟩ | ⟨i, answer, height, -, -, heq⟩
  · rwa [heq]
  · rw [heq]
    exact UInt64.le_trans hle (UInt64.le_of_lt hnew)
  · rw [heq, Watched.process, latestHeight_processHeader]
    exact hle

/-- **Anchors are written once.** In every interleaving an anchor is the header that a goroutine got
while it waited for the one of this height, and from then on it stays and the height has its root
and no other.  A height that is not above the latest, and whose header no goroutine waits for, never
gets an anchor if it has none. -/
theorem anchors_run (steps later : List (Step ι)) (h : UInt64) :
    (∀ a, getAnchorAtHeight h (run steps).observer = .ok a →
      getAnchorAtHeight h (run (steps ++ later)).observer = .ok a ∧
      (∀ root, verifyAnchorOnL1 root h (run (steps ++ later)).observer = true ↔
        a.stateRoot = root) ∧
      ∃ i header, Fetched steps i h header ∧ a = extractAnchorFromBlock header) ∧
    (Closed (run steps) h → (∀ a, getAnchorAtHeight h (run steps).observer ≠ .ok a) →
      ∀ root, verifyAnchorOnL1 root h (run (steps ++ later)).observer = false) ∧
    (run steps).observer.latestHeight ≤ (run (steps ++ later)).observer.latestHeight := by
  rw [run_append]
  refine ⟨fun a ha => ?_, fun hclosed hnone root => ?_, latestHeight_le_run later⟩
  · have hget := getAnchorAtHeight_eq_ok.mp ha
    have hlater := (((orderly_run steps).closed hget).run later).2.trans hget
    refine ⟨getAnchorAtHeight_eq_ok.mpr hlater, fun root => ?_, (traced_run steps).anchors h a hget⟩
    rw [verifyAnchorOnL1, hlater]
    exact decide_eq_true_iff
  · have hget : (run steps).observer.anchors.get? h.toNat = none :=
      Option.eq_none_iff_forall_ne_some.mpr fun a ha => hnone a (getAnchorAtHeight_eq_ok.mpr ha)
    rw [verifyAnchorOnL1, (hclosed.run later).2.trans hget]

/-! ## The latest anchor -/

omit [DecidableEq ι] in
/-- An entry of the map is an anchor at a height. -/
theorem mem_range_iff {σ : RangeOrder} {e : ℕ × AnchorRecord} (ho : Orderly s) :
    e ∈ s.observer.anchors.range σ ↔
      ∃ h : UInt64, h.toNat = e.1 ∧ getAnchorAtHeight h s.observer = .ok e.2 := by
  rw [FinMap.mem_range, ← FinMap.get?_eq_some]
  constructor
  · intro hget
    have hlt := (ho.anchored _ _ hget).2.trans_lt s.observer.latestHeight.toNat_lt
    have hnat : (UInt64.ofNat e.1).toNat = e.1 := UInt64.toNat_ofNat_of_lt' hlt
    exact ⟨UInt64.ofNat e.1, hnat, getAnchorAtHeight_eq_ok.mpr (hnat.symm ▸ hget)⟩
  · rintro ⟨h, hnat, ha⟩
    exact hnat ▸ getAnchorAtHeight_eq_ok.mp ha

/-- **The latest anchor** is the one at the greatest height that has one, in whatever order the map
is ranged over; the answer is never nil. -/
theorem getLatestAnchor_run (σ : RangeOrder) (steps : List (Step ι)) :
    (getLatestAnchor σ (run steps).observer = .error "no anchors available" ∧
      ∀ h a, getAnchorAtHeight h (run steps).observer ≠ .ok a) ∨
    ∃ h a, getLatestAnchor σ (run steps).observer = .ok (some a) ∧
      getAnchorAtHeight h (run steps).observer = .ok a ∧
      ∀ h' a', getAnchorAtHeight h' (run steps).observer = .ok a' → h' ≤ h := by
  have ho := orderly_run steps
  have hlatest : Latest (fun e : ℕ × AnchorRecord => some e.1) Prod.snd 0
    ((run steps).observer.anchors.range σ) _ := latest_foldl 0 _
  rw [getLatestAnchor]
  split_ifs with hkeys
  · refine .inl ⟨rfl, fun h a ha => ?_⟩
    have hmem := FinMap.mem_keys.mpr ⟨a, getAnchorAtHeight_eq_ok.mp ha⟩
    rw [List.length_eq_zero_iff.mp hkeys] at hmem
    cases hmem
  · cases hfound : (((run steps).observer.anchors.range σ).foldl
        (newer (fun e : ℕ × AnchorRecord => some e.1) Prod.snd) (none, 0)).1 with
    | none =>
        refine absurd (List.length_eq_zero_iff.mpr ?_) hkeys
        refine List.eq_nil_iff_forall_not_mem.mpr fun k hk => ?_
        obtain ⟨a, hget⟩ := FinMap.mem_keys.mp hk
        have hle := foldl_newer_eq_none_iff.mp hfound (k, a)
          (FinMap.mem_range.mpr (FinMap.get?_eq_some.mp hget)) k rfl
        have hpos := (ho.anchored k a hget).1
        omega
    | some a =>
        obtain ⟨-, e, hmem, rfl, hheight⟩ := hlatest.found a hfound
        obtain ⟨h, hnat, ha⟩ := (mem_range_iff ho).mp hmem
        refine .inr ⟨h, e.2, rfl, ha, fun h' a' ha' => ?_⟩
        have hle := hlatest.highest (h'.toNat, a') ((mem_range_iff ho).mpr ⟨h', rfl, ha'⟩) _ rfl
        rw [← Option.some.inj hheight, ← hnat] at hle
        exact UInt64.le_iff_toNat_le.mpr hle

/-! ## Waiting -/

theorem verifyAnchorOnL1_iff {root : String} {o : BHCObserver} :
    verifyAnchorOnL1 root h o = true ↔
      ∃ a, getAnchorAtHeight h o = .ok a ∧ a.stateRoot = root := by
  rw [verifyAnchorOnL1]
  simp only [getAnchorAtHeight_eq_ok]
  cases o.anchors.get? h.toNat <;> simp

/-- **Waiting for an anchor.** What a client is given stays where it is in every continuation, and
a client whose time runs out has come at times when no height had the root. -/
theorem waitForAnchor_run (root : String) (ticks : List (RangeOrder × List (Step ι))) :
    (waitForAnchor root (ticks.map fun t => (t.1, (run t.2).observer)) =
        .error "timeout waiting for anchor" ∧
      ∀ t ∈ ticks, ∀ h, verifyAnchorOnL1 root h (run t.2).observer = false) ∨
    ∃ a, waitForAnchor root (ticks.map fun t => (t.1, (run t.2).observer)) = .ok a ∧
      a.stateRoot = root ∧ ∃ t ∈ ticks, ∃ h, ∀ later,
        getAnchorAtHeight h (run (t.2 ++ later)).observer = .ok a := by
  induction ticks with
  | nil => exact .inl ⟨rfl, fun t ht => absurd ht List.not_mem_nil⟩
  | cons t ticks ih =>
      have ho := orderly_run t.2
      rw [List.map_cons, waitForAnchor]
      cases hfind : ((run t.2).observer.anchors.range t.1).find?
          fun e => decide (e.2.stateRoot = root) with
      | none =>
          have hnone : ∀ h, verifyAnchorOnL1 root h (run t.2).observer = false := by
            intro h
            refine Bool.eq_false_iff.mpr fun htrue => ?_
            obtain ⟨a, ha, hroot⟩ := verifyAnchorOnL1_iff.mp htrue
            have hmem := (mem_range_iff (σ := t.1) (e := (h.toNat, a)) ho).mpr ⟨h, rfl, ha⟩
            exact List.find?_eq_none.mp hfind _ hmem (decide_eq_true hroot)
          rcases ih with ⟨htimeout, hall⟩ | ⟨a, hok, hroot, t', ht', hstays⟩
          · exact .inl ⟨htimeout, List.forall_mem_cons.mpr ⟨hnone, hall⟩⟩
          · exact .inr ⟨a, hok, hroot, t', List.mem_cons_of_mem _ ht', hstays⟩
      | some e =>
          obtain ⟨h, -, ha⟩ := (mem_range_iff ho).mp (List.mem_of_find?_eq_some hfind)
          have hroot : e.2.stateRoot = root := by simpa using List.find?_some hfind
          refine .inr ⟨e.2, rfl, hroot, t, List.mem_cons_self, h, fun later => ?_⟩
          have hget := getAnchorAtHeight_eq_ok.mp ha
          rw [run_append]
          exact getAnchorAtHeight_eq_ok.mpr (((ho.closed hget).run later).2.trans hget)

/-! ## Checking again -/

/-- The node answers with another root than the one that is kept. -/
structure Differs (answer : Except String BlockHeader) (h : UInt64) (o : BHCObserver)
    (a : AnchorRecord) (header : BlockHeader) : Prop where
  kept : getAnchorAtHeight h o = .ok a
  answered : answer = .ok header
  ne : header.merkleRoot ≠ a.stateRoot

/-- Fewer than sixteen bytes. -/
def Short (s : String) : Prop := (encode s.toList).length < 16

variable {answer : Except String BlockHeader} {o : BHCObserver} {a : AnchorRecord}
  {header : BlockHeader}

omit [DecidableEq ι] in
theorem Differs.recheckAnchor_eq (hd : Differs answer h o a header) :
    recheckAnchor answer h o = (do
      let expected ← first16 a.stateRoot
      let got ← first16 header.merkleRoot
      pure (some ⟨h, expected, got⟩)) := by
  unfold recheckAnchor
  rw [getAnchorAtHeight_eq_ok.mp hd.kept, hd.answered]
  exact if_pos hd.ne

theorem recheckAnchor_of_not_differs (hd : ¬ ∃ a header, Differs answer h o a header) :
    recheckAnchor answer h o = .ok none := by
  unfold recheckAnchor
  split
  · next a header hget =>
      rw [if_neg fun hne => hd ⟨a, header, getAnchorAtHeight_eq_ok.mpr hget, rfl, hne⟩]
      rfl
  · rfl

/-- The line that is logged. -/
def warning (h : UInt64) (a : AnchorRecord) (header : BlockHeader) : Warning where
  height := h
  expected := (encode a.stateRoot.toList).take 16
  got := (encode header.merkleRoot.toList).take 16

theorem first16_of_short {s : String} (h : Short s) : first16 s = .error .sliceBounds := if_pos h

theorem first16_of_not_short {s : String} (h : ¬ Short s) :
    first16 s = .ok ((encode s.toList).take 16) := if_neg h

omit [DecidableEq ι] in
theorem Differs.recheckAnchor_of_short (hd : Differs answer h o a header)
    (hshort : Short a.stateRoot ∨ Short header.merkleRoot) :
    recheckAnchor answer h o = .error .sliceBounds := by
  rw [hd.recheckAnchor_eq]
  by_cases ha : Short a.stateRoot
  · rw [first16_of_short ha]
    rfl
  · rw [first16_of_not_short ha, first16_of_short (hshort.resolve_left ha)]
    rfl

omit [DecidableEq ι] in
theorem Differs.recheckAnchor_of_not_short (hd : Differs answer h o a header)
    (ha : ¬ Short a.stateRoot) (hheader : ¬ Short header.merkleRoot) :
    recheckAnchor answer h o = .ok (some (warning h a header)) := by
  rw [hd.recheckAnchor_eq, first16_of_not_short ha, first16_of_not_short hheader]
  rfl

/-- A round of the loop panics on a root that is too short to be shortened. -/
def Panics (answer : Except String BlockHeader) (h : UInt64) (o : BHCObserver) : Prop :=
  ∃ a header, Differs answer h o a header ∧ (Short a.stateRoot ∨ Short header.merkleRoot)

/-- A round that does not panic logs the height just when the roots differ. -/
theorem recheckAnchor_of_not_panics (hp : ¬ Panics answer h o) :
    ∃ w, recheckAnchor answer h o = .ok w ∧
      ∀ k, (∃ x ∈ w, x.height = k) ↔ k = h ∧ ∃ a header, Differs answer h o a header := by
  by_cases hd : ∃ a header, Differs answer h o a header
  · obtain ⟨a, header, hdiffers⟩ := hd
    have hlong : ¬ Short a.stateRoot ∧ ¬ Short header.merkleRoot :=
      not_or.mp fun hshort => hp ⟨a, header, hdiffers, hshort⟩
    refine ⟨_, hdiffers.recheckAnchor_of_not_short hlong.1 hlong.2, fun k => ?_⟩
    rw [and_iff_left ⟨a, header, hdiffers⟩]
    exact ⟨fun ⟨x, hx, hk⟩ => by cases hx; exact hk.symm, fun hk => ⟨_, rfl, hk.symm⟩⟩
  · refine ⟨none, recheckAnchor_of_not_differs hd, fun k => ?_⟩
    exact ⟨fun ⟨x, hx, _⟩ => (nomatch hx), fun hk => absurd hk.2 hd⟩

/-- The rounds end at the first one that panics. -/
theorem recheckAnchors_spec (rpc : UInt64 → Except String BlockHeader)
    (found : UInt64 → BHCObserver) (heights : List UInt64) :
    (recheckAnchors rpc found heights = .error .sliceBounds ∧
      ∃ h ∈ heights, Panics (rpc h) h (found h)) ∨
    ∃ warnings, recheckAnchors rpc found heights = .ok warnings ∧
      (∀ h ∈ heights, ¬ Panics (rpc h) h (found h)) ∧
      ∀ k, (∃ w ∈ warnings, w.height = k) ↔
        k ∈ heights ∧ ∃ a header, Differs (rpc k) k (found k) a header := by
  induction heights with
  | nil => exact .inr ⟨[], rfl, by simp, by simp⟩
  | cons h heights ih =>
      rw [recheckAnchors]
      by_cases hp : Panics (rpc h) h (found h)
      · obtain ⟨a, header, hdiffers, hshort⟩ := id hp
        rw [hdiffers.recheckAnchor_of_short hshort]
        exact .inl ⟨rfl, h, List.mem_cons_self, hp⟩
      · obtain ⟨w, hw, hlogged⟩ := recheckAnchor_of_not_panics hp
        rw [hw]
        rcases ih with ⟨herror, k, hk, hpk⟩ | ⟨warnings, hok, hnone, hall⟩
        · rw [herror]
          exact .inl ⟨rfl, k, List.mem_cons_of_mem _ hk, hpk⟩
        · rw [hok]
          refine .inr ⟨w.toList ++ warnings, rfl, List.forall_mem_cons.mpr ⟨hp, hnone⟩, fun k => ?_⟩
          have hsplit : (∃ x ∈ w.toList ++ warnings, x.height = k) ↔
              (∃ x ∈ w, x.height = k) ∨ ∃ x ∈ warnings, x.height = k := by
            simp only [List.mem_append, Option.mem_toList, Option.mem_def, or_and_right, exists_or]
          have hhead : (k = h ∧ ∃ a header, Differs (rpc h) h (found h) a header) ↔
              k = h ∧ ∃ a header, Differs (rpc k) k (found k) a header :=
            and_congr_right fun hk => by rw [hk]
          rw [hsplit, hlogged, hall, hhead, List.mem_cons, or_and_right]

/-- The heights that a pass looks at. -/
def Recent (h height : UInt64) : Prop := 10 ≤ height ∧ height - 10 ≤ h ∧ h ≤ height

theorem mem_rounds_recent {height : UInt64} {fuel : ℕ} (hfuel : 11 ≤ fuel)
    (hheight : height.toNat < 2 ^ 64 - 1) (hten : 10 ≤ height) :
    h ∈ rounds fuel (height - 10) height ↔ Recent h height := by
  have hsub : (height - 10).toNat = height.toNat - 10 := UInt64.toNat_sub_of_le _ _ hten
  rw [mem_rounds_iff hheight (by omega), Recent, and_iff_right hten]

/-- A pass panics or logs, whatever it finds. -/
theorem verifyRecentAnchors_spec (rpc : UInt64 → Except String BlockHeader)
    (found : UInt64 → BHCObserver) {height : UInt64} {fuel : ℕ} (hfuel : 11 ≤ fuel)
    (hheight : height.toNat < 2 ^ 64 - 1) :
    (verifyRecentAnchors rpc fuel height found = .error .sliceBounds ∧
      ∃ h, Recent h height ∧ Panics (rpc h) h (found h)) ∨
    ∃ warnings, verifyRecentAnchors rpc fuel height found = .ok warnings ∧
      (∀ h, Recent h height → ¬ Panics (rpc h) h (found h)) ∧
      ∀ h, (∃ w ∈ warnings, w.height = h) ↔
        Recent h height ∧ ∃ a header, Differs (rpc h) h (found h) a header := by
  rw [verifyRecentAnchors]
  by_cases hlow : height < 10
  · have hnone : ∀ h, ¬ Recent h height := fun h hr => UInt64.not_le.mpr hlow hr.1
    rw [if_pos hlow]
    refine .inr ⟨[], rfl, fun h hr => absurd hr (hnone h), fun h => ?_⟩
    exact ⟨fun ⟨w, hw, _⟩ => absurd hw List.not_mem_nil, fun hr => absurd hr.1 (hnone h)⟩
  · have hmem := fun h => mem_rounds_recent (h := h) hfuel hheight (UInt64.not_lt.mp hlow)
    rw [if_neg hlow]
    rcases recheckAnchors_spec rpc found (rounds fuel (height - 10) height) with
      ⟨herror, h, hh, hp⟩ | ⟨warnings, hok, hnone, hall⟩
    · exact .inl ⟨herror, h, (hmem h).mp hh, hp⟩
    · exact .inr ⟨warnings, hok, fun h hr => hnone h ((hmem h).mpr hr),
        fun h => (hall h).trans (and_congr_left' (hmem h))⟩

/-- **A pass over the recent anchors.** Whatever was observed before and is observed meanwhile, and
whatever the node answers, the pass panics just when an anchor at one of the last eleven heights is
not what the node answers and one of the two roots is shorter than sixteen bytes; otherwise it logs
the heights whose anchor is not what the node answers.  Only a height whose header is being fetched
when the pass begins can be another than it was then. -/
theorem verifyRecentAnchors_run {ι : Type} [DecidableEq ι] (steps : List (Step ι))
    (later : UInt64 → List (Step ι)) (rpc : UInt64 → Except String BlockHeader) {fuel : ℕ}
    (hfuel : 11 ≤ fuel) (hlatest : (run steps).observer.latestHeight.toNat < 2 ^ 64 - 1) :
    ((verifyRecentAnchors rpc fuel (run steps).observer.latestHeight
        (fun h => (run (steps ++ later h)).observer) = .error .sliceBounds ∧
      ∃ h, Recent h (run steps).observer.latestHeight ∧
        Panics (rpc h) h (run (steps ++ later h)).observer) ∨
    ∃ warnings, verifyRecentAnchors rpc fuel (run steps).observer.latestHeight
        (fun h => (run (steps ++ later h)).observer) = .ok warnings ∧
      (∀ h, Recent h (run steps).observer.latestHeight →
        ¬ Panics (rpc h) h (run (steps ++ later h)).observer) ∧
      ∀ h, (∃ w ∈ warnings, w.height = h) ↔ Recent h (run steps).observer.latestHeight ∧
        ∃ a header, Differs (rpc h) h (run (steps ++ later h)).observer a header) ∧
    ∀ h, Recent h (run steps).observer.latestHeight → (∀ i, (run steps).fetching i ≠ some h) →
      ∀ a header, Differs (rpc h) h (run (steps ++ later h)).observer a header ↔
        Differs (rpc h) h (run steps).observer a header := by
  refine ⟨verifyRecentAnchors_spec rpc _ hfuel hlatest, fun h hr hfree a header => ?_⟩
  have hclosed : Closed (run steps) h := ⟨hr.2.2, hfree⟩
  have hget : getAnchorAtHeight h (run (steps ++ later h)).observer =
      getAnchorAtHeight h (run steps).observer := by
    rw [getAnchorAtHeight, getAnchorAtHeight, run_append, (hclosed.run (later h)).2]
  exact ⟨fun hd => ⟨hget ▸ hd.kept, hd.answered, hd.ne⟩,
    fun hd => ⟨hget.trans hd.kept, hd.answered, hd.ne⟩⟩

/-- A header of block twelve. -/
def someHeader (merkleRoot : String) : BlockHeader where
  hash := ""
  height := 12
  time := 0
  merkleRoot := merkleRoot

/-- One goroutine that has seen block twelve. -/
def seenTwelve : List (Step Unit) :=
  [.height () (.ok 12), .header () (.ok (someHeader "aaaaaaaaaaaaaaaa"))]

theorem getAnchorAtHeight_seenTwelve : getAnchorAtHeight 12 (run seenTwelve).observer =
    .ok (extractAnchorFromBlock (someHeader "aaaaaaaaaaaaaaaa")) := by decide

/-- The node has another block twelve now. -/
theorem verifyRecentAnchors_run_seenTwelve :
    ∃ warnings, verifyRecentAnchors (fun _ => .ok (someHeader "bbbbbbbbbbbbbbbb")) 11 12
      (fun _ => (run seenTwelve).observer) = .ok warnings ∧ ∃ w ∈ warnings, w.height = 12 := by
  have hkept : ¬ Short "aaaaaaaaaaaaaaaa" := by unfold Short; decide
  have hnew : ¬ Short "bbbbbbbbbbbbbbbb" := by unfold Short; decide
  have hlatest : (run seenTwelve).observer.latestHeight = 12 := by decide
  have hspec := (verifyRecentAnchors_run seenTwelve (fun _ => [])
    (fun _ => .ok (someHeader "bbbbbbbbbbbbbbbb")) (Nat.le_refl 11) (by rw [hlatest]; decide)).1
  simp only [List.append_nil, hlatest] at hspec
  rcases hspec with ⟨-, h, hr, a, header, hd, hshort⟩ | ⟨warnings, hok, -, hall⟩
  · obtain ⟨i, seen, ⟨asked, rest, hsteps, -⟩, rfl⟩ :=
      (traced_run seenTwelve).anchors h a (getAnchorAtHeight_eq_ok.mp hd.kept)
    have hseen : Step.header i (.ok seen) ∈ seenTwelve := by
      rw [hsteps]
      exact List.mem_append_right _ List.mem_cons_self
    obtain rfl : seen = someHeader "aaaaaaaaaaaaaaaa" := by simpa [seenTwelve] using hseen
    cases hd.answered
    exact absurd hshort (not_or.mpr ⟨hkept, hnew⟩)
  · exact ⟨warnings, hok, (hall 12).mpr ⟨by unfold Recent; decide, _, _,
      getAnchorAtHeight_seenTwelve, rfl, by decide⟩⟩

end

end BhtBhte.Observer
