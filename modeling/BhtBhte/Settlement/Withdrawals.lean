import BhtBhte.Settlement.Calls

/-!
# The life of a withdrawal

Over any run a hash is unknown, pending, paid or challenged, and moves forward
once.  `Lifecycle` ties the stored record of a hash to what the trace says about it;
it survives every call tree, since the flag is set before the recipient gets
control.

What the record says at initiation is another matter: the Merkle leaf is the bare
transaction hash, so the anchored root leaves recipient and amount open.
-/
namespace BhtBhte.Settlement

open BhtBhte.Lib

/-! ## Reading the trace -/

/-- The successful initiations of a hash: recipient, amount and timestamp. -/
def initiations (l2TxHash : Bytes32) (trace : List Entry) : List (Address × ℕ × ℕ) :=
  trace.filterMap fun e =>
    match e.item with
    | .event (.withdrawalInitiated l r a _ _) => if l = l2TxHash then some (r, a, e.time) else none
    | _ => none

/-- The payments made for a hash: recipient, amount and timestamp. -/
def payouts (l2TxHash : Bytes32) (trace : List Entry) : List (Address × ℕ × ℕ) :=
  trace.filterMap fun e =>
    match e.item with
    | .payout l r a => if l = l2TxHash then some (r, a, e.time) else none
    | _ => none

/-- The challengers whose challenge of a hash succeeded. -/
def challenges (l2TxHash : Bytes32) (trace : List Entry) : List Address :=
  trace.filterMap fun e =>
    match e.item with
    | .event (.withdrawalChallenged l challenger _) =>
      if l = l2TxHash then some challenger else none
    | _ => none

/-- The events that move a withdrawal to another phase. -/
def Event.movesWithdrawal : Event → Bool
  | .withdrawalInitiated .. => true
  | .withdrawalChallenged .. => true
  | _ => false

section Views
variable (l : Bytes32) (w : World) (time : ℕ)

@[simp] theorem initiations_append (s t : List Entry) :
    initiations l (s ++ t) = initiations l s ++ initiations l t := by simp [initiations]
@[simp] theorem payouts_append (s t : List Entry) :
    payouts l (s ++ t) = payouts l s ++ payouts l t := by simp [payouts]
@[simp] theorem challenges_append (s t : List Entry) :
    challenges l (s ++ t) = challenges l s ++ challenges l t := by simp [challenges]

/-- Emitting never records a payment. -/
@[simp] theorem payouts_emit (events : List Event) :
    payouts l (w.emit time events).trace = payouts l w.trace := by
  have hnone : payouts l (events.map fun e => ⟨time, .event e⟩) = [] := by
    induction events with
    | nil => rfl
    | cons e es ih => simp [payouts]
  rw [World.emit, payouts_append, hnone, List.append_nil]

/-- An event that moves no withdrawal is in neither view. -/
theorem views_cons_of_not_moves {e : Event} (h : e.movesWithdrawal = false) (trace : List Entry) :
    initiations l (⟨time, .event e⟩ :: trace) = initiations l trace ∧
      challenges l (⟨time, .event e⟩ :: trace) = challenges l trace := by
  cases e with
  | withdrawalInitiated => cases h
  | withdrawalChallenged => cases h
  | _ => exact ⟨rfl, rfl⟩

/-- Events that move no withdrawal leave both views alone. -/
theorem views_emit_of_not_moves {events : List Event}
    (h : ∀ e ∈ events, e.movesWithdrawal = false) :
    initiations l (w.emit time events).trace = initiations l w.trace ∧
      challenges l (w.emit time events).trace = challenges l w.trace := by
  have hnone : initiations l (events.map fun e => ⟨time, .event e⟩) = [] ∧
      challenges l (events.map fun e => ⟨time, .event e⟩) = [] := by
    induction events with
    | nil => exact ⟨rfl, rfl⟩
    | cons e es ih =>
        have htail := ih fun e' he' => h e' (List.mem_cons_of_mem _ he')
        obtain ⟨hini, hch⟩ := views_cons_of_not_moves l time (h e List.mem_cons_self)
          (es.map fun e => ⟨time, .event e⟩)
        exact ⟨hini.trans htail.1, hch.trans htail.2⟩
  simp only [World.emit, initiations_append, challenges_append, hnone.1, hnone.2,
    List.append_nil, and_self]

end Views

/-! ## What the entry points do to withdrawals -/

theorem initiateWithdrawal_eq_ok {P : Primitives} {msg : Msg} {l : Bytes32} {r : Address}
    {a h : ℕ} {proof : List Bytes32} {i : ℕ} {c : State} {res : State × List Event} :
    initiateWithdrawal P msg l r a h proof i c = .ok res ↔
      (c.paused = false ∧ c.entered = false ∧ c.pendingWithdrawals < maxPendingWithdrawals ∧
        r ≠ 0 ∧ a > 0 ∧ (c.withdrawals l).recipient = 0 ∧ (c.anchors h).verified = true ∧
        merkleFold P l proof i = (c.anchors h).stateRoot ∧
        msg.timestamp + challengePeriod < 2 ^ 256 ∧ c.pendingWithdrawals + 1 < 2 ^ 256 ∧
        c.totalWithdrawals + 1 < 2 ^ 256) ∧
      ({ c with
          withdrawals := Function.update c.withdrawals l
            { recipient := r, amount := a, l2TxHash := l, anchorHeight := h
              challengeDeadline := msg.timestamp + challengePeriod }
          pendingWithdrawals := c.pendingWithdrawals + 1
          totalWithdrawals := c.totalWithdrawals + 1 },
        [.withdrawalInitiated l r a h (msg.timestamp + challengePeriod)]) = res := by
  simp only [initiateWithdrawal, require_bind_eq_ok, checkedAdd_bind_eq_ok, pure_eq_ok,
    verifyMerkleProof, Bool.not_eq_true']
  constructor
  · rintro ⟨h₁, h₂, h₃, h₄, h₅, h₆, h₇, h₈, h₉, h₁₀, h₁₁, hres⟩
    simp only [h₇, Bool.true_eq_false, if_false, decide_eq_true_eq] at h₈
    exact ⟨⟨h₁, h₂, h₃, h₄, h₅, h₆, h₇, h₈, h₉, h₁₀, h₁₁⟩, hres⟩
  · rintro ⟨⟨h₁, h₂, h₃, h₄, h₅, h₆, h₇, h₈, h₉, h₁₀, h₁₁⟩, hres⟩
    refine ⟨h₁, h₂, h₃, h₄, h₅, h₆, h₇, ?_, h₉, h₁₀, h₁₁, hres⟩
    simp only [h₇, Bool.true_eq_false, if_false, decide_eq_true_eq]
    exact h₈

/-- A batch writes the commitments and emits nothing. -/
theorem batchAddVerifiedMLDSACommitments_of_ok {P : Primitives} {msg : Msg} {messages : List Bytes32}
    {signatures pubkeys : List (List UInt8)} {c c' : State} {events : List Event}
    (h : batchAddVerifiedMLDSACommitments P msg messages signatures pubkeys c = .ok (c', events)) :
    ∃ commitments, c' = { c with verifiedMLDSACommitments := commitments } ∧ events = [] := by
  simp only [batchAddVerifiedMLDSACommitments, onlyOwner, require_bind_eq_ok] at h
  obtain ⟨-, -, -, h⟩ := h
  cases hadd : addCommitments P (messages.zip (signatures.zip pubkeys))
      c.verifiedMLDSACommitments with
  | error e =>
      rw [hadd] at h
      cases h
  | ok commitments =>
      rw [hadd] at h
      cases h
      exact ⟨commitments, rfl, rfl⟩

/-- A validator is new and added, or known and removed, or nothing changes. -/
theorem setAnchorValidator_of_ok {msg : Msg} {v : Address} {enabled : Bool} {c c' : State}
    {events : List Event} (h : setAnchorValidator msg v enabled c = .ok (c', events)) :
    events = [.anchorValidatorUpdated v enabled] ∧
      ((enabled = true ∧ c.anchorValidators v = false ∧
          c' = { c with
            anchorValidators := Function.update c.anchorValidators v true
            anchorValidatorCount := c.anchorValidatorCount + 1 }) ∨
        (enabled = false ∧ c.anchorValidators v = true ∧
          c.anchorThreshold ≤ c.anchorValidatorCount - 1 ∧
          c' = { c with
            anchorValidators := Function.update c.anchorValidators v false
            anchorValidatorCount := c.anchorValidatorCount - 1 }) ∨
        c' = c) := by
  simp only [setAnchorValidator, onlyOwner, require_bind_eq_ok] at h
  obtain ⟨-, -, h⟩ := h
  split_ifs at h with hadd hremove <;>
    simp only [require_bind_eq_ok, checkedAdd_bind_eq_ok, checkedSub_bind_eq_ok, pure_eq_ok,
      Prod.mk.injEq] at h
  · obtain ⟨-, rfl, rfl⟩ := h
    simp only [Bool.and_eq_true, Bool.not_eq_true'] at hadd
    exact ⟨rfl, .inl ⟨hadd.1, hadd.2, rfl⟩⟩
  · obtain ⟨-, -, hthreshold, rfl, rfl⟩ := h
    simp only [Bool.and_eq_true, Bool.not_eq_true'] at hremove
    exact ⟨rfl, .inr (.inl ⟨hremove.1, hremove.2, hthreshold, rfl⟩)⟩
  · obtain ⟨rfl, rfl⟩ := h
    exact ⟨rfl, .inr (.inr rfl)⟩

/-- The two withdrawal counters are the same. -/
def SameCounters (c c' : State) : Prop :=
  c'.pendingWithdrawals = c.pendingWithdrawals ∧ c'.totalWithdrawals = c.totalWithdrawals

/-- What a call that hands no control out does to the withdrawals and their counters:
nothing, record one, or challenge one. -/
theorem body_withdrawals {P : Primitives} {msg : Msg} {call : Call} {c c' : State}
    {events : List Event} (h : call.body P msg c = .ok (c', events)) :
    (c'.withdrawals = c.withdrawals ∧ SameCounters c c' ∧
      ∀ e ∈ events, e.movesWithdrawal = false) ∨
    (∃ l r a ah, r ≠ 0 ∧ (c.withdrawals l).recipient = 0 ∧ (c.anchors ah).verified = true ∧
      c'.withdrawals = Function.update c.withdrawals l
        { recipient := r, amount := a, l2TxHash := l, anchorHeight := ah
          challengeDeadline := msg.timestamp + challengePeriod } ∧
      (c.pendingWithdrawals < maxPendingWithdrawals ∧
        c'.pendingWithdrawals = c.pendingWithdrawals + 1 ∧
        c'.totalWithdrawals = c.totalWithdrawals + 1) ∧
      events = [.withdrawalInitiated l r a ah (msg.timestamp + challengePeriod)]) ∨
    (∃ l reason, (c.withdrawals l).recipient ≠ 0 ∧ (c.withdrawals l).processed = false ∧
      (c.withdrawals l).challenged = false ∧
      c'.withdrawals = Function.update c.withdrawals l
        { c.withdrawals l with challenged := true } ∧
      (c'.pendingWithdrawals = c.pendingWithdrawals - 1 ∧
        c'.totalWithdrawals = c.totalWithdrawals) ∧
      events = [.withdrawalChallenged l msg.sender reason]) := by
  cases call with
  | initiateWithdrawal l r a ah proof i =>
      obtain ⟨hreq, hres⟩ := initiateWithdrawal_eq_ok.mp h
      cases hres
      obtain ⟨-, -, hroom, hr, -, habs, hver, -⟩ := hreq
      exact .inr (.inl ⟨l, r, a, ah, hr, habs, hver, rfl, ⟨hroom, rfl, rfl⟩, rfl⟩)
  | challengeWithdrawal l reason evidence =>
      simp only [Call.body, challengeWithdrawal, require_bind_eq_ok, checkedSub_bind_eq_ok,
        pure_eq_ok, Bool.not_eq_true', Prod.mk.injEq] at h
      obtain ⟨-, hr, hp, hc, -, -, -, rfl, rfl⟩ := h
      exact .inr (.inr ⟨l, reason, hr, hp, hc, rfl, ⟨rfl, rfl⟩, rfl⟩)
  | processWithdrawal l => simp [Call.body] at h
  | batchAddVerifiedMLDSACommitments ms ss ks =>
      obtain ⟨commitments, rfl, rfl⟩ := batchAddVerifiedMLDSACommitments_of_ok h
      exact .inl ⟨rfl, ⟨rfl, rfl⟩, by simp⟩
  | setAnchorValidator v e =>
      obtain ⟨rfl, ⟨-, -, rfl⟩ | ⟨-, -, -, rfl⟩ | rfl⟩ := setAnchorValidator_of_ok h
      all_goals exact .inl ⟨rfl, ⟨rfl, rfl⟩, by simp [Event.movesWithdrawal]⟩
  | resolveFraudProof bh f =>
      simp only [Call.body, resolveFraudProof, onlyOwner, require_bind_eq_ok, pure_eq_ok,
        Prod.mk.injEq] at h
      obtain ⟨-, -, -, rfl, rfl⟩ := h
      refine .inl ⟨?_, ?_, by simp [Event.movesWithdrawal]⟩
      · split <;> rfl
      · split <;> exact ⟨rfl, rfl⟩
  | _ =>
      -- the remaining entry points write no withdrawal and emit one event of their own
      left
      simp only [Call.body, approveAnchor, submitAnchor, submitFraudProof, updateBridge,
        updateSequencer, setAnchorThreshold, pause, unpause, transferOwnership,
        renounceOwnership, addVerifiedMLDSACommitment, receive, onlyOwner, require_bind_eq_ok,
        checkedAdd_bind_eq_ok, pure_eq_ok, Prod.mk.injEq] at h
      first
        | obtain ⟨rfl, rfl⟩ := h
        | obtain ⟨-, rfl, rfl⟩ := h
        | obtain ⟨-, -, rfl, rfl⟩ := h
        | obtain ⟨-, -, -, rfl, rfl⟩ := h
        | obtain ⟨-, -, -, -, -, -, rfl, rfl⟩ := h
        | obtain ⟨-, -, -, -, -, -, -, rfl, rfl⟩ := h
      exact ⟨rfl, ⟨rfl, rfl⟩, by simp [Event.movesWithdrawal]⟩

/-- The part of `processWithdrawal` before its external call. -/
theorem processWithdrawalEnter_eq_ok {msg : Msg} {l : Bytes32} {c c' : State}
    (h : processWithdrawalEnter msg l c = .ok c') :
    (c.withdrawals l).recipient ≠ 0 ∧ (c.withdrawals l).processed = false ∧
      (c.withdrawals l).challenged = false ∧
      (c.withdrawals l).challengeDeadline ≤ msg.timestamp ∧
      c'.withdrawals = Function.update c.withdrawals l
        { c.withdrawals l with processed := true } ∧
      c'.pendingWithdrawals = c.pendingWithdrawals - 1 ∧
      c'.totalWithdrawals = c.totalWithdrawals := by
  simp only [processWithdrawalEnter, require_bind_eq_ok, checkedSub_bind_eq_ok, pure_eq_ok,
    Bool.not_eq_true'] at h
  obtain ⟨-, -, hr, hp, hc, ht, -, -, rfl⟩ := h
  exact ⟨hr, hp, hc, ht, rfl, rfl, rfl⟩

/-! ## The invariant -/

/-- The four phases of a hash: the stored record against the initiations, payments
and challenges in the trace. -/
inductive Lifecycle : WithdrawalRequest → List (Address × ℕ × ℕ) → List (Address × ℕ × ℕ) →
    List Address → Prop
  | absent {r : WithdrawalRequest} (hr : r.recipient = 0) : Lifecycle r [] [] []
  | pending {r : WithdrawalRequest} {t₀ : ℕ} (hr : r.recipient ≠ 0)
      (hd : r.challengeDeadline = t₀ + challengePeriod) (hp : r.processed = false)
      (hc : r.challenged = false) :
      Lifecycle r [(r.recipient, r.amount, t₀)] [] []
  | paid {r : WithdrawalRequest} {t₀ t : ℕ} (hr : r.recipient ≠ 0) (hp : r.processed = true)
      (ht : t₀ + challengePeriod ≤ t) :
      Lifecycle r [(r.recipient, r.amount, t₀)] [(r.recipient, r.amount, t)] []
  | challenged {r : WithdrawalRequest} {t₀ : ℕ} {challenger : Address} (hr : r.recipient ≠ 0)
      (hp : r.processed = false) (hc : r.challenged = true) :
      Lifecycle r [(r.recipient, r.amount, t₀)] [] [challenger]

/-- Every hash is in one of its phases. -/
def WithdrawalInv (w : World) : Prop :=
  ∀ l, Lifecycle (w.contract.withdrawals l) (initiations l w.trace) (payouts l w.trace)
    (challenges l w.trace)

/-- A call that hands no control out keeps every hash in a phase. -/
theorem WithdrawalInv.body {P : Primitives} {msg : Msg} {call : Call} {w : World} {c : State}
    {events : List Event} (hw : WithdrawalInv w)
    (h : call.body P msg w.contract = .ok (c, events)) :
    WithdrawalInv (World.emit { w with contract := c } msg.timestamp events) := by
  intro l'
  have hpay : payouts l' (World.emit { w with contract := c } msg.timestamp events).trace =
      payouts l' w.trace := payouts_emit l' { w with contract := c } msg.timestamp events
  rw [hpay]
  rcases body_withdrawals h with ⟨hsame, -, hquiet⟩ | ⟨l, r, a, ah, hr, habs, -, hupd, -, rfl⟩ |
    ⟨l, reason, hr, hp, hc, hupd, -, rfl⟩
  · obtain ⟨hini, hch⟩ := views_emit_of_not_moves l' { w with contract := c } msg.timestamp
      hquiet
    rw [hini, hch]
    simpa only [World.emit, hsame] using hw l'
  · -- the hash was unknown, so the trace has nothing on it yet
    by_cases hl : l' = l
    · subst hl
      have hlife := hw l'
      generalize hi : initiations l' w.trace = ini at hlife
      generalize hpo : payouts l' w.trace = pay at hlife
      generalize hco : challenges l' w.trace = cha at hlife
      cases hlife with
      | absent _ =>
          simp only [World.emit, hupd, Function.update_self, initiations_append,
            challenges_append, hi, hco, List.map_cons, List.map_nil]
          simpa [initiations, challenges] using
            Lifecycle.pending (r := { recipient := r, amount := a, l2TxHash := l', anchorHeight := ah
                                      challengeDeadline := msg.timestamp + challengePeriod })
              hr rfl rfl rfl
      | pending h₁ => exact absurd habs h₁
      | paid h₁ => exact absurd habs h₁
      | challenged h₁ => exact absurd habs h₁
    · simpa [World.emit, hupd, Function.update_of_ne hl, initiations, challenges, Ne.symm hl]
        using hw l'
  · by_cases hl : l' = l
    · subst hl
      have hlife := hw l'
      generalize hi : initiations l' w.trace = ini at hlife
      generalize hpo : payouts l' w.trace = pay at hlife
      generalize hco : challenges l' w.trace = cha at hlife
      cases hlife with
      | absent h₁ => exact absurd h₁ hr
      | pending _ _ _ _ =>
          simp only [World.emit, hupd, Function.update_self, initiations_append,
            challenges_append, hi, hco, List.map_cons, List.map_nil]
          simpa [initiations, challenges] using
            Lifecycle.challenged (r := { w.contract.withdrawals l' with challenged := true })
              hr hp rfl
      | paid _ h₂ _ => rw [hp] at h₂; cases h₂
      | challenged _ _ h₃ => rw [hc] at h₃; cases h₃
    · simpa [World.emit, hupd, Function.update_of_ne hl, initiations, challenges, Ne.symm hl]
        using hw l'

/-- When the recipient gets control, the hash being paid is already in its last
phase. -/
theorem WithdrawalInv.payout {msg : Msg} {l : Bytes32} {w : World} {c : State}
    (hw : WithdrawalInv w) (h : processWithdrawalEnter msg l w.contract = .ok c) :
    WithdrawalInv { contract := c
                    trace := w.trace ++ [⟨msg.timestamp, .payout l
                      (w.contract.withdrawals l).recipient
                      (w.contract.withdrawals l).amount⟩] } := by
  obtain ⟨hr, hp, hc, ht, hupd, -⟩ := processWithdrawalEnter_eq_ok h
  intro l'
  by_cases hl : l' = l
  · subst hl
    have hlife := hw l'
    generalize hi : initiations l' w.trace = ini at hlife
    generalize hpo : payouts l' w.trace = pay at hlife
    generalize hco : challenges l' w.trace = cha at hlife
    cases hlife with
    | absent h₁ => exact absurd h₁ hr
    | pending _ hd _ _ =>
        simp only [hupd, Function.update_self, initiations_append, payouts_append,
          challenges_append, hi, hpo, hco]
        simpa [initiations, payouts, challenges] using
          Lifecycle.paid (r := { w.contract.withdrawals l' with processed := true })
            hr rfl (hd ▸ ht)
    | paid _ h₂ _ => rw [hp] at h₂; cases h₂
    | challenged _ _ h₃ => rw [hc] at h₃; cases h₃
  · simpa [hupd, Function.update_of_ne hl, initiations, payouts, challenges, Ne.symm hl]
      using hw l'

/-- What follows a payment touches no withdrawal. -/
theorem WithdrawalInv.exit {l : Bytes32} {w : World} (hw : WithdrawalInv w) (time : ℕ) :
    WithdrawalInv (World.emit { w with contract := (processWithdrawalExit l w.contract).1 } time
      (processWithdrawalExit l w.contract).2) := by
  intro l'
  have hquiet : ∀ e ∈ (processWithdrawalExit l w.contract).2, e.movesWithdrawal = false := by
    simp [processWithdrawalExit, Event.movesWithdrawal]
  obtain ⟨hini, hch⟩ := views_emit_of_not_moves l'
    { w with contract := (processWithdrawalExit l w.contract).1 } time hquiet
  rw [hini, hch, payouts_emit]
  exact hw l'

theorem withdrawalInv_preserved (P : Primitives) (time : ℕ) :
    Preserved (enter P time) WithdrawalInv :=
  Preserved.of_calls (fun hw h => hw.body h) (fun hw h => hw.payout h) fun hw => hw.exit time

theorem withdrawalInv_reachable {P : Primitives} {w : World} (hw : Reachable P w) :
    WithdrawalInv w := by
  refine Reachable.induction ?_ (withdrawalInv_preserved P) hw
  intro msg bridge sequencer verifier c hc l
  simp only [constructor, require_bind_eq_ok, pure_eq_ok] at hc
  obtain ⟨-, -, -, rfl⟩ := hc
  exact Lifecycle.absent rfl

/-- Over every run, re-entrant and reverting calls included, a hash is paid at most
once, with the recipient and amount of its only initiation, a full challenge period
after it, and only if no challenge of it ever succeeded. -/
theorem payouts_of_reachable {P : Primitives} {w : World} (hw : Reachable P w)
    (l2TxHash : Bytes32) :
    (payouts l2TxHash w.trace).length ≤ 1 ∧
      ∀ recipient amount time, (recipient, amount, time) ∈ payouts l2TxHash w.trace →
        (∃ t₀, initiations l2TxHash w.trace = [(recipient, amount, t₀)] ∧
          t₀ + challengePeriod ≤ time) ∧
        challenges l2TxHash w.trace = [] := by
  have hlife := withdrawalInv_reachable hw l2TxHash
  generalize initiations l2TxHash w.trace = ini at hlife ⊢
  generalize payouts l2TxHash w.trace = pay at hlife ⊢
  generalize challenges l2TxHash w.trace = cha at hlife ⊢
  cases hlife with
  | absent => simp
  | pending => simp
  | challenged => simp
  | paid _ _ ht =>
      refine ⟨by simp, ?_⟩
      intro recipient amount time hmem
      simp only [List.mem_singleton, Prod.mk.injEq] at hmem
      obtain ⟨rfl, rfl, rfl⟩ := hmem
      exact ⟨⟨_, rfl, ht⟩, rfl⟩

/-! ## A run with a re-entrant recipient -/

/-- Primitives for fixed runs; no call below depends on a hash being computed. -/
def fixedPrimitives : Primitives where
  keccak256 _ := 0
  ecrecover _ _ _ _ := 0

/-- A bridge at `0xb0`, a sequencer at `0x5e` and a validator at `0xfe`. -/
def deployed : State := (constructor ⟨0xad, 0⟩ 0xb0 0x5e 0xfe).toOption.get rfl

theorem reachable_run_deployed (P : Primitives) (ts : List Transaction) :
    Reachable P (run P ts ⟨deployed, []⟩) :=
  ⟨⟨0xad, 0⟩, 0xb0, 0x5e, 0xfe, deployed, ts, rfl, rfl⟩

/-- Anchor the root `7` at height `1`, fund the contract and withdraw to `0xaa`, who
tries to withdraw again and to challenge while being paid. -/
def reentrantRun : List Transaction :=
  [ ⟨0, .call (0xfe, .approveAnchor 1 7 9) [] true⟩,
    ⟨0, .call (0x5e, .submitAnchor 1 7 9 []) [] true⟩,
    ⟨0, .call (0xcc, .receive 50) [] true⟩,
    ⟨10, .call (0xaa, .initiateWithdrawal 7 0xaa 20 1 [] 0) [] true⟩,
    ⟨10 + challengePeriod, .call (0xaa, .processWithdrawal 7)
      [.call (0xaa, .processWithdrawal 7) [] true,
       .call (0xaa, .challengeWithdrawal 7 "again" [1]) [] true] true⟩ ]

/-- The recipient of `reentrantRun` is paid once, and the guarantees apply to it. -/
theorem payouts_reentrantRun :
    payouts 7 (run fixedPrimitives reentrantRun ⟨deployed, []⟩).trace =
        [(0xaa, 20, 10 + challengePeriod)] ∧
      challenges 7 (run fixedPrimitives reentrantRun ⟨deployed, []⟩).trace = [] := by
  have hpaid : payouts 7 (run fixedPrimitives reentrantRun ⟨deployed, []⟩).trace =
      [(0xaa, 20, 10 + challengePeriod)] := by decide +kernel
  refine ⟨hpaid, ?_⟩
  refine ((payouts_of_reachable (reachable_run_deployed _ reentrantRun) 7).2 0xaa 20
    (10 + challengePeriod) ?_).2
  rw [hpaid]
  exact List.mem_singleton_self _

/-! ## What the anchored root fixes -/

/-- Some call with this hash, recipient and amount against an anchor with this root
succeeds. -/
def CanInitiate (P : Primitives) (c : State) (root l2TxHash : Bytes32) (recipient : Address)
    (amount : ℕ) : Prop :=
  ∃ msg anchorHeight merkleProof leafIndex res,
    (c.anchors anchorHeight).stateRoot = root ∧
    initiateWithdrawal P msg l2TxHash recipient amount anchorHeight merkleProof leafIndex c
      = .ok res

/-- The hash is a leaf, by some branch, of a verified anchor with this root. -/
def Anchored (P : Primitives) (c : State) (root l2TxHash : Bytes32) : Prop :=
  ∃ anchorHeight merkleProof leafIndex, (c.anchors anchorHeight).verified = true ∧
    (c.anchors anchorHeight).stateRoot = root ∧ merkleFold P l2TxHash merkleProof leafIndex = root

/-- Once the hash is anchored and the contract takes withdrawals, every recipient
and every amount pass. -/
theorem canInitiate_of_anchored {P : Primitives} {c : State} {root l2TxHash : Bytes32}
    (hp : c.paused = false) (he : c.entered = false)
    (hn : c.pendingWithdrawals < maxPendingWithdrawals)
    (hl : (c.withdrawals l2TxHash).recipient = 0) (ht : c.totalWithdrawals + 1 < 2 ^ 256)
    (ha : Anchored P c root l2TxHash) {recipient : Address} {amount : ℕ} (hr : recipient ≠ 0)
    (hpos : amount > 0) : CanInitiate P c root l2TxHash recipient amount := by
  obtain ⟨anchorHeight, merkleProof, leafIndex, hv, hroot, hfold⟩ := ha
  refine ⟨⟨0, 0⟩, anchorHeight, merkleProof, leafIndex, _, hroot,
    initiateWithdrawal_eq_ok.mpr ⟨⟨hp, he, hn, hr, hpos, hl, hv, hfold.trans hroot.symm, ?_, ?_,
      ht⟩, rfl⟩⟩
  · simp [challengePeriod]
  · simp only [maxPendingWithdrawals] at hn; omega

/-- A root and a hash fix recipient and amount only where no withdrawal of that hash
against that root can be initiated at all. -/
theorem canInitiate_unique_iff (P : Primitives) (c : State) (root l2TxHash : Bytes32) :
    (∀ r a r' a', CanInitiate P c root l2TxHash r a → CanInitiate P c root l2TxHash r' a' →
        r = r' ∧ a = a') ↔
      (c.paused = true ∨ c.entered = true ∨ maxPendingWithdrawals ≤ c.pendingWithdrawals ∨
        (c.withdrawals l2TxHash).recipient ≠ 0 ∨ 2 ^ 256 ≤ c.totalWithdrawals + 1 ∨
        ¬ Anchored P c root l2TxHash) := by
  constructor
  · intro huniq
    by_contra hcond
    simp only [not_or, Bool.not_eq_true, Nat.not_le, not_not] at hcond
    obtain ⟨hp, he, hn, hl, ht, ha⟩ := hcond
    have hopen : ∀ a > 0, CanInitiate P c root l2TxHash 1 a := fun a ha' =>
      canInitiate_of_anchored hp he hn hl ht ha (by decide) ha'
    have h := (huniq 1 1 1 2 (hopen 1 (by decide)) (hopen 2 (by decide))).2
    exact absurd h (by decide)
  · rintro hcond r a r' a' ⟨msg, ah, proof, i, res, hroot, hok⟩ -
    exfalso
    obtain ⟨⟨hp, he, hn, -, -, hl, hv, hfold, -, -, ht⟩, -⟩ := initiateWithdrawal_eq_ok.mp hok
    rcases hcond with h | h | h | h | h | h
    · rw [hp] at h; cases h
    · rw [he] at h; cases h
    · omega
    · exact h hl
    · omega
    · exact h ⟨ah, proof, i, hv, hroot, hfold.trans hroot⟩

/-- `deployed` after its validator approved the root `7` at height `1`. -/
def approved (P : Primitives) : State :=
  { deployed with
    anchorApprovals := Function.update deployed.anchorApprovals (anchorId P 1 7 9)
      (Function.update (deployed.anchorApprovals (anchorId P 1 7 9)) 0xfe true)
    anchorApprovalCount := Function.update deployed.anchorApprovalCount (anchorId P 1 7 9) 1 }

/-- `approved` after its sequencer submitted that anchor. -/
def anchored (P : Primitives) : State :=
  { approved P with
    anchors := Function.update deployed.anchors 1
      { stateRoot := 7, blockHeight := 1, timestamp := 0, txHash := 9, verified := true }
    anchorProofHashes := Function.update deployed.anchorProofHashes 1 (P.keccak256 [])
    latestAnchorHeight := 1
    totalAnchors := 1 }

theorem approveAnchor_deployed (P : Primitives) :
    approveAnchor P ⟨0xfe, 0⟩ 1 7 9 deployed =
      .ok (approved P, [.anchorApproved 1 7 9 0xfe 1]) := by
  simp only [approveAnchor, require_bind_eq_ok, checkedAdd_bind_eq_ok, pure_eq_ok]
  exact ⟨rfl, rfl, by decide, by decide, rfl, (by decide : 0 + 1 < 2 ^ 256), rfl⟩

theorem submitAnchor_approved (P : Primitives) :
    submitAnchor P ⟨0x5e, 0⟩ 1 7 9 [] (approved P) =
      .ok (anchored P, [.anchorSubmitted 1 7 9 (P.keccak256 []) 0]) := by
  have hcount : (approved P).anchorApprovalCount (anchorId P 1 7 9) = 1 :=
    Function.update_self ..
  have hproof : verifyAnchorProof P (approved P) 1 7 9 [] = true := by
    have hthreshold : (approved P).anchorThreshold = 1 := rfl
    rw [verifyAnchorProof, if_neg (by rw [hthreshold]; decide),
      if_pos (Nat.le_of_eq (hthreshold.trans hcount.symm))]
  simp only [submitAnchor, require_bind_eq_ok, checkedAdd_bind_eq_ok, pure_eq_ok]
  exact ⟨rfl, rfl, rfl, (by decide : 1 > 0), by decide, hproof, (by decide : 0 + 1 < 2 ^ 256),
    rfl⟩

/-- The first two transactions of `reentrantRun` reach `anchored`. -/
theorem contract_run_anchor (P : Primitives) :
    (run P (reentrantRun.take 2) ⟨deployed, []⟩).contract = anchored P := by
  simp only [run, reentrantRun, List.take_succ_cons, List.take_zero, Action.exec, enter,
    Call.body, approveAnchor_deployed, World.emit, submitAnchor_approved]

/-- There every recipient and every amount are open. -/
theorem canInitiate_anchored (P : Primitives) {recipient : Address} {amount : ℕ}
    (hr : recipient ≠ 0) (hpos : amount > 0) : CanInitiate P (anchored P) 7 7 recipient amount :=
  canInitiate_of_anchored rfl rfl (by decide : 0 < maxPendingWithdrawals) rfl
    (by decide : 0 + 1 < 2 ^ 256) ⟨1, [], 0, rfl, rfl, rfl⟩ hr hpos

/-- After one approved anchor, two different payouts of one hash are both open. -/
theorem canInitiate_two_pairs :
    ∃ w, Reachable fixedPrimitives w ∧ CanInitiate fixedPrimitives w.contract 7 7 0xaa 20 ∧
      CanInitiate fixedPrimitives w.contract 7 7 0xbb 1000000 := by
  refine ⟨_, reachable_run_deployed fixedPrimitives (reentrantRun.take 2), ?_⟩
  rw [contract_run_anchor]
  exact ⟨canInitiate_anchored _ (by decide) (by decide),
    canInitiate_anchored _ (by decide) (by decide)⟩

end BhtBhte.Settlement
