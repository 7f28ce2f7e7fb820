import BhtBhte.Channel.Index

/-!
# Closing a channel

An open channel is closed by `CloseChannel` and, a challenge period later, `ConfirmClose`. Nothing
leads out of a dispute: `CloseChannel` wants an open channel, `ConfirmClose` a closing one, and no
operation resolves the dispute, so the balances of a disputed channel stay where they are.  So the
channels that can still be closed are those that are not disputed (`closes_iff`).
-/
namespace BhtBhte.Channel

open BhtBhte.Lib

variable {C : Crypto} {m m' : Manager}

/-- The time at which an operation reads the clock. -/
def Op.time : Op → Option ℕ
  | .openChannel _ _ _ _ now => some now
  | .closeChannel _ _ now => some now
  | .confirmClose _ now => some now
  | _ => none

/-- The clock shows `t` or later at the first operation and never goes back. -/
def Clocked : ℕ → List Op → Prop
  | _, [] => True
  | t, op :: ops => t ≤ op.time.getD t ∧ Clocked (op.time.getD t) ops

/-- The channel at a pointer is closed. -/
def World.Closed (w : World) (k : ℕ) : Prop :=
  ∃ ch, w.manager.heap[k]? = some ch ∧ ch.state = .stateClosed

/-- The channel at a pointer is disputed. -/
def World.Disputed (w : World) (k : ℕ) : Prop :=
  ∃ ch, w.manager.heap[k]? = some ch ∧ ch.state = .stateDisputed

/-! ## No way out of a dispute -/

/-- An operation writes one channel; a disputed one it leaves disputed. -/
theorem heap_of_apply {op : Op} (h : op.apply C m = .ok m') :
    (∃ ch, m'.heap = m.heap ++ [ch]) ∨
    ∃ id k ch ch', m.lookup id = some (k, ch) ∧ m'.heap = m.heap.set k ch' ∧
      (ch.state = .stateDisputed → ch'.state = .stateDisputed) := by
  cases effect_of_apply h with
  | opened hne hle => exact .inl ⟨_, rfl⟩
  | updated hlook hopen hseq htotal hmax hsig =>
      exact .inr ⟨_, _, _, _, hlook, rfl, fun hch => hch⟩
  | closing hlook hopen =>
      refine .inr ⟨_, _, _, _, hlook, rfl, fun hch => ?_⟩
      rw [hopen] at hch
      cases hch
  | closed hlook hclosing =>
      refine .inr ⟨_, _, _, _, hlook, rfl, fun hch => ?_⟩
      rw [hclosing] at hch
      cases hch
  | disputed hlook hclosed => exact .inr ⟨_, _, _, _, hlook, rfl, fun _ => rfl⟩

theorem World.Disputed.exec {k : ℕ} {op : Op} {w : World} (hw : w.Disputed k) :
    (exec C op w).Disputed k := by
  obtain ⟨ch, hch, hstate⟩ := hw
  have hlt := (List.getElem?_eq_some_iff.mp hch).1
  unfold Channel.exec
  split
  · exact ⟨ch, hch, hstate⟩
  · next m' h =>
    rcases heap_of_apply h with ⟨new, hheap⟩ | ⟨id, k', ch', ch'', hlook, hheap, hkept⟩
    · refine ⟨ch, ?_, hstate⟩
      rw [hheap, List.getElem?_append_left hlt]
      exact hch
    · by_cases hkk : k' = k
      · subst hkk
        obtain ⟨-, hk⟩ := lookup_eq_some.mp hlook
        rw [hch, Option.some.injEq] at hk
        refine ⟨ch'', ?_, hkept (hk ▸ hstate)⟩
        rw [hheap]
        exact List.getElem?_set_self hlt
      · refine ⟨ch, ?_, hstate⟩
        rw [hheap]
        exact (List.getElem?_set_ne hkk).trans hch

theorem World.Disputed.run {k : ℕ} {w : World} (hw : w.Disputed k) (ops : List Op) :
    (run C ops w).Disputed k := by
  have hstep : ∀ op v, World.Disputed v k → (Channel.exec C op v).Disputed k := fun _ _ h => h.exec
  exact run_invariant hstep ops hw

theorem World.Disputed.not_closed {k : ℕ} {w : World} (hw : w.Disputed k) : ¬ w.Closed k := by
  obtain ⟨ch, hch, hdisputed⟩ := hw
  rintro ⟨ch', hch', hclosed⟩
  rw [hch, Option.some.injEq] at hch'
  rw [← hch', hdisputed] at hclosed
  cases hclosed

/-! ## The way to the closed state -/

theorem closed_of_confirmClose {w : World} {id : Hash} {k now : ℕ} {ch : PaymentChannel}
    (hlook : w.manager.lookup id = some (k, ch)) (hstate : ch.state = .stateClosing)
    (hnow : ch.challengeEnd ≤ now) : (exec C (.confirmClose id now) w).Closed k := by
  obtain ⟨-, hk⟩ := lookup_eq_some.mp hlook
  have hlt := (List.getElem?_eq_some_iff.mp hk).1
  simp only [exec, Op.apply, confirmClose, hlook, hstate, ne_eq, not_true_eq_false, if_false,
    Nat.not_lt.mpr hnow]
  exact ⟨_, List.getElem?_set_self hlt, rfl⟩

theorem closing_of_closeChannel {w : World} {id : Hash} {k : ℕ} {ch : PaymentChannel}
    (hlook : w.manager.lookup id = some (k, ch)) (hstate : ch.state = .stateOpen) (now : ℕ) :
    ∃ ch', (exec C (.closeChannel id 0 now) w).manager.lookup id = some (k, ch') ∧
      ch'.state = .stateClosing ∧ ch'.challengeEnd = now + challengePeriod := by
  obtain ⟨hid, hk⟩ := lookup_eq_some.mp hlook
  have hlt := (List.getElem?_eq_some_iff.mp hk).1
  have hinitiator : ¬ (0 : UInt8) > 1 := by decide
  simp only [exec, Op.apply, closeChannel, hlook, hstate, ne_eq, not_true_eq_false, if_false,
    hinitiator]
  exact ⟨_, lookup_eq_some.mpr ⟨hid, List.getElem?_set_self hlt⟩, rfl, rfl⟩

/-- **Which channels can still be closed**: after every run, a channel that is not yet
closed can be brought to the closed state by operations at `t` and later exactly when it is
not disputed. -/
theorem closes_iff (C : Crypto) (before : List Op) {id : Hash} {k : ℕ} {ch : PaymentChannel}
    (hlook : (run C before newWorld).manager.lookup id = some (k, ch))
    (hnot : ch.state ≠ .stateClosed) (t : ℕ) :
    (∃ ops, Clocked t ops ∧ (run C ops (run C before newWorld)).Closed k) ↔
      ch.state ≠ .stateDisputed := by
  constructor
  · rintro ⟨ops, -, hclosed⟩ hdisputed
    have hstart : (run C before newWorld).Disputed k :=
      ⟨ch, (lookup_eq_some.mp hlook).2, hdisputed⟩
    exact (hstart.run ops).not_closed hclosed
  · intro hdisputed
    cases hstate : ch.state with
    | stateOpen =>
        obtain ⟨ch', hlook', hclosing, hend⟩ :=
          closing_of_closeChannel (C := C) hlook hstate t
        refine ⟨[.closeChannel id 0 t, .confirmClose id (t + challengePeriod)],
          ⟨Nat.le_refl t, Nat.le_add_right t _, trivial⟩, ?_⟩
        exact closed_of_confirmClose hlook' hclosing hend.le
    | stateClosing =>
        refine ⟨[.confirmClose id (max t ch.challengeEnd)], ⟨Nat.le_max_left .., trivial⟩, ?_⟩
        exact closed_of_confirmClose hlook hstate (Nat.le_max_right ..)
    | stateClosed => exact absurd hstate hnot
    | stateDisputed => exact absurd hstate hdisputed

/-- A channel that has just been opened can be closed. -/
theorem closes_openedChannel :
    ∃ ops, Clocked 5 ops ∧ (run (signedBy firstParty) ops (run (signedBy firstParty)
      [.openChannel firstParty secondParty 9 someRandom 0] newWorld)).Closed 0 := by
  obtain ⟨m, hm, hlook, -⟩ := openChannel_new (d := 9) (by decide)
  refine (@closes_iff (signedBy firstParty) [.openChannel firstParty secondParty 9 someRandom 0]
    (generateChannelID someRandom 0) 0 (openedChannel 9) ?_ (by decide) 5).mpr (by decide)
  simp only [run, List.foldl_cons, List.foldl_nil, exec, Op.apply, newWorld, hm]
  exact hlook

/-- The channel of a run is disputed, and no operations close it. -/
theorem disputed_never_closes :
    ∃ ch, (run (signedBy firstParty) disputedRun newWorld).manager.lookup
        (generateChannelID someRandom 0) = some (0, ch) ∧ ch.state ≠ .stateClosed ∧
      ∀ ops, ¬ (run (signedBy firstParty) ops
        (run (signedBy firstParty) disputedRun newWorld)).Closed 0 := by
  obtain ⟨ch, hlook, hdisputed, -⟩ := manager_disputedRun (signedBy firstParty)
  refine ⟨ch, hlook, by rw [hdisputed]; decide, ?_⟩
  intro ops
  have hstart : (run (signedBy firstParty) disputedRun newWorld).Disputed 0 :=
    ⟨ch, (lookup_eq_some.mp hlook).2, hdisputed⟩
  exact (hstart.run ops).not_closed

end BhtBhte.Channel
