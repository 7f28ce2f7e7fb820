import BhtBhte.Channel.Signatures
import BhtBhte.Lib.Index

/-!
# The indexes of the channel manager

`byState` and `byParticipant` are kept by hand beside the map of channels.  Closing and confirming
move an identifier from one list to another, but `DisputeChannel` compares the state after it has
overwritten it and moves nothing: a disputed channel stays in the list of the state it was in.  On a
run without one the lists partition the channels (`indexed_of_run`).
-/
namespace BhtBhte.Channel

open BhtBhte.Lib

variable {C : Crypto} {m m' : Manager}

/-- The map leads from the identifier to a channel in this state. -/
def Manager.HasState (m : Manager) (id : Hash) (s : ChannelState) : Prop :=
  ∃ k ch, m.lookup id = some (k, ch) ∧ s = ch.state

/-- The map leads from the identifier to a channel of this participant. -/
def Manager.HasParticipant (m : Manager) (id : Hash) (a : Address) : Prop :=
  ∃ k ch, m.lookup id = some (k, ch) ∧ ∃ i, a = ch.participants i

/-- Every channel is in the list of its state and in no other, the queries answer with the
channels of a state, and every channel is listed once under each of its participants. -/
structure Manager.Indexed (m : Manager) : Prop where
  byState : ∀ id k ch, m.lookup id = some (k, ch) →
    ∀ s, (m.byState s).count id = if s = ch.state then 1 else 0
  onlyChannels : ∀ id s, id ∈ m.byState s → (m.lookup id).isSome = true
  getByState : ∀ s, (getChannelsByState s m).Nodup ∧ ∀ e, e ∈ getChannelsByState s m ↔
    (∃ id, m.lookup id = some e) ∧ e.2.state = s
  getOpen : (getOpenChannels m).Nodup ∧ ∀ e, e ∈ getOpenChannels m ↔
    (∃ id, m.lookup id = some e) ∧ e.2.state = .stateOpen
  byParticipant : ∀ id k ch, m.lookup id = some (k, ch) →
    ∀ a, (m.byParticipant a).count id =
      if a = ch.participants 0 ∨ a = ch.participants 1 then 1 else 0

/-- A new channel has an identifier of its own, and no channel that is open or closing is
disputed. -/
def Op.keepsIndex (m : Manager) : Op → Prop
  | .openChannel _ _ _ random now => m.channels (generateChannelID random now) = none
  | .disputeChannel id => ∀ k ch, m.lookup id = some (k, ch) →
      ch.state ≠ .stateOpen ∧ ch.state ≠ .stateClosing
  | _ => True

/-- Every operation of the run finds a manager whose indexes it keeps. -/
def KeepsIndex (C : Crypto) : List Op → World → Prop
  | [], _ => True
  | op :: ops, w => op.keepsIndex w.manager ∧ KeepsIndex C ops (exec C op w)

/-! ## What one operation does to the indexes -/

/-- A channel is added, written without a change of state, or moved from one list to
another. -/
inductive IndexStep (m : Manager) : Manager → Prop
  | opened {id p1 p2 ch m'} (hfree : m.channels id = none) (hne : p1 ≠ p2)
      (hstate : ch.state = .stateOpen) (hparties : ch.participants = ![p1, p2])
      (hheap : m'.heap = m.heap ++ [ch])
      (hchannels : m'.channels = Function.update m.channels id (some m.heap.length))
      (hparticipant : m'.byParticipant =
        let withFirst := Function.update m.byParticipant p1 (m.byParticipant p1 ++ [id])
        Function.update withFirst p2 (withFirst p2 ++ [id]))
      (hindex : m'.byState =
        Function.update m.byState .stateOpen (m.byState .stateOpen ++ [id])) :
      IndexStep m m'
  | written {id k ch ch'} (hlook : m.lookup id = some (k, ch))
      (hparties : ch'.participants = ch.participants) (hstate : ch'.state = ch.state) :
      IndexStep m (m.store k ch')
  | moved {id k ch ch' s} (hlook : m.lookup id = some (k, ch))
      (hparties : ch'.participants = ch.participants) (hstate : ch'.state = s)
      (hleft : s ≠ ch.state) :
      IndexStep m ((m.store k ch').updateStateIndex id ch.state s)

theorem indexStep_of_apply {op : Op} (hkeeps : op.keepsIndex m) (h : op.apply C m = .ok m') :
    IndexStep m m' := by
  cases effect_of_apply h with
  | opened hne hle => exact .opened hkeeps hne rfl rfl rfl rfl rfl rfl
  | updated hlook hopen hseq htotal hmax hsig => exact .written hlook rfl rfl
  | closing hlook hopen =>
      rw [← hopen]
      exact .moved hlook rfl rfl (by rw [hopen]; decide)
  | closed hlook hclosing =>
      rw [← hclosing]
      exact .moved hlook rfl rfl (by rw [hclosing]; decide)
  | @disputed id k ch hlook hclosed =>
      obtain ⟨hopen, hclosing⟩ := hkeeps k ch hlook
      refine .written hlook rfl ?_
      -- the only state left is the one it already has
      cases hstate : ch.state with
      | stateOpen => exact absurd hstate hopen
      | stateClosing => exact absurd hstate hclosing
      | stateClosed => exact absurd hstate hclosed
      | stateDisputed => rfl

/-! ## The invariant -/

/-- The identifier of a channel is the one the map leads from, and pointers are on the
heap. -/
structure Manager.Mapped (m : Manager) : Prop where
  mapped : ∀ id k ch, m.lookup id = some (k, ch) → ch.channelID = id
  pointers : ∀ id k, m.channels id = some k → k < m.heap.length

structure IndexInv (m : Manager) : Prop where
  byState : IndexedBy m.byState m.HasState
  byParticipant : IndexedBy m.byParticipant m.HasParticipant

theorem lookup_store (hm : m.Mapped) {id : Hash} {k : ℕ} {ch : PaymentChannel}
    (hlook : m.lookup id = some (k, ch)) (ch' : PaymentChannel) (id' : Hash) :
    (m.store k ch').lookup id' = if id' = id then some (k, ch') else m.lookup id' := by
  obtain ⟨hid, hk⟩ := lookup_eq_some.mp hlook
  have hlt := (List.getElem?_eq_some_iff.mp hk).1
  split
  · next heq =>
    rw [heq]
    exact lookup_eq_some.mpr ⟨hid, List.getElem?_set_self hlt⟩
  · next hne =>
    cases hchannel : m.channels id' with
    | none => simp [Manager.lookup, Manager.store, hchannel]
    | some k' =>
        have hkk : k ≠ k' := by
          rintro rfl
          have h := hm.mapped id' k ch (lookup_eq_some.mpr ⟨hchannel, hk⟩)
          exact hne (h.symm.trans (hm.mapped id k ch hlook))
        simp [Manager.lookup, Manager.store, hchannel, List.getElem?_set_ne hkk]

theorem lookup_opened (hm : m.Mapped) {id : Hash} {ch : PaymentChannel}
    (hheap : m'.heap = m.heap ++ [ch])
    (hchannels : m'.channels = Function.update m.channels id (some m.heap.length)) (id' : Hash) :
    m'.lookup id' = if id' = id then some (m.heap.length, ch) else m.lookup id' := by
  split
  · next heq =>
    refine lookup_eq_some.mpr ⟨?_, ?_⟩
    · rw [hchannels, heq, Function.update_self]
    · rw [hheap, List.getElem?_concat_length]
  · next hne =>
    rw [Manager.lookup, Manager.lookup, hchannels, Function.update_of_ne hne]
    cases hchannel : m.channels id' with
    | none => rfl
    | some k =>
        have hlt := hm.pointers id' k hchannel
        simp [hheap, List.getElem?_append_left hlt]

theorem hasState_iff {id : Hash} {k : ℕ} {ch : PaymentChannel}
    (hlook : m.lookup id = some (k, ch)) {s : ChannelState} : m.HasState id s ↔ s = ch.state := by
  simp [Manager.HasState, hlook]

theorem hasParticipant_iff {id : Hash} {k : ℕ} {ch : PaymentChannel}
    (hlook : m.lookup id = some (k, ch)) {a : Address} :
    m.HasParticipant id a ↔ a = ch.participants 0 ∨ a = ch.participants 1 := by
  simp [Manager.HasParticipant, hlook, Fin.exists_fin_two]

/-- Where two maps lead to the same channel, it has the same state and participants. -/
theorem hasState_congr {id : Hash} (h : m'.lookup id = m.lookup id) (s : ChannelState) :
    m'.HasState id s ↔ m.HasState id s := by
  simp [Manager.HasState, h]

theorem hasParticipant_congr {id : Hash} (h : m'.lookup id = m.lookup id) (a : Address) :
    m'.HasParticipant id a ↔ m.HasParticipant id a := by
  simp [Manager.HasParticipant, h]

theorem hasParticipant_store (hm : m.Mapped) {id : Hash} {k : ℕ} {ch ch' : PaymentChannel}
    (hlook : m.lookup id = some (k, ch)) (hparties : ch'.participants = ch.participants)
    (id' : Hash) (a : Address) :
    (m.store k ch').HasParticipant id' a ↔ m.HasParticipant id' a := by
  have hstore := lookup_store hm hlook ch' id'
  split at hstore
  · next heq =>
    rw [hasParticipant_iff hstore, heq, hasParticipant_iff hlook, hparties]
  · exact hasParticipant_congr hstore a

namespace IndexInv

theorem opened (hm : m.Mapped) (hinv : IndexInv m) {id : Hash} {p1 p2 : Address}
    {ch : PaymentChannel} (hfree : m.channels id = none) (hne : p1 ≠ p2)
    (hstate : ch.state = .stateOpen) (hparties : ch.participants = ![p1, p2])
    (hheap : m'.heap = m.heap ++ [ch])
    (hchannels : m'.channels = Function.update m.channels id (some m.heap.length))
    (hparticipant : m'.byParticipant =
      let withFirst := Function.update m.byParticipant p1 (m.byParticipant p1 ++ [id])
      Function.update withFirst p2 (withFirst p2 ++ [id]))
    (hindex : m'.byState =
      Function.update m.byState .stateOpen (m.byState .stateOpen ++ [id])) : IndexInv m' := by
  have hlook := lookup_opened hm hheap hchannels
  have hnone : m.lookup id = none := by simp [Manager.lookup, hfree]
  have hnoState : ∀ s, ¬ m.HasState id s := by simp [Manager.HasState, hnone]
  have hnoParticipant : ∀ a, ¬ m.HasParticipant id a := by simp [Manager.HasParticipant, hnone]
  constructor
  · rw [hindex]
    refine (hinv.byState.append (hnoState .stateOpen)).congr fun id' s => ?_
    by_cases hid : id' = id
    · subst hid
      have hlook' := (hlook id').trans (if_pos rfl)
      rw [hasState_iff hlook', hstate]
      simp [hnoState]
    · rw [hasState_congr ((hlook id').trans (if_neg hid))]
      simp [hid]
  · rw [hparticipant]
    have hfirst := hinv.byParticipant.append (hnoParticipant p1)
    refine (hfirst.append (i := id) (k := p2) ?_).congr fun id' a => ?_
    · rintro (h | ⟨-, h⟩)
      · exact hnoParticipant p2 h
      · exact hne h.symm
    by_cases hid : id' = id
    · subst hid
      have hlook' := (hlook id').trans (if_pos rfl)
      rw [hasParticipant_iff hlook', hparties]
      simp [hnoParticipant]
    · rw [hasParticipant_congr ((hlook id').trans (if_neg hid))]
      simp [hid]

theorem written (hm : m.Mapped) (hinv : IndexInv m) {id : Hash} {k : ℕ} {ch ch' : PaymentChannel}
    (hlook : m.lookup id = some (k, ch)) (hparties : ch'.participants = ch.participants)
    (hstate : ch'.state = ch.state) : IndexInv (m.store k ch') := by
  constructor
  · refine hinv.byState.congr fun id' s => ?_
    have hstore := lookup_store hm hlook ch' id'
    split at hstore
    · next heq => rw [hasState_iff hstore, heq, hasState_iff hlook, hstate]
    · exact hasState_congr hstore s
  · exact hinv.byParticipant.congr (hasParticipant_store hm hlook hparties)

theorem moved (hm : m.Mapped) (hinv : IndexInv m) {id : Hash} {k : ℕ} {ch ch' : PaymentChannel}
    {s : ChannelState} (hlook : m.lookup id = some (k, ch))
    (hparties : ch'.participants = ch.participants) (hstate : ch'.state = s)
    (hleft : s ≠ ch.state) :
    IndexInv ((m.store k ch').updateStateIndex id ch.state s) := by
  constructor
  · have hremoved := hinv.byState.filter id ch.state
    refine (hremoved.append (i := id) (k := s) ?_).congr fun id' s' => ?_
    · rintro ⟨h, -⟩
      exact hleft ((hasState_iff hlook).mp h)
    have hstore : ((m.store k ch').updateStateIndex id ch.state s).lookup id' =
        if id' = id then some (k, ch') else m.lookup id' := lookup_store hm hlook ch' id'
    split at hstore
    · next heq =>
      subst heq
      rw [hasState_iff hstore, hasState_iff hlook, hstate]
      simp
    · next hne =>
      rw [hasState_congr hstore]
      simp [hne]
  · exact hinv.byParticipant.congr (hasParticipant_store hm hlook hparties)

theorem step (hm : m.Mapped) (hinv : IndexInv m) (hstep : IndexStep m m') : IndexInv m' := by
  cases hstep with
  | opened hfree hne hstate hparties hheap hchannels hparticipant hindex =>
      exact hinv.opened hm hfree hne hstate hparties hheap hchannels hparticipant hindex
  | written hlook hparties hstate => exact hinv.written hm hlook hparties hstate
  | moved hlook hparties hstate hleft => exact hinv.moved hm hlook hparties hstate hleft

theorem new : IndexInv newChannelManager where
  byState := .empty fun id s h => by
    obtain ⟨k, ch, hlook, -⟩ := h
    cases hlook
  byParticipant := .empty fun id a h => by
    obtain ⟨k, ch, hlook, -⟩ := h
    cases hlook

theorem of_run {ops : List Op} {w : World} (hchannels : ChannelInv w) (hinv : IndexInv w.manager)
    (hkeeps : KeepsIndex C ops w) : IndexInv (run C ops w).manager := by
  induction ops generalizing w with
  | nil => exact hinv
  | cons op ops ih =>
      have hstep : ChannelInv (exec C op w) := exec_of_step hchannels fun _ h => hchannels.step h
      have hindex : IndexInv (exec C op w).manager := by
        unfold exec
        split
        · exact hinv
        · next m' h =>
          exact hinv.step ⟨hchannels.mapped, hchannels.pointers⟩ (indexStep_of_apply hkeeps.1 h)
      exact ih hstep hindex hkeeps.2

end IndexInv

/-! ## The lists and the queries -/

theorem getChannelsByState_of_index (hm : m.Mapped) (hinv : IndexInv m) (s : ChannelState) :
    (getChannelsByState s m).Nodup ∧ ∀ e, e ∈ getChannelsByState s m ↔
      (∃ id, m.lookup id = some e) ∧ e.2.state = s := by
  constructor
  · refine (hinv.byState.nodup s).filterMap fun id id' e hid hid' => ?_
    rw [← hm.mapped id e.1 e.2 hid, hm.mapped id' e.1 e.2 hid']
  · intro e
    rw [getChannelsByState, Manager.getChannels, List.mem_filterMap]
    constructor
    · rintro ⟨id, hid, hlook⟩
      exact ⟨⟨id, hlook⟩, ((hasState_iff hlook).mp ((hinv.byState.mem id s).mp hid)).symm⟩
    · rintro ⟨⟨id, hlook⟩, rfl⟩
      exact ⟨id, (hinv.byState.mem id _).mpr ((hasState_iff hlook).mpr rfl), hlook⟩

theorem indexed_of_index (hm : m.Mapped) (hinv : IndexInv m) : m.Indexed where
  byState _ _ _ hlook _ := hinv.byState.count (hasState_iff hlook)
  onlyChannels id s hid := by
    obtain ⟨k, ch, hlook, -⟩ := (hinv.byState.mem id s).mp hid
    rw [hlook]
    rfl
  getByState := getChannelsByState_of_index hm hinv
  getOpen := getChannelsByState_of_index hm hinv .stateOpen
  byParticipant _ _ _ hlook _ := hinv.byParticipant.count (hasParticipant_iff hlook)

/-- **The indexes over every run**: where no new channel takes an identifier in use and no
open or closing channel is disputed, the lists of `byState` partition the channels by
state, the queries answer with them, and `byParticipant` has each channel once under each
of its participants. -/
theorem indexed_of_run (C : Crypto) (ops : List Op) (hkeeps : KeepsIndex C ops newWorld) :
    (run C ops newWorld).manager.Indexed := by
  have hchannels := ChannelInv.of_run C ops
  exact indexed_of_index ⟨hchannels.mapped, hchannels.pointers⟩
    (IndexInv.of_run ChannelInv.new IndexInv.new hkeeps)

/-- A channel that is opened and then closed by its first participant. -/
def closedRun : List Op :=
  [ .openChannel firstParty secondParty 9 someRandom 0,
    .closeChannel (generateChannelID someRandom 0) 0 1 ]

theorem indexed_closedRun : (run (signedBy firstParty) closedRun newWorld).manager.Indexed :=
  indexed_of_run (signedBy firstParty) closedRun ⟨rfl, trivial, trivial⟩

/-- A channel that is opened and then disputed. -/
def disputedRun : List Op :=
  [ .openChannel firstParty secondParty 9 someRandom 0,
    .disputeChannel (generateChannelID someRandom 0) ]

theorem manager_disputedRun (C : Crypto) : ∃ ch,
    (run C disputedRun newWorld).manager.lookup (generateChannelID someRandom 0) = some (0, ch) ∧
    ch.state = .stateDisputed ∧
    (run C disputedRun newWorld).manager.byState .stateOpen =
      [generateChannelID someRandom 0] := by
  obtain ⟨m, hm, hlook, hstate⟩ := openChannel_new (d := 9) (by decide)
  let disputed := { openedChannel 9 with state := .stateDisputed, disputeNonce := 1 }
  have hrun : (run C disputedRun newWorld).manager = m.store 0 disputed := by
    simp [run, disputedRun, exec, Op.apply, newWorld, hm, disputeChannel, hlook, openedChannel,
      disputed]
  obtain ⟨hid, hk⟩ := lookup_eq_some.mp hlook
  rw [hrun]
  refine ⟨disputed, lookup_eq_some.mpr ⟨hid, ?_⟩, rfl, hstate⟩
  exact List.getElem?_set_self (List.getElem?_eq_some_iff.mp hk).1

/-- A channel that is opened and disputed is still listed as open. -/
theorem openChannels_disputed :
    ¬ (run (signedBy firstParty) disputedRun newWorld).manager.Indexed ∧
    ∃ e ∈ getOpenChannels (run (signedBy firstParty) disputedRun newWorld).manager,
      e.2.state = .stateDisputed := by
  obtain ⟨ch, hlook, hdisputed, hopen⟩ := manager_disputedRun (signedBy firstParty)
  have hmem :
      (0, ch) ∈ getOpenChannels (run (signedBy firstParty) disputedRun newWorld).manager := by
    simp [getOpenChannels, getChannelsByState, Manager.getChannels, hopen, hlook]
  refine ⟨fun h => ?_, (0, ch), hmem, hdisputed⟩
  have hstate := ((h.getOpen.2 (0, ch)).mp hmem).2
  rw [hdisputed] at hstate
  cases hstate

end BhtBhte.Channel
