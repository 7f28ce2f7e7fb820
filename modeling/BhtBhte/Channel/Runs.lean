import BhtBhte.Channel.Manager
import BhtBhte.Lib.Runs

/-!
# Runs of a channel manager

A world is a manager with what it has accepted so far: the deposits of the channels in
the order of the heap, and the balance updates.  `ManagerStep` says once what an
operation that succeeds does; `ChannelInv` follows the money from it.  The total of an
update is compared in wrapping arithmetic, which is sound because both the old balances
and the accepted ones are far below half the range of a word.
-/
namespace BhtBhte.Channel

open BhtBhte.Lib

/-- An accepted balance update and the channel it found. -/
structure Update where
  pointer : ℕ
  before : PaymentChannel
  newBalance : Fin 2 → UInt64
  seq : UInt64
  signature : List UInt8

/-- The manager with a log of what the operations did. -/
structure World where
  manager : Manager
  deposits : List UInt64
  updates : List Update

def newWorld : World := ⟨newChannelManager, [], []⟩

/-- The deposit an operation makes when it succeeds. -/
def Op.deposit : Op → List UInt64
  | .openChannel _ _ d _ _ => [d]
  | _ => []

/-- The update an operation makes when it succeeds. -/
def Op.accepted (m : Manager) : Op → List Update
  | .updateBalance id nb seq sig => (m.lookup id).toList.map fun e => ⟨e.1, e.2, nb, seq, sig⟩
  | _ => []

def exec (C : Crypto) (op : Op) (w : World) : World :=
  match op.apply C w.manager with
  | .error _ => w
  | .ok m =>
    { manager := m, deposits := w.deposits ++ op.deposit
      updates := w.updates ++ op.accepted w.manager }

def run (C : Crypto) (ops : List Op) (w : World) : World := ops.foldl (fun w op => exec C op w) w

/-! ## What one operation does -/

/-- Everything a successful operation does to the heap and the map, with its guards. -/
inductive ManagerStep (C : Crypto) (m : Manager) : Op → Manager → Prop
  | opened {p1 p2 d random now m'} (hne : p1 ≠ p2) (hle : d ≤ maxChannelAmount)
      (hheap : m'.heap = m.heap ++ [{ channelID := generateChannelID random now
                                      participants := ![p1, p2], balance := ![d, 0]
                                      openTime := now }])
      (hchannels : m'.channels =
        Function.update m.channels (generateChannelID random now) (some m.heap.length)) :
      ManagerStep C m (.openChannel p1 p2 d random now) m'
  | updated {id nb seq sig k ch} (hlook : m.lookup id = some (k, ch))
      (hopen : ch.state = .stateOpen) (hseq : ch.sequence < seq)
      (htotal : nb 0 + nb 1 = ch.balance 0 + ch.balance 1)
      (hmax : ∀ i, nb i ≤ maxChannelBalance)
      (hsig : verifyChannelSignature C ch nb seq sig = true) :
      ManagerStep C m (.updateBalance id nb seq sig)
        (m.store k { ch with balance := nb, sequence := seq })
  | moved {op id k ch ch' m'} (hquiet : op.deposit = [] ∧ op.accepted m = [])
      (hlook : m.lookup id = some (k, ch)) (hheap : m'.heap = m.heap.set k ch')
      (hchannels : m'.channels = m.channels) (hid : ch'.channelID = ch.channelID)
      (hparticipants : ch'.participants = ch.participants) (hbalance : ch'.balance = ch.balance)
      (hseq : ch'.sequence = ch.sequence) (hleft : ch'.state ≠ .stateOpen) :
      ManagerStep C m op m'

theorem managerStep_of_apply {C : Crypto} {op : Op} {m m' : Manager}
    (h : op.apply C m = .ok m') : ManagerStep C m op m' := by
  cases effect_of_apply h with
  | opened hne hle => exact .opened hne hle rfl rfl
  | updated hlook hopen hseq htotal hmax hsig =>
      exact .updated hlook hopen hseq htotal hmax hsig
  | closing hlook hopen => exact .moved ⟨rfl, rfl⟩ hlook rfl rfl rfl rfl rfl rfl (by simp)
  | closed hlook hclosing => exact .moved ⟨rfl, rfl⟩ hlook rfl rfl rfl rfl rfl rfl (by simp)
  | disputed hlook hclosed => exact .moved ⟨rfl, rfl⟩ hlook rfl rfl rfl rfl rfl rfl (by simp)

theorem lookup_eq_some {m : Manager} {id : Hash} {k : ℕ} {ch : PaymentChannel} :
    m.lookup id = some (k, ch) ↔ m.channels id = some k ∧ m.heap[k]? = some ch := by
  simp only [Manager.lookup, Option.bind_eq_some_iff, Option.map_eq_some_iff, Prod.mk.injEq]
  constructor
  · rintro ⟨k', hk', ch', hch', rfl, rfl⟩
    exact ⟨hk', hch'⟩
  · rintro ⟨hk, hch⟩
    exact ⟨k, hk, ch, hch, rfl, rfl⟩

/-- An invariant is kept by every operation if it is kept by every step. -/
theorem exec_of_step {C : Crypto} {Inv : World → Prop} {op : Op} {w : World} (hw : Inv w)
    (hstep : ∀ m', ManagerStep C w.manager op m' →
      Inv { manager := m', deposits := w.deposits ++ op.deposit
            updates := w.updates ++ op.accepted w.manager }) : Inv (exec C op w) := by
  unfold exec
  split
  · exact hw
  · next m' h => exact hstep m' (managerStep_of_apply h)

/-! ## The money of a channel -/

/-- A channel holds exactly its deposit, within the bounds, and has two participants. -/
structure Sound (d : UInt64) (ch : PaymentChannel) : Prop where
  total : (ch.balance 0).toNat + (ch.balance 1).toNat = d.toNat
  bounded : ∀ i, ch.balance i ≤ maxChannelBalance
  distinct : ch.participants 0 ≠ ch.participants 1

/-- Equal sums of words below the bound are equal sums of numbers. -/
theorem total_eq_of_wrapping {a b c d : UInt64} (ha : a ≤ maxChannelBalance)
    (hb : b ≤ maxChannelBalance) (hc : c ≤ maxChannelBalance) (hd : d ≤ maxChannelBalance)
    (h : a + b = c + d) : a.toNat + b.toNat = c.toNat + d.toNat := by
  have hmax : maxChannelBalance.toNat = 1000000000000000000 := rfl
  rw [UInt64.le_iff_toNat_le, hmax] at ha hb hc hd
  have hsum := congrArg UInt64.toNat h
  rw [UInt64.toNat_add, UInt64.toNat_add] at hsum
  omega

theorem Sound.update {d : UInt64} {ch : PaymentChannel} (hch : Sound d ch)
    {nb : Fin 2 → UInt64} {seq : UInt64} (htotal : nb 0 + nb 1 = ch.balance 0 + ch.balance 1)
    (hmax : ∀ i, nb i ≤ maxChannelBalance) :
    Sound d { ch with balance := nb, sequence := seq } where
  total := by
    rw [← hch.total]
    exact total_eq_of_wrapping (hmax 0) (hmax 1) (hch.bounded 0) (hch.bounded 1) htotal
  bounded := hmax
  distinct := hch.distinct

/-- The money, the map and the order of the accepted updates. -/
structure ChannelInv (w : World) : Prop where
  length : w.deposits.length = w.manager.heap.length
  sound : ∀ (k : ℕ) ch, w.manager.heap[k]? = some ch → ∃ d, w.deposits[k]? = some d ∧ Sound d ch
  mapped : ∀ id k ch, w.manager.lookup id = some (k, ch) → ch.channelID = id
  pointers : ∀ id k, w.manager.channels id = some k → k < w.manager.heap.length
  ordered : ∀ k, ((w.updates.filter (·.pointer = k)).map Update.seq).Pairwise (· < ·)
  below : ∀ u ∈ w.updates, ∃ ch, w.manager.heap[u.pointer]? = some ch ∧ u.seq ≤ ch.sequence
  kept : ∀ u ∈ w.updates, u.before.sequence < u.seq ∧
    (u.before.balance 0).toNat + (u.before.balance 1).toNat =
      (u.newBalance 0).toNat + (u.newBalance 1).toNat

namespace ChannelInv
variable {C : Crypto} {w : World}

theorem new : ChannelInv newWorld where
  length := rfl
  sound := by
    intro k ch h
    cases h
  mapped := by
    intro id k ch h
    cases h
  pointers := by
    intro id k h
    cases h
  ordered _ := .nil
  below := by
    intro u hu
    cases hu
  kept := by
    intro u hu
    cases hu

/-- A channel goes on top of the heap. -/
theorem opened (hw : ChannelInv w) {m' : Manager} {ch : PaymentChannel} {d : UInt64}
    (hsound : Sound d ch) (hheap : m'.heap = w.manager.heap ++ [ch])
    (hchannels : m'.channels =
      Function.update w.manager.channels ch.channelID (some w.manager.heap.length)) :
    ChannelInv { manager := m', deposits := w.deposits ++ [d], updates := w.updates } where
  length := by
    rw [hheap, List.length_append, List.length_append, hw.length]
    rfl
  sound := by
    intro k ch' hk
    have hlt := (List.getElem?_eq_some_iff.mp hk).1
    rw [hheap, List.length_append, List.length_singleton, Nat.lt_succ_iff] at hlt
    rcases hlt.lt_or_eq with hlt | rfl
    · rw [hheap, List.getElem?_append_left hlt] at hk
      obtain ⟨d', hd', hs⟩ := hw.sound k ch' hk
      exact ⟨d', by rw [List.getElem?_append_left (hw.length ▸ hlt)]; exact hd', hs⟩
    · rw [hheap, List.getElem?_concat_length, Option.some.injEq] at hk
      subst hk
      exact ⟨d, by rw [← hw.length, List.getElem?_concat_length], hsound⟩
  mapped := by
    intro id k ch' hlook
    rw [lookup_eq_some, hchannels, hheap] at hlook
    obtain ⟨hk, hch'⟩ := hlook
    by_cases hid : id = ch.channelID
    · subst hid
      rw [Function.update_self, Option.some.injEq] at hk
      subst hk
      rw [List.getElem?_concat_length, Option.some.injEq] at hch'
      rw [← hch']
    · rw [Function.update_of_ne hid] at hk
      have hlt := hw.pointers id k hk
      rw [List.getElem?_append_left hlt] at hch'
      exact hw.mapped id k ch' (lookup_eq_some.mpr ⟨hk, hch'⟩)
  pointers := by
    intro id k hk
    rw [hchannels] at hk
    rw [hheap, List.length_append, List.length_singleton]
    by_cases hid : id = ch.channelID
    · subst hid
      rw [Function.update_self, Option.some.injEq] at hk
      omega
    · rw [Function.update_of_ne hid] at hk
      have hlt := hw.pointers id k hk
      omega
  ordered := hw.ordered
  below := by
    intro u hu
    obtain ⟨ch', hch', hle⟩ := hw.below u hu
    have hlt := (List.getElem?_eq_some_iff.mp hch').1
    exact ⟨ch', by rw [hheap, List.getElem?_append_left hlt]; exact hch', hle⟩
  kept := hw.kept

/-- An object is written in place: sound as before, with no smaller sequence number. -/
theorem stored (hw : ChannelInv w) {m' : Manager} {k : ℕ} {ch ch' : PaymentChannel}
    (hk : w.manager.heap[k]? = some ch) (hheap : m'.heap = w.manager.heap.set k ch')
    (hchannels : m'.channels = w.manager.channels) (hid : ch'.channelID = ch.channelID)
    (hsound : ∀ d, Sound d ch → Sound d ch') (hseq : ch.sequence ≤ ch'.sequence) :
    ChannelInv { w with manager := m' } := by
  have hlt := (List.getElem?_eq_some_iff.mp hk).1
  have hset : ∀ k', m'.heap[k']? = if k = k' then some ch' else w.manager.heap[k']? := by
    intro k'
    rw [hheap, List.getElem?_set]
    by_cases hkk : k = k'
    · subst hkk
      simp [hlt]
    · simp [hkk]
  constructor
  · rw [hheap, List.length_set]
    exact hw.length
  · intro k' c hc
    rw [hset] at hc
    split at hc
    · next hkk =>
      subst hkk
      cases hc
      obtain ⟨d, hd, hs⟩ := hw.sound k ch hk
      exact ⟨d, hd, hsound d hs⟩
    · exact hw.sound k' c hc
  · intro id k' c hlook
    rw [lookup_eq_some, hchannels] at hlook
    obtain ⟨hk', hc⟩ := hlook
    rw [hset] at hc
    split at hc
    · next hkk =>
      subst hkk
      cases hc
      rw [hid]
      exact hw.mapped id k ch (lookup_eq_some.mpr ⟨hk', hk⟩)
    · exact hw.mapped id k' c (lookup_eq_some.mpr ⟨hk', hc⟩)
  · intro id k' hk'
    rw [hchannels] at hk'
    rw [hheap, List.length_set]
    exact hw.pointers id k' hk'
  · exact hw.ordered
  · intro u hu
    obtain ⟨c, hc, hle⟩ := hw.below u hu
    by_cases hkk : k = u.pointer
    · rw [← hkk, hk, Option.some.injEq] at hc
      subst hc
      exact ⟨ch', by rw [hset, if_pos hkk], UInt64.le_trans hle hseq⟩
    · exact ⟨c, by rw [hset, if_neg hkk]; exact hc, hle⟩
  · exact hw.kept

/-- An update above all earlier ones of its channel is recorded. -/
theorem accepted (hw : ChannelInv w) {u : Update}
    (hfresh : ∀ u' ∈ w.updates, u'.pointer = u.pointer → u'.seq < u.seq)
    (hlast : ∃ ch, w.manager.heap[u.pointer]? = some ch ∧ u.seq ≤ ch.sequence)
    (hkept : u.before.sequence < u.seq ∧
      (u.before.balance 0).toNat + (u.before.balance 1).toNat =
        (u.newBalance 0).toNat + (u.newBalance 1).toNat) :
    ChannelInv { w with updates := w.updates ++ [u] } where
  length := hw.length
  sound := hw.sound
  mapped := hw.mapped
  pointers := hw.pointers
  ordered := by
    intro k
    rw [List.filter_append, List.map_append, List.pairwise_append]
    refine ⟨hw.ordered k, ?_, ?_⟩
    · by_cases hk : u.pointer = k <;> simp [hk]
    · intro x hx y hy
      obtain ⟨u', hu', rfl⟩ := List.mem_map.mp hx
      obtain ⟨v, hv, rfl⟩ := List.mem_map.mp hy
      simp only [List.mem_filter, decide_eq_true_eq, List.mem_singleton] at hu' hv
      obtain ⟨rfl, hvk⟩ := hv
      exact hfresh u' hu'.1 (hu'.2.trans hvk.symm)
  below := by
    intro u' hu'
    rcases List.mem_append.mp hu' with hu' | hu'
    · exact hw.below u' hu'
    · rw [List.mem_singleton.mp hu']
      exact hlast
  kept := by
    intro u' hu'
    rcases List.mem_append.mp hu' with hu' | hu'
    · exact hw.kept u' hu'
    · rw [List.mem_singleton.mp hu']
      exact hkept

theorem step {op : Op} {m' : Manager} (hw : ChannelInv w)
    (hstep : ManagerStep C w.manager op m') :
    ChannelInv { manager := m', deposits := w.deposits ++ op.deposit
                 updates := w.updates ++ op.accepted w.manager } := by
  cases hstep with
  | @opened p1 p2 d random now _ hne hle hheap hchannels =>
      have hsound : Sound d { channelID := generateChannelID random now
                              participants := ![p1, p2], balance := ![d, 0], openTime := now } := by
        refine ⟨by simp, ?_, by simpa using hne⟩
        exact Fin.forall_fin_two.mpr ⟨hle, UInt64.zero_le⟩
      simpa [Op.deposit, Op.accepted] using hw.opened hsound hheap hchannels
  | @updated id nb seq sig k ch hlook hopen hseq htotal hmax hsig =>
      obtain ⟨-, hk⟩ := lookup_eq_some.mp hlook
      obtain ⟨d, -, hs⟩ := hw.sound k ch hk
      have hstored : ChannelInv { w with
          manager := w.manager.store k { ch with balance := nb, sequence := seq } } :=
        hw.stored hk rfl rfl rfl (fun _ hs => hs.update htotal hmax) (UInt64.le_of_lt hseq)
      have hacc := hstored.accepted (u := ⟨k, ch, nb, seq, sig⟩) ?_ ?_ ⟨hseq, ?_⟩
      · simpa [Op.deposit, Op.accepted, hlook] using hacc
      · intro u' hu' hpointer
        obtain ⟨c, hc, hle⟩ := hw.below u' hu'
        rw [hpointer, hk, Option.some.injEq] at hc
        subst hc
        exact UInt64.lt_of_le_of_lt hle hseq
      · have hlt := (List.getElem?_eq_some_iff.mp hk).1
        exact ⟨_, List.getElem?_set_self hlt, UInt64.le_refl _⟩
      · have hs' : Sound d { ch with balance := nb, sequence := seq } := hs.update htotal hmax
        exact hs.total.trans hs'.total.symm
  | moved hquiet hlook hheap hchannels hid hparticipants hbalance hseq hleft =>
      obtain ⟨-, hk⟩ := lookup_eq_some.mp hlook
      have hstored := hw.stored hk hheap hchannels hid ?_ (by rw [hseq]; exact UInt64.le_refl _)
      · simpa [hquiet.1, hquiet.2] using hstored
      · intro d hs
        exact ⟨by rw [hbalance]; exact hs.total, by rw [hbalance]; exact hs.bounded,
          by rw [hparticipants]; exact hs.distinct⟩

theorem of_run (C : Crypto) (ops : List Op) : ChannelInv (run C ops newWorld) :=
  run_invariant (fun _ _ hw => exec_of_step hw fun _ hstep => hw.step hstep) ops new

end ChannelInv

/-! ## After a channel has left the open state -/

/-- The balances at a pointer are frozen. -/
def Frozen (k : ℕ) (balance : Fin 2 → UInt64) (w : World) : Prop :=
  ∃ ch, w.manager.heap[k]? = some ch ∧ ch.balance = balance ∧ ch.state ≠ .stateOpen

theorem Frozen.step {C : Crypto} {k : ℕ} {balance : Fin 2 → UInt64} {w : World} {op : Op}
    {m' : Manager} {d : List UInt64} {us : List Update} (hw : Frozen k balance w)
    (hstep : ManagerStep C w.manager op m') : Frozen k balance ⟨m', d, us⟩ := by
  obtain ⟨ch, hch, hbal, hleft⟩ := hw
  have hlt := (List.getElem?_eq_some_iff.mp hch).1
  cases hstep with
  | opened _ _ hheap _ =>
      refine ⟨ch, ?_, hbal, hleft⟩
      rw [hheap, List.getElem?_append_left hlt]
      exact hch
  | @updated id nb seq sig k' ch' hlook hopen =>
      obtain ⟨-, hk'⟩ := lookup_eq_some.mp hlook
      have hne : k' ≠ k := by
        rintro rfl
        rw [hch, Option.some.injEq] at hk'
        exact hleft (hk' ▸ hopen)
      exact ⟨ch, (List.getElem?_set_ne hne).trans hch, hbal, hleft⟩
  | @moved op id k' ch' ch'' m'' _ hlook hheap _ _ _ hbalance _ hleft' =>
      obtain ⟨-, hk'⟩ := lookup_eq_some.mp hlook
      by_cases hkk : k' = k
      · subst hkk
        rw [hch, Option.some.injEq] at hk'
        refine ⟨ch'', ?_, ?_, hleft'⟩
        · rw [hheap]
          exact List.getElem?_set_self hlt
        · rw [hbalance, ← hk', hbal]
      · refine ⟨ch, ?_, hbal, hleft⟩
        rw [hheap]
        exact (List.getElem?_set_ne hkk).trans hch

/-- **The money of a channel over every run**: the balances of the `k`-th channel always
sum to its deposit and keep within the bound, every accepted update keeps the sum as a
number and raises the sequence, and a channel that is no longer open keeps its balances
whatever follows. -/
theorem channels_of_run (C : Crypto) (ops : List Op) :
    (run C ops newWorld).deposits.length = (run C ops newWorld).manager.heap.length ∧
    (∀ (k : ℕ) ch d, (run C ops newWorld).manager.heap[k]? = some ch →
      (run C ops newWorld).deposits[k]? = some d →
        (ch.balance 0).toNat + (ch.balance 1).toNat = d.toNat ∧
        ∀ i, ch.balance i ≤ maxChannelBalance) ∧
    (∀ u ∈ (run C ops newWorld).updates, u.before.sequence < u.seq ∧
      (u.before.balance 0).toNat + (u.before.balance 1).toNat =
        (u.newBalance 0).toNat + (u.newBalance 1).toNat) ∧
    (∀ k, (((run C ops newWorld).updates.filter (·.pointer = k)).map Update.seq).Pairwise
      (· < ·)) ∧
    (∀ (k : ℕ) ch, (run C ops newWorld).manager.heap[k]? = some ch → ch.state ≠ .stateOpen →
      ∀ more, ∃ ch', (run C more (run C ops newWorld)).manager.heap[k]? = some ch' ∧
        ch'.balance = ch.balance) := by
  have hw := ChannelInv.of_run C ops
  refine ⟨hw.length, ?_, hw.kept, hw.ordered, ?_⟩
  · intro k ch d hch hd
    obtain ⟨d', hd', hs⟩ := hw.sound k ch hch
    rw [hd, Option.some.injEq] at hd'
    subst hd'
    exact ⟨hs.total, hs.bounded⟩
  · intro k ch hch hleft more
    have hfrozen : Frozen k ch.balance (run C more (run C ops newWorld)) :=
      run_invariant (fun _ _ hf => exec_of_step hf fun _ hstep => hf.step hstep) more
        ⟨ch, hch, rfl, hleft⟩
    obtain ⟨ch', hch', hbal, -⟩ := hfrozen
    exact ⟨ch', hch', hbal⟩

end BhtBhte.Channel
