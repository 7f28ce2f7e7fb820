import BhtBhte.Channel.Runs
import BhtBhte.Lib.Cuts

/-!
# What an accepted update was signed for

The signed text is the channel's identifier followed by the two balances and the sequence
number in decimal, with nothing between them, and the signature may be by either
participant.  So the text fixes the channel, but the numbers only where its digits can be cut
in one way; and the participant who gains may sign alone.
-/
namespace BhtBhte.Channel

open BhtBhte.Lib

/-! ## The signed text -/

theorem toList_decimal (n : UInt64) : (decimal n).toList = Nat.toDigits 10 n.toNat := by
  simp [decimal]

theorem decimal_injective : Function.Injective decimal := by
  intro a b h
  have hlist := congrArg String.toList h
  rw [toList_decimal, toList_decimal] at hlist
  have hparse := congrArg (parseDigits 10) hlist
  rw [parseDigits_toDigits (by decide) (by decide), parseDigits_toDigits (by decide) (by decide),
    Option.some.injEq] at hparse
  exact UInt64.toNat_inj.mp hparse

theorem isDecimalBelow_word {l : List Char} :
    isDecimalBelow (2 ^ 64) l = true ↔ ∃ n : UInt64, (decimal n).toList = l := by
  rw [isDecimalBelow_iff]
  constructor
  · rintro ⟨v, hlt, rfl⟩
    refine ⟨UInt64.ofNat v, ?_⟩
    rw [toList_decimal, UInt64.toNat_ofNat_of_lt' hlt]
  · rintro ⟨n, rfl⟩
    exact ⟨n.toNat, n.toNat_lt, (toList_decimal n).symm⟩

/-- The identifier has a fixed width, so the text gives it back. -/
theorem sigData_eq_iff {id id' : Hash} {nb nb' : Fin 2 → UInt64} {seq seq' : UInt64} :
    sigData id nb seq = sigData id' nb' seq' ↔ id = id' ∧ digits nb seq = digits nb' seq' := by
  constructor
  · intro h
    have hlist := congrArg String.toList h
    simp only [sigData, hashHex, String.toList_append, String.toList_ofList, List.append_assoc]
      at hlist
    have hrest := List.append_cancel_left hlist
    have hlength : (hexEncode id.1).length = (hexEncode id'.1).length := by
      rw [length_hexEncode, length_hexEncode, id.2, id'.2]
    obtain ⟨hid, hdigits⟩ := List.append_inj hrest hlength
    refine ⟨Subtype.ext (hexEncode_injective hid), String.toList_inj.mp ?_⟩
    simpa only [digits, String.toList_append, List.append_assoc] using hdigits
  · rintro ⟨rfl, h⟩
    simp only [digits, String.append_assoc] at h
    simp only [sigData, String.append_assoc, h]

/-- The formats of the numbers behind the identifier. -/
def formats : List (List Char → Bool) := List.replicate 3 (isDecimalBelow (2 ^ 64))

theorem flatten_pieces (nb : Fin 2 → UInt64) (seq : UInt64) :
    (pieces nb seq).flatten = (digits nb seq).toList := by
  simp [pieces, digits]

theorem pieces_eq_iff {nb nb' : Fin 2 → UInt64} {seq seq' : UInt64} :
    pieces nb seq = pieces nb' seq' ↔ nb = nb' ∧ seq = seq' := by
  simp only [pieces, List.cons.injEq, String.toList_inj, decimal_injective.eq_iff, and_true,
    funext_iff, Fin.forall_fin_two, and_assoc]

/-- Pieces of these formats are those of an update. -/
theorem forall₂_formats_iff {xs : List (List Char)} :
    List.Forall₂ (fun p x => p x = true) formats xs ↔ ∃ nb seq, pieces nb seq = xs := by
  simp only [formats, List.replicate_succ, List.replicate_zero, List.forall₂_cons_left_iff,
    List.forall₂_nil_left_iff, isDecimalBelow_word]
  constructor
  · rintro ⟨_, _, ⟨a, rfl⟩, ⟨_, _, ⟨b, rfl⟩, ⟨_, _, ⟨seq, rfl⟩, rfl, rfl⟩, rfl⟩, rfl⟩
    exact ⟨![a, b], seq, rfl⟩
  · rintro ⟨nb, seq, rfl⟩
    exact ⟨_, _, ⟨nb 0, rfl⟩, ⟨_, _, ⟨nb 1, rfl⟩, ⟨_, _, ⟨seq, rfl⟩, rfl, rfl⟩, rfl⟩, rfl⟩

/-- The digits are those of no other three numbers when they can be cut in one way. -/
theorem digits_determine_iff {nb : Fin 2 → UInt64} {seq : UInt64} :
    (∀ nb' seq', digits nb' seq' = digits nb seq → nb' = nb ∧ seq' = seq) ↔
      (cuts formats (digits nb seq).toList).length = 1 := by
  have hmem : pieces nb seq ∈ cuts formats (digits nb seq).toList :=
    mem_cuts.mpr ⟨flatten_pieces nb seq, forall₂_formats_iff.mpr ⟨nb, seq, rfl⟩⟩
  rw [length_cuts_eq_one_iff hmem]
  constructor
  · intro h xs hxs
    obtain ⟨hflatten, hformats⟩ := mem_cuts.mp hxs
    obtain ⟨nb', seq', rfl⟩ := forall₂_formats_iff.mp hformats
    rw [flatten_pieces, String.toList_inj] at hflatten
    exact pieces_eq_iff.mpr (h nb' seq' hflatten)
  · intro h nb' seq' hdigits
    refine pieces_eq_iff.mp (h _ (mem_cuts.mpr ⟨?_, forall₂_formats_iff.mpr ⟨nb', seq', rfl⟩⟩))
    rw [flatten_pieces, hdigits]

/-! ## Accepted updates -/

/-- Who signed an update. -/
def Update.signer (C : Crypto) (u : Update) : Option Address :=
  C.sigToAddress (C.sha256 (sigData u.before.channelID u.newBalance u.seq).toUTF8.toList)
    u.signature

/-- The participant who pays signed, and the signed text says nothing else. -/
def Update.Authorised (C : Crypto) (u : Update) (i : Fin 2) : Prop :=
  u.signer C = some (u.before.participants i) ∧
    ∀ id nb seq, sigData id nb seq = sigData u.before.channelID u.newBalance u.seq →
      id = u.before.channelID ∧ nb = u.newBalance ∧ seq = u.seq

/-- One of two different participants signed an update. -/
structure Update.Signed (C : Crypto) (u : Update) : Prop where
  distinct : u.before.participants 0 ≠ u.before.participants 1
  signer : ∃ i, u.signer C = some (u.before.participants i)

/-- Every accepted update is such. -/
def SignedInv (w : World) (C : Crypto) : Prop := ∀ u ∈ w.updates, u.Signed C

theorem signer_of_verifyChannelSignature {C : Crypto} {u : Update}
    (h : verifyChannelSignature C u.before u.newBalance u.seq u.signature = true) :
    ∃ i, u.signer C = some (u.before.participants i) := by
  unfold verifyChannelSignature at h
  split_ifs at h
  rw [Update.signer]
  split at h
  · cases h
  · next signer hsigner =>
    split_ifs at h with hneither
    rw [hsigner]
    by_cases hfirst : signer = u.before.participants 0
    · exact ⟨0, by rw [hfirst]⟩
    · have hsecond : signer = u.before.participants 1 := by
        by_contra hne
        exact hneither ⟨hfirst, hne⟩
      exact ⟨1, by rw [hsecond]⟩

theorem SignedInv.step {C : Crypto} {w : World} {op : Op} {m' : Manager} (hsigned : SignedInv w C)
    (hw : ChannelInv w) (hstep : ManagerStep C w.manager op m') :
    SignedInv { manager := m', deposits := w.deposits ++ op.deposit
                updates := w.updates ++ op.accepted w.manager } C := by
  intro u hu
  rcases List.mem_append.mp hu with hold | hnew
  · exact hsigned u hold
  · cases hstep with
    | opened => cases hnew
    | moved hquiet =>
        rw [hquiet.2] at hnew
        cases hnew
    | @updated id nb seq sig k ch hlook _ _ _ _ hsig =>
        obtain ⟨-, hk⟩ := lookup_eq_some.mp hlook
        obtain ⟨d, -, hs⟩ := hw.sound k ch hk
        simp only [Op.accepted, hlook, Option.toList_some, List.map_cons, List.map_nil,
          List.mem_singleton] at hnew
        subst hnew
        exact ⟨hs.distinct, signer_of_verifyChannelSignature hsig⟩

theorem signedInv_of_run (C : Crypto) (ops : List Op) : SignedInv (run C ops newWorld) C := by
  have hstep : ∀ op w, (ChannelInv w ∧ SignedInv w C) →
      ChannelInv (exec C op w) ∧ SignedInv (exec C op w) C := by
    intro op w hw
    refine @exec_of_step C (fun w => ChannelInv w ∧ SignedInv w C) op w hw ?_
    exact fun m' hstep => ⟨hw.1.step hstep, hw.2.step hw.1 hstep⟩
  have hnew : SignedInv newWorld C := by
    intro u hu
    cases hu
  have hrun : ChannelInv (run C ops newWorld) ∧ SignedInv (run C ops newWorld) C :=
    @run_invariant _ _ (exec C) (fun w => ChannelInv w ∧ SignedInv w C) hstep ops _
      ⟨ChannelInv.new, hnew⟩
  exact hrun.2

/-- **An accepted update is authorised by a participant**, the one whose balance it lowers
as well as the other, exactly when the other one did not sign it and the digits of its
three numbers can be cut into three numbers in one way only.  This holds on every run. -/
theorem authorised_iff (C : Crypto) (ops : List Op) {u : Update} {i : Fin 2}
    (hu : u ∈ (run C ops newWorld).updates) :
    u.Authorised C i ↔
      u.signer C ≠ some (u.before.participants (1 - i)) ∧
        (cuts formats (digits u.newBalance u.seq).toList).length = 1 := by
  obtain ⟨hdistinct, j, hsigner⟩ := signedInv_of_run C ops u hu
  have hother : ∀ i, u.before.participants i ≠ u.before.participants (1 - i) :=
    Fin.forall_fin_two.mpr ⟨hdistinct, hdistinct.symm⟩
  have hwho : u.signer C = some (u.before.participants i) ↔
      u.signer C ≠ some (u.before.participants (1 - i)) := by
    constructor
    · intro h
      rw [h, Ne, Option.some.injEq]
      exact hother i
    · intro h
      have hj : j = i := by
        by_contra hne
        have hone : j = 1 - i := by omega
        exact h (hone ▸ hsigner)
      exact hj ▸ hsigner
  rw [Update.Authorised, hwho, ← digits_determine_iff]
  refine and_congr_right fun _ => ?_
  constructor
  · intro h nb seq hdigits
    exact (h _ nb seq (sigData_eq_iff.mpr ⟨rfl, hdigits⟩)).2
  · intro h id nb seq hsig
    obtain ⟨hid, hdigits⟩ := sigData_eq_iff.mp hsig
    exact ⟨hid, h nb seq hdigits⟩

/-! ## Updates of a new channel -/

def firstParty : Address := ⟨List.replicate 20 1, by simp⟩
def secondParty : Address := ⟨List.replicate 20 2, by simp⟩

/-- Every signature below is by one address. -/
def signedBy (signer : Address) : Crypto where
  sha256 _ := List.replicate 32 0
  sigToAddress _ _ := some signer

def someRandom : ByteArrayOf 24 := ⟨List.replicate 24 7, by simp⟩

/-- A deposit by the first participant and one update of it. -/
def signedRun (d : UInt64) (newBalance : Fin 2 → UInt64) (seq : UInt64) : List Op :=
  [ .openChannel firstParty secondParty d someRandom 0,
    .updateBalance (generateChannelID someRandom 0) newBalance seq (List.replicate 65 0) ]

/-- The channel such a run opens. -/
def openedChannel (d : UInt64) : PaymentChannel where
  channelID := generateChannelID someRandom 0
  participants := ![firstParty, secondParty]
  balance := ![d, 0]
  openTime := 0

theorem parties_ne : firstParty ≠ secondParty := by
  intro h
  exact absurd (congrArg Subtype.val h) (by decide)

/-- The first operation of the run. -/
theorem openChannel_new {d : UInt64} (hd : d ≤ maxChannelAmount) :
    ∃ m, openChannel firstParty secondParty d someRandom 0 newChannelManager = .ok m ∧
      m.lookup (generateChannelID someRandom 0) = some (0, openedChannel d) ∧
      m.byState .stateOpen = [generateChannelID someRandom 0] := by
  rw [openChannel, if_neg parties_ne, if_neg (UInt64.not_lt.mpr hd)]
  refine ⟨_, rfl, lookup_eq_some.mpr ⟨?_, rfl⟩, rfl⟩
  simp [newChannelManager]

theorem updates_signedRun (d : UInt64) (nb : Fin 2 → UInt64) (seq : UInt64) (i : Fin 2)
    (hd : d ≤ maxChannelAmount) (hseq : 0 < seq) (htotal : nb 0 + nb 1 = d)
    (hmax : ∀ i, nb i ≤ maxChannelBalance) :
    (run (signedBy ((openedChannel d).participants i)) (signedRun d nb seq) newWorld).updates =
      [⟨0, openedChannel d, nb, seq, List.replicate 65 0⟩] := by
  obtain ⟨m, hm, hlook, -⟩ := openChannel_new hd
  have hverify : ∀ i, verifyChannelSignature (signedBy ((openedChannel d).participants i))
      (openedChannel d) nb seq (List.replicate 65 0) = true := by
    refine Fin.forall_fin_two.mpr ⟨?_, ?_⟩
    · simp [verifyChannelSignature, signedBy]
    · simp [verifyChannelSignature, signedBy]
  have hupdate : ∃ m', updateBalance (signedBy ((openedChannel d).participants i))
      (generateChannelID someRandom 0) nb seq (List.replicate 65 0) m = .ok m' := by
    have htotal' : nb 0 + nb 1 = (openedChannel d).balance 0 + (openedChannel d).balance 1 := by
      simp [openedChannel, htotal]
    have hstate : (openedChannel d).state = .stateOpen := rfl
    have hsequence : ¬ seq ≤ (openedChannel d).sequence := UInt64.not_le.mpr hseq
    simp only [updateBalance, hlook, hstate, htotal', hverify i, hsequence, ne_eq, not_true_eq_false,
      if_false, UInt64.not_lt.mpr (hmax 0), UInt64.not_lt.mpr (hmax 1), Bool.not_true, Bool.false_eq_true]
    exact ⟨_, rfl⟩
  obtain ⟨m', hm'⟩ := hupdate
  simp only [run, signedRun, List.foldl_cons, List.foldl_nil, exec, Op.apply, newWorld, hm, hm',
    Op.accepted, hlook, Option.toList_some, List.map_cons, List.map_nil, List.append_nil,
    List.nil_append]

/-- The first participant signs away `4` of its `9`. -/
theorem authorised_signedRun :
    Update.Authorised (signedBy firstParty)
      ⟨0, openedChannel 9, ![5, 4], 1, List.replicate 65 0⟩ 0 := by
  have hupdates := updates_signedRun 9 ![5, 4] 1 0 (by decide) (by decide)
    (by decide) (by decide)
  refine (authorised_iff (signedBy firstParty) (signedRun 9 ![5, 4] 1) ?_).mpr ⟨?_, ?_⟩
  · rw [show signedBy firstParty = signedBy ((openedChannel 9).participants 0) from rfl, hupdates]
    exact List.mem_singleton_self _
  · simp only [Update.signer, signedBy, Ne, Option.some.injEq]
    exact parties_ne
  · simp only [digits, String.toList_append, toList_decimal]
    decide

/-- The second participant takes `14` of the first one's `15` with a signature of its own,
and the signed text is also that of an update which leaves the first one `11`. -/
theorem update_signed_by_gainer :
    ∃ u ∈ (run (signedBy secondParty) (signedRun 15 ![1, 14] 5) newWorld).updates,
      u.newBalance 0 < u.before.balance 0 ∧
      u.signer (signedBy secondParty) ≠ some (u.before.participants 0) ∧
      (![11, 4] : Fin 2 → UInt64) ≠ u.newBalance ∧
      sigData u.before.channelID ![11, 4] 5 = sigData u.before.channelID u.newBalance u.seq := by
  have hupdates := updates_signedRun 15 ![1, 14] 5 1 (by decide) (by decide)
    (by decide) (by decide)
  refine ⟨⟨0, openedChannel 15, ![1, 14], 5, List.replicate 65 0⟩, ?_, by decide, ?_, ?_, ?_⟩
  · rw [show signedBy secondParty = signedBy ((openedChannel 15).participants 1) from rfl, hupdates]
    exact List.mem_singleton_self _
  · simp only [Update.signer, signedBy, Ne, Option.some.injEq]
    exact parties_ne.symm
  · intro h
    exact absurd (congrFun h 0) (by decide)
  · refine sigData_eq_iff.mpr ⟨rfl, String.toList_inj.mp ?_⟩
    simp only [digits, String.toList_append, toList_decimal]
    decide

end BhtBhte.Channel
