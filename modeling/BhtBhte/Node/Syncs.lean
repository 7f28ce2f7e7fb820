import BhtBhte.Node.Bans
import BhtBhte.Node.ForkChoice

/-!
# What a sync reports

A sync imports one block after the other and stops at the first one that fails.  The blocks before
it stay.  `syncPeer` takes over the number of imported blocks only when there was no error, so after
an error it reports none.  `syncReports_iff` says whose report is right.
-/
namespace BhtBhte.Node
open BhtBhte.Lib
variable [Platform]

namespace RpcNode

/-- One round of `syncPeerBlocks`: fetch, validate and import. -/
def syncRound (n : RpcNode) (cfg : Config) (answers : PeerAnswers) (ω : Choices) (height : ℕ) :
    Except String Bool × RpcNode :=
  match answers.block height with
  | .error e => (.error ("failed to fetch peer block " ++ toString height ++ ": " ++ e), n)
  | .ok block => n.syncBlock cfg (ω.call 0) height block

/-- The first `j` rounds, when none of them fails, with the number of blocks that were new. -/
def importFirst (cfg : Config) (answers : PeerAnswers) :
    ℕ → RpcNode → Choices → ℕ → Option (ℕ × RpcNode × Choices)
  | 0, n, ω, _ => some (0, n, ω)
  | j + 1, n, ω, height =>
      match n.syncRound cfg answers ω height with
      | (.error _, _) => none
      | (.ok new, n') =>
          (importFirst cfg answers j n' (ω.call 1) (height + 1)).map fun r =>
            (r.1 + new.toNat, r.2)

/-- The node as it was, with its accounts copied out and back in at most. -/
def Undone (n m : RpcNode) : Prop := m = n ∨ ∃ ω₁ ω₂ disk, m = n.recopied ω₁ ω₂ disk

end RpcNode

open RpcNode

variable {cfg : Config} {answers : PeerAnswers} {n n' m : RpcNode} {ω ω' : Choices}
  {j k height imported fuel : ℕ} {e : String}

theorem blocks_of_undone (h : n.Undone m) : m.blocks = n.blocks := by
  rcases h with rfl | ⟨ω₁, ω₂, disk, rfl⟩
  · rfl
  · rfl

/-! ## One round -/

/-- A round fails and is undone, knows the block, or appends it. -/
theorem syncRound_cases (n : RpcNode) (cfg : Config) (answers : PeerAnswers) (ω : Choices)
    (height : ℕ) :
    (∃ e m, n.syncRound cfg answers ω height = (.error e, m) ∧ n.Undone m) ∨
      n.syncRound cfg answers ω height = (.ok false, n) ∨
      ∃ m stored, n.syncRound cfg answers ω height = (.ok true, m) ∧
        m.blocks = n.blocks ++ [stored] := by
  rw [syncRound]
  cases answers.block height with
  | error e => exact .inl ⟨_, n, rfl, .inl rfl⟩
  | ok block =>
      dsimp only
      rw [syncBlock]
      cases n.validatePeerBlock block height with
      | error e => exact .inl ⟨e, n, rfl, .inl rfl⟩
      | ok _ =>
          dsimp only
          rcases n.importPeerBlock_cases cfg (ω.call 0) block.record with
            ⟨heq, -⟩ | ⟨e, ω₁, ω₂, disk, heq⟩ | ⟨ω₂, l, heq, -⟩
          · exact .inr (.inl heq)
          · exact .inl ⟨e, _, heq, .inr ⟨ω₁, ω₂, disk, rfl⟩⟩
          · have hblocks := n.afterImport_blocks ((ω.call 0).call 2) block.record l
              (n.applyPeerBlock cfg (((ω.call 0).call 0).call 1) block.record)
            rw [(n.applyPeerBlock_sameIndex cfg _ _).blocks] at hblocks
            exact .inr (.inr ⟨_, _, heq, hblocks⟩)

/-- A round that fails leaves the chain. -/
theorem syncRound_undone (h : (n.syncRound cfg answers ω height).1 = .error e) :
    n.Undone (n.syncRound cfg answers ω height).2 := by
  rcases syncRound_cases n cfg answers ω height with
    ⟨e', m, heq, hundone⟩ | heq | ⟨m, stored, heq, -⟩
  · rwa [heq]
  · rw [heq] at h
    cases h
  · rw [heq] at h
    cases h

/-- A round that does not fail appends a block when it was new. -/
theorem length_syncRound {new : Bool} (h : n.syncRound cfg answers ω height = (.ok new, m)) :
    m.blocks.length = n.blocks.length + new.toNat := by
  rcases syncRound_cases n cfg answers ω height with
    ⟨e', m', heq, -⟩ | heq | ⟨m', stored, heq, hblocks⟩
  · cases h.symm.trans heq
  · cases h.symm.trans heq
    rfl
  · cases h.symm.trans heq
    rw [hblocks, List.length_append]
    rfl

/-! ## The loop -/

theorem length_importFirst (h : importFirst cfg answers j n ω height = some (k, n', ω')) :
    n'.blocks.length = n.blocks.length + k := by
  induction j generalizing n ω height k with
  | zero =>
      cases h
      rfl
  | succ j ih =>
      rw [importFirst] at h
      split at h
      · cases h
      · next new m hround =>
          obtain ⟨⟨k', m', ω''⟩, hlater, heq⟩ := Option.map_eq_some_iff.mp h
          cases heq
          rw [ih hlater, length_syncRound hround]
          omega

/-- The loop is a round followed by the loop. -/
theorem syncPeerBlocks_succ (cfg : Config) (answers : PeerAnswers) (fuel : ℕ) (n : RpcNode)
    (ω : Choices) (height imported : ℕ) :
    syncPeerBlocks cfg answers (fuel + 1) n ω height imported =
      if maxPeerSyncBlocks ≤ imported then (.ok imported, n)
      else
        match n.syncRound cfg answers ω height with
        | (.error e, m) => (.error (imported, e), m)
        | (.ok new, m) =>
            syncPeerBlocks cfg answers fuel m (ω.call 1) (height + 1) (imported + new.toNat) := by
  rw [syncPeerBlocks, syncRound]
  split_ifs with hfull
  · rfl
  · cases answers.block height with
    | error e => rfl
    | ok block =>
        dsimp only
        cases n.syncBlock cfg (ω.call 0) height block with
        | mk result m =>
            cases result with
            | error e => rfl
            | ok new =>
                cases new with
                | false => rfl
                | true => rfl

/-- **How the loop ends**: after some rounds without a failure it stops, or the next round fails. -/
theorem syncPeerBlocks_cases (cfg : Config) (answers : PeerAnswers) (fuel : ℕ) (n : RpcNode)
    (ω : Choices) (height imported : ℕ) :
    ∃ j k n' ω', importFirst cfg answers j n ω height = some (k, n', ω') ∧
      (syncPeerBlocks cfg answers fuel n ω height imported = (.ok (imported + k), n') ∨
        j < fuel ∧ imported + k < maxPeerSyncBlocks ∧
          ∃ e m, n'.syncRound cfg answers ω' (height + j) = (.error e, m) ∧
            syncPeerBlocks cfg answers fuel n ω height imported = (.error (imported + k, e), m)) := by
  induction fuel generalizing n ω height imported with
  | zero => exact ⟨0, 0, n, ω, rfl, .inl rfl⟩
  | succ fuel ih =>
      rw [syncPeerBlocks_succ]
      split_ifs with hfull
      · exact ⟨0, 0, n, ω, rfl, .inl rfl⟩
      · cases hround : n.syncRound cfg answers ω height with
        | mk result m =>
            cases result with
            | error e => exact ⟨0, 0, n, ω, rfl, .inr ⟨Nat.succ_pos fuel, not_le.mp hfull, e, m,
                hround, rfl⟩⟩
            | ok new =>
                obtain ⟨j, k, n', ω', hfirst, hend⟩ :=
                  ih m (ω.call 1) (height + 1) (imported + new.toNat)
                have hstep : importFirst cfg answers (j + 1) n ω height =
                    some (k + new.toNat, n', ω') := by
                  rw [importFirst, hround]
                  exact congrArg (Option.map _) hfirst
                have hcount : imported + new.toNat + k = imported + (k + new.toNat) := by omega
                have hheight : height + 1 + j = height + (j + 1) := by omega
                rw [hcount, hheight] at hend
                exact ⟨j + 1, k + new.toNat, n', ω', hstep,
                  hend.imp id fun hfail => ⟨Nat.succ_lt_succ hfail.1, hfail.2⟩⟩

/-- A failing round is where the loop ends. -/
theorem syncPeerBlocks_of_fails (hfirst : importFirst cfg answers j n ω height = some (k, n', ω'))
    (hfuel : j < fuel) (hroom : imported + k < maxPeerSyncBlocks)
    (hround : n'.syncRound cfg answers ω' (height + j) = (.error e, m)) :
    syncPeerBlocks cfg answers fuel n ω height imported = (.error (imported + k, e), m) := by
  induction j generalizing n ω height imported k fuel with
  | zero =>
      obtain ⟨fuel, rfl⟩ := Nat.exists_eq_succ_of_ne_zero hfuel.ne'
      cases hfirst
      have hnext : n'.syncRound cfg answers ω' height = (.error e, m) := hround
      have hfull : ¬ maxPeerSyncBlocks ≤ imported := not_le.mpr hroom
      rw [syncPeerBlocks_succ, if_neg hfull, hnext]
      rfl
  | succ j ih =>
      obtain ⟨fuel, rfl⟩ := Nat.exists_eq_succ_of_ne_zero (Nat.ne_zero_of_lt hfuel)
      rw [importFirst] at hfirst
      split at hfirst
      · cases hfirst
      · next new m' hgood =>
          obtain ⟨⟨k', m'', ω''⟩, hlater, heq⟩ := Option.map_eq_some_iff.mp hfirst
          cases heq
          have hheight : height + (j + 1) = height + 1 + j := by omega
          rw [hheight] at hround
          rw [syncPeerBlocks_succ, if_neg (by omega), hgood]
          have hcount : imported + (k' + new.toNat) = imported + new.toNat + k' := by omega
          rw [hcount]
          exact ih hlater (Nat.lt_of_succ_lt_succ hfuel) (by omega) hround

/-! ## The report -/

/-- The peer is asked for its blocks, `k` new ones are imported, and then a round fails. -/
def FailsAfter (n : RpcNode) (cfg : Config) (ω : Choices) (idOrURL : String)
    (answers : PeerAnswers) (k : ℕ) (n' : RpcNode) : Prop :=
  let found := n.findPeer (ω.call 0) idOrURL
  ¬ (ω.call 1).unix < found.1.bannedUntil ∧
    ∃ remoteHeight j ω' e, answers.blockNumber = .ok remoteHeight ∧
      found.2.height + j < quantity64 remoteHeight ∧ k < maxPeerSyncBlocks ∧
      importFirst cfg answers j found.2 ((ω.call 2).call 2) (found.2.height + 1) =
        some (k, n', ω') ∧
      (n'.syncRound cfg answers ω' (found.2.height + 1 + j)).1 = .error e

/-- The report says how many blocks were appended, and when a block fails the chain ends after the
last good one, with the failure of the peer recorded. -/
structure SyncReports (n : RpcNode) (cfg : Config) (ω : Choices) (idOrURL : String)
    (answers : PeerAnswers) : Prop where
  imported : (n.syncPeer cfg ω idOrURL answers).2.blocks.length =
    n.blocks.length + (n.syncPeer cfg ω idOrURL answers).1.imported
  failure : ∀ k n', FailsAfter n cfg ω idOrURL answers k n' →
    (n.syncPeer cfg ω idOrURL answers).2.blocks = n'.blocks ∧
      (n.syncPeer cfg ω idOrURL answers).1.synced = false ∧
      ∃ peer, (n.syncPeer cfg ω idOrURL answers).2.peers.get? (n.findPeer (ω.call 0) idOrURL).1.id =
          some peer ∧
        peer.failures = (n.findPeer (ω.call 0) idOrURL).1.failures + 1

theorem findPeer_blocks (n : RpcNode) (ω : Choices) (idOrURL : String) :
    (n.findPeer ω idOrURL).2.blocks = n.blocks := by
  rcases n.findPeer_cases ω idOrURL with ⟨key, peer, -, -, heq⟩ | ⟨-, heq⟩
  · rw [heq]
  · rw [heq]
    rfl

/-- The loop over the heights above the head ends well, or it fails at one of them. -/
theorem syncAbove_cases (n : RpcNode) (cfg : Config) (ω : Choices) (remote : ℕ)
    (answers : PeerAnswers) :
    (∃ k n', n.syncAbove cfg ω remote answers = (.ok k, n') ∧
        n'.blocks.length = n.blocks.length + k) ∨
      ∃ j k n' ω' e m, n.height + j < remote ∧ k < maxPeerSyncBlocks ∧
        importFirst cfg answers j n ω (n.height + 1) = some (k, n', ω') ∧
        n'.syncRound cfg answers ω' (n.height + 1 + j) = (.error e, m) ∧
        n.syncAbove cfg ω remote answers = (.error (k, e), m) := by
  rw [syncAbove]
  split_ifs with habove
  · obtain ⟨j, k, n', ω', hfirst, hend⟩ :=
      syncPeerBlocks_cases cfg answers (remote - n.height) n ω (n.height + 1) 0
    rw [Nat.zero_add] at hend
    rcases hend with hok | ⟨hfuel, hroom, e, m, hround, herror⟩
    · exact .inl ⟨k, n', hok, length_importFirst hfirst⟩
    · exact .inr ⟨j, k, n', ω', e, m, by omega, hroom, hfirst, hround, herror⟩
  · exact .inl ⟨0, n, rfl, rfl⟩

/-- After a failure the node is the one of the last good block, the failure is recorded, and no
block is reported. -/
theorem syncPeer_of_fails {idOrURL : String} (h : FailsAfter n cfg ω idOrURL answers k n') :
    ∃ e m peer, n'.Undone m ∧ n'.blocks.length = n.blocks.length + k ∧
      peer.id = (n.findPeer (ω.call 0) idOrURL).1.id ∧
      peer.failures = (n.findPeer (ω.call 0) idOrURL).1.failures + 1 ∧
      n.syncPeer cfg ω idOrURL answers = (⟨false, peer, some e, 0⟩, m.setPeer peer) := by
  obtain ⟨hban, remoteHeight, j, ω', e, hremote, habove, hroom, hfirst, herror⟩ := h
  have hundone := syncRound_undone herror
  have hlength := length_importFirst hfirst
  rw [findPeer_blocks] at hlength
  have hround : n'.syncRound cfg answers ω' ((n.findPeer (ω.call 0) idOrURL).2.height + 1 + j) =
      (.error e, (n'.syncRound cfg answers ω'
        ((n.findPeer (ω.call 0) idOrURL).2.height + 1 + j)).2) := Prod.ext herror rfl
  have hfuel : j < quantity64 remoteHeight - (n.findPeer (ω.call 0) idOrURL).2.height := by omega
  have hloop : syncPeerBlocks cfg answers _ _ _ _ 0 = _ :=
    syncPeerBlocks_of_fails hfirst hfuel (by omega) hround
  rw [Nat.zero_add] at hloop
  let peer := { (n.findPeer (ω.call 0) idOrURL).1 with
    height := quantity64 remoteHeight, lastSeen := (((ω.call 2).call 1)).unix }
  refine ⟨e, _, recordPeerFailure ((ω.call 2).call 3) peer, hundone, hlength, rfl, rfl, ?_⟩
  rw [syncPeer, if_neg hban, syncKnownPeer, hremote]
  dsimp only
  rw [syncAbove, if_pos (show _ < quantity64 remoteHeight by omega), hloop]

/-- A report that is right after a failure had nothing to report. -/
theorem eq_zero_of_reports {idOrURL : String} (h : SyncReports n cfg ω idOrURL answers)
    (hfails : FailsAfter n cfg ω idOrURL answers k n') : k = 0 := by
  obtain ⟨e, m, peer, hundone, hlength, -, -, heq⟩ := syncPeer_of_fails hfails
  have himported := h.imported
  rw [heq] at himported
  have hblocks : m.blocks = n'.blocks := blocks_of_undone hundone
  have hset : (m.setPeer peer).blocks = m.blocks := rfl
  rw [hset, hblocks, hlength] at himported
  exact Nat.add_left_cancel himported

/-- When no failure comes after an import, the report says what was appended. -/
theorem imported_of_first_fails {idOrURL : String}
    (h : ∀ k n', FailsAfter n cfg ω idOrURL answers k n' → k = 0) :
    (n.syncPeer cfg ω idOrURL answers).2.blocks.length =
      n.blocks.length + (n.syncPeer cfg ω idOrURL answers).1.imported := by
  rw [syncPeer, ← findPeer_blocks n (ω.call 0) idOrURL]
  split_ifs with hban
  · rfl
  · rw [syncKnownPeer]
    cases hremote : answers.blockNumber with
    | error e => rfl
    | ok remoteHeight =>
        dsimp only
        rcases syncAbove_cases (n.findPeer (ω.call 0) idOrURL).2 cfg ((ω.call 2).call 2)
            (quantity64 remoteHeight) answers with
          ⟨k, n', heq, hlength⟩ | ⟨j, k, n', ω', e, m, habove, hroom, hfirst, hround, heq⟩
        · rw [heq]
          exact hlength
        · have herror : (n'.syncRound cfg answers ω'
              ((n.findPeer (ω.call 0) idOrURL).2.height + 1 + j)).1 = .error e := by rw [hround]
          have hundone := syncRound_undone herror
          rw [hround] at hundone
          have hzero := h k n'
            ⟨hban, remoteHeight, j, ω', e, hremote, habove, hroom, hfirst, herror⟩
          rw [heq]
          have hlength := length_importFirst hfirst
          rw [← blocks_of_undone hundone, hzero] at hlength
          exact hlength

/-- **The report of a sync is right exactly when no block fails after the first new one.** -/
theorem syncReports_iff (n : RpcNode) (cfg : Config) (ω : Choices) (idOrURL : String)
    (answers : PeerAnswers) :
    SyncReports n cfg ω idOrURL answers ↔
      ∀ k n', FailsAfter n cfg ω idOrURL answers k n' → k = 0 := by
  constructor
  · exact fun h k n' hfails => eq_zero_of_reports h hfails
  · intro h
    refine ⟨imported_of_first_fails h, fun k n' hfails => ?_⟩
    obtain ⟨e, m, peer, hundone, -, hid, hfailures, heq⟩ := syncPeer_of_fails hfails
    have hblocks : m.blocks = n'.blocks := blocks_of_undone hundone
    rw [heq]
    refine ⟨hblocks, rfl, peer, ?_, hfailures⟩
    rw [← hid]
    exact FinMap.get?_insert_self _ _ _

/-! ## A block that is imported and not reported -/

/-- A peer with two blocks that hands out the first. -/
def twinThenRefused (ω : Choices) : PeerAnswers where
  blockNumber := .ok "0x3"
  block height := if height = 2 then .ok (twinBlock ω) else .error "connection refused"

/-- A fresh node that knows the peer imports the block. -/
theorem syncBlock_twinBlock_new (hgenesis : hashHex (utf8 "bhte-genesis") ≠ zeroHash)
    (hn : n = newRPCNode {} ω {}) (hroot : (freshGenesis ω).stateRoot ≠ zeroHash)
    (peer : PeerRecord) (ω' : Choices) :
    ((n.setPeer peer).syncBlock {} ω' 2 (twinBlock ω)).1 = .ok true := by
  have hfree : n.validatePeerBlock (twinBlock ω) 2 = .ok () :=
    validate_twinBlock hgenesis hn hroot
  have hvalid : (n.setPeer peer).validatePeerBlock (twinBlock ω) 2 = .ok () := hfree
  obtain ⟨ω₁, l, timestamp, hfresh, -⟩ := newRPCNode_fresh {} ω
  rw [hfresh] at hn
  have hworld : (n.setPeer peer).world = freshWorld {} := by
    rw [hn]
    rfl
  have hnew : ((n.setPeer peer).canonical.get? (quantity64 (twinBlock ω).record.number)).getD "" =
      "" := by
    show ((n.setPeer peer).canonical.get? (quantity64 "0x2")).getD "" = ""
    rw [quantity64_two, hn]
    rfl
  have hmatch : RootsMatch (twinBlock ω).record
      ((n.setPeer peer).applyPeerBlock {} ((ω'.call 0).call 1) (twinBlock ω).record)
      (((ω'.call 0).call 2).call 0) := by
    refine ⟨?_, rfl, ?_, rfl⟩
    · show equalFold (freshGenesis ω).stateRoot (stateTrieRoot ((n.setPeer peer).world.copy _)) = true
      rw [hworld, (freshWorld_normal {}).copy_eq, stateRoot_freshGenesis, equalFold_refl]
    · show rootMatches (receiptTrieRoot []) (receiptTrieRoot []) = true
      rw [rootMatches, equalFold_refl, Bool.or_true]
  obtain ⟨commits, himport⟩ := importPeerBlock_of_match hnew hmatch
  rw [syncBlock, hvalid]
  exact congrArg Prod.fst himport

omit [Platform] in
theorem quantity64_three : quantity64 "0x3" = 3 := by decide +kernel

/-- The second block of the peer fails. -/
theorem failsAfter_twinThenRefused (hgenesis : hashHex (utf8 "bhte-genesis") ≠ zeroHash)
    (hn : n = newRPCNode {} ω {}) (hroot : (freshGenesis ω).stateRoot ≠ zeroHash) :
    ∃ n', FailsAfter n {} default peerURL (twinThenRefused ω) 1 n' := by
  obtain ⟨ω₁, l, timestamp, hfresh, -⟩ := newRPCNode_fresh {} ω
  have hpeers : n.peers = ∅ := by rw [hn, hfresh]
  have hheight : n.height = 1 := by rw [hn, hfresh]
  have hfound : ∃ peer, n.findPeer (Choices.call default 0) peerURL = (peer, n.setPeer peer) ∧
      peer.bannedUntil = 0 := by
    rcases n.findPeer_cases (Choices.call default 0) peerURL with ⟨key, peer, hget, -⟩ | ⟨-, heq⟩
    · rw [hpeers] at hget
      cases hget
    · exact ⟨_, heq, rfl⟩
  obtain ⟨peer, heq, hban⟩ := hfound
  obtain ⟨ω₂, hω₂⟩ : ∃ ω₂, ω₂ = (Choices.call default 2).call 2 := ⟨_, rfl⟩
  have hsync := syncBlock_twinBlock_new hgenesis hn hroot peer (ω₂.call 0)
  obtain ⟨m, hm⟩ : ∃ m, m = ((n.setPeer peer).syncBlock {} (ω₂.call 0) 2 (twinBlock ω)).2 :=
    ⟨_, rfl⟩
  have hround : (n.setPeer peer).syncRound {} (twinThenRefused ω) ω₂ 2 = (.ok true, m) :=
    Prod.ext hsync hm.symm
  have hfirst : importFirst {} (twinThenRefused ω) 1 (n.setPeer peer) ω₂ 2 =
      some (1, m, ω₂.call 1) := by
    rw [importFirst, hround]
    rfl
  have htwo : (n.setPeer peer).height + 1 = 2 := congrArg (· + 1) hheight
  refine ⟨m, ?_⟩
  rw [FailsAfter, heq, ← hω₂]
  refine ⟨?_, "0x3", 1, ω₂.call 1, "failed to fetch peer block 3: connection refused", rfl, ?_,
    by decide, ?_, ?_⟩
  · rw [hban]
    decide
  · rw [quantity64_three]
    exact Nat.lt_of_lt_of_eq (Nat.lt_succ_self _) (congrArg (· + 1) htwo)
  · rw [htwo]
    exact hfirst
  · rw [htwo]
    rfl

omit [Platform] in
/-- A fresh node imports a block, fails at the next one, and reports that it imported none. -/
theorem sync_reports_nothing :
    letI := Platform.checksums
    let fresh := newRPCNode {} default {}
    Reachable {} fresh ∧ ¬ SyncReports fresh {} default peerURL (twinThenRefused default) := by
  obtain ⟨n', hfails⟩ := @failsAfter_twinThenRefused Platform.checksums _ default
    (@genesis_ne_zeroHash Platform.checksums fun _ => rfl) rfl
    (checksums_stateRoot_ne_zeroHash default)
  refine ⟨⟨default, .refl⟩, fun h => ?_⟩
  exact Nat.one_ne_zero (@eq_zero_of_reports Platform.checksums _ _ _ _ _ _ _ h hfails)

end BhtBhte.Node
