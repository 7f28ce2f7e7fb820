import BhtBhte.Node.Chain

/-!
# Requests of clients

`Event` splits a sync into its parts.  Here a sync is one request again, beside the other calls
a client can make, so that the peer list changes only the way the source changes it.
-/
namespace BhtBhte.Node
open BhtBhte.Lib
variable [Platform]

/-- A request of a client. -/
inductive Request
  | serve (e : Event)
  | addPeer (url : String)
  | syncPeer (idOrURL : String) (answers : PeerAnswers)

/-- Importing a block and recording a peer happen inside a sync only. -/
def Event.partOfSync : Event → Bool
  | .syncBlock _ => true
  | .setPeer _ => true
  | _ => false

/-- A client can make the request. -/
def Request.Allowed : Request → Prop
  | .serve e => e.partOfSync = false
  | _ => True

/-- What a request does to the node. -/
def RpcNode.answer (n : RpcNode) (cfg : Config) (ω : Choices) : Request → RpcNode
  | .serve e => n.next cfg ω e
  | .addPeer url => (n.addPeer ω url).2
  | .syncPeer idOrURL answers => (n.syncPeer cfg ω idOrURL answers).2

/-- One request.  No slice comes within one sync of `2 ^ 63` blocks. -/
def RequestStep (cfg : Config) (ok : RpcNode → Choices → Request → Prop) (n n' : RpcNode) : Prop :=
  ∃ ω r, r.Allowed ∧ ok n ω r ∧ n' = n.answer cfg ω r ∧
    n'.blocks.length + RpcNode.maxPeerSyncBlocks < 2 ^ 63

/-- Reached from a fresh node by requests. -/
def Served (cfg : Config) (n : RpcNode) : Prop :=
  ∃ ω, Relation.ReflTransGen (RequestStep cfg fun _ _ _ => True) (newRPCNode cfg ω {}) n

/-- A sound chain with room for a sync. -/
structure RoomyChain (n : RpcNode) : Prop where
  chain : ChainOk n
  room : n.blocks.length + RpcNode.maxPeerSyncBlocks < 2 ^ 63

theorem RoomyChain.answer {n : RpcNode} (h : RoomyChain n) {cfg : Config} {ω : Choices}
    {r : Request} (hroom : (n.answer cfg ω r).blocks.length + RpcNode.maxPeerSyncBlocks < 2 ^ 63) :
    RoomyChain (n.answer cfg ω r) := by
  refine ⟨?_, hroom⟩
  cases r with
  | serve e => exact h.chain.next (Nat.lt_of_le_of_lt (Nat.le_add_right _ _) hroom)
  | addPeer url => exact h.chain.of_eq rfl rfl rfl rfl rfl
  | syncPeer idOrURL answers =>
      have hheight := h.chain.length
      have hsync := h.room
      exact h.chain.of_run (syncPeer_run h.chain ω idOrURL answers (by omega))

theorem roomyChain_fresh (cfg : Config) (ω : Choices) : RoomyChain (newRPCNode cfg ω {}) := by
  refine ⟨chainOk_fresh cfg ω, ?_⟩
  obtain ⟨ω₁, l, timestamp, heq, -⟩ := newRPCNode_fresh cfg ω
  rw [heq]
  have hmax : RpcNode.maxPeerSyncBlocks = 128 := rfl
  simp [hmax]

/-- What holds of a fresh node and is kept by every allowed request holds of every node
served. -/
theorem Served.induct {cfg : Config} {P : RpcNode → Prop} (hfresh : ∀ ω, P (newRPCNode cfg ω {}))
    (hstep : ∀ n ω r, RoomyChain n → P n → r.Allowed → P (n.answer cfg ω r)) {n : RpcNode}
    (h : Served cfg n) : RoomyChain n ∧ P n := by
  obtain ⟨ω, hrun⟩ := h
  induction hrun with
  | refl => exact ⟨roomyChain_fresh cfg ω, hfresh ω⟩
  | tail _ hs ih =>
      obtain ⟨ω', r, hallowed, -, rfl, hroom⟩ := hs
      exact ⟨ih.1.answer hroom, hstep _ ω' r ih.1 ih.2 hallowed⟩

/-! ## The peer list -/

/-- The key a peer is recorded under. -/
def peerId (url : String) : String := hashHex (utf8 url)

/-- A record as the peer calls leave it: keyed by its URL without surrounding white space, with
a score that is zero only after a failure. -/
structure PeerOk (key : String) (peer : PeerRecord) : Prop where
  key : peer.id = key
  id : peer.id = peerId peer.url
  trimmed : trimSpace peer.url = peer.url
  score : 0 ≤ peer.score
  failures : 0 ≤ peer.failures
  failed : peer.score = 0 → 0 < peer.failures

def PeersOk (n : RpcNode) : Prop := ∀ key peer, n.peers.get? key = some peer → PeerOk key peer

namespace RpcNode

theorem initialScore_of_ok {key : String} {peer : PeerRecord} (h : PeerOk key peer) :
    initialScore peer = peer := by
  rw [initialScore, if_neg]
  rintro ⟨hscore, hfailures, -⟩
  have := h.failed hscore
  omega

/-- A restart leaves sound records alone. -/
theorem mapValues_initialScore {n : RpcNode} (h : PeersOk n) :
    n.peers.mapValues initialScore = n.peers := by
  ext1 key
  rw [FinMap.get?_mapValues]
  cases hkey : n.peers.get? key with
  | none => rfl
  | some peer => rw [Option.map_some, initialScore_of_ok (h key peer hkey)]

theorem peerOk_addPeer (n : RpcNode) (ω : Choices) (url : String) :
    PeerOk (peerId (trimSpace url)) (n.addPeer ω url).1 :=
  ⟨rfl, rfl, trimSpace_trimSpace url, (by decide : (0 : ℤ) ≤ peerScoreInitial), le_refl 0,
    fun h => absurd h (by decide : peerScoreInitial ≠ 0)⟩

theorem peerOk_recordPeerFailure {key : String} {peer : PeerRecord} (h : PeerOk key peer)
    (ω : Choices) : PeerOk key (recordPeerFailure ω peer) := by
  have hfailures := h.failures
  exact ⟨h.key, h.id, h.trimmed, le_max_left _ _, Int.le_add_one hfailures,
    fun _ => Int.lt_add_one_of_le hfailures⟩

theorem peerOk_recordPeerSuccess {key : String} {peer : PeerRecord} (h : PeerOk key peer)
    (ω : Choices) : PeerOk key (recordPeerSuccess ω peer) := by
  have hscore := h.score
  have hpos : 0 < min peerScoreMax (peer.score + peerSuccessReward) := by
    rw [peerScoreMax, peerSuccessReward]
    omega
  exact ⟨h.key, h.id, h.trimmed, hpos.le, le_refl 0, fun hzero => absurd hzero hpos.ne'⟩

/-! ## What a sync does to the peers -/

theorem syncBlock_peers (n : RpcNode) (cfg : Config) (ω : Choices) (height : ℕ)
    (block : PeerBlock) : (n.syncBlock cfg ω height block).2.peers = n.peers := by
  rcases n.syncBlock_cases cfg ω height block with ⟨heq, -⟩ | ⟨e, ω₁, ω₂, disk, heq⟩ |
    ⟨ω₂, l, heq, -⟩
  · rw [heq]
  · rw [heq]
    rfl
  · rw [heq]
    exact (recordImported_sameBlocks _ _ _).peers.trans
      (n.applyPeerBlock_sameIndex cfg ((ω.call 0).call 1) block.record).peers

theorem syncPeerBlocks_peers (cfg : Config) (answers : PeerAnswers) (fuel : ℕ) (n : RpcNode)
    (ω : Choices) (height imported : ℕ) :
    (syncPeerBlocks cfg answers fuel n ω height imported).2.peers = n.peers := by
  induction fuel generalizing n ω height imported with
  | zero => rfl
  | succ fuel ih =>
      rw [syncPeerBlocks]
      split
      · rfl
      · split
        · rfl
        · dsimp only
          split
          · exact n.syncBlock_peers cfg _ _ _
          · exact (ih _ _ _ _).trans (n.syncBlock_peers cfg _ _ _)

theorem setPeer_recorded {n m : RpcNode} {key url : String} {peer : PeerRecord}
    (hm : m.peers = n.peers) (hok : PeerOk key peer) (hurl : peer.url = url) :
    ∃ peer', PeerOk key peer' ∧ peer'.url = url ∧
      (m.setPeer peer).peers = n.peers.insert key peer' := by
  refine ⟨peer, hok, hurl, ?_⟩
  rw [setPeer, hm, hok.key]
  rfl

/-- A sync that calls the peer records it again, under the same id and URL. -/
theorem syncKnownPeer_peers (n : RpcNode) (cfg : Config) (ω : Choices) {key : String}
    {peer : PeerRecord} (h : PeerOk key peer) (answers : PeerAnswers) :
    ∃ peer', PeerOk key peer' ∧ peer'.url = peer.url ∧
      (n.syncKnownPeer cfg ω peer answers).2.peers = n.peers.insert key peer' := by
  have habove : ∀ height, (n.syncAbove cfg (ω.call 2) height answers).2.peers = n.peers := by
    intro height
    rw [syncAbove]
    split
    · exact syncPeerBlocks_peers cfg answers _ n _ _ _
    · rfl
  have hseen : ∀ height lastSeen bestHash, PeerOk key
      { peer with height := height, lastSeen := lastSeen, bestHash := bestHash } := fun _ _ _ =>
    ⟨h.key, h.id, h.trimmed, h.score, h.failures, h.failed⟩
  rw [syncKnownPeer]
  cases answers.blockNumber with
  | error e => exact setPeer_recorded rfl (peerOk_recordPeerFailure h (ω.call 0)) rfl
  | ok remoteHeight =>
      have hpeers := habove (quantity64 remoteHeight)
      dsimp only
      generalize n.syncAbove cfg (ω.call 2) (quantity64 remoteHeight) answers = r at hpeers
      split
      · exact setPeer_recorded hpeers
          (peerOk_recordPeerFailure (hseen _ _ peer.bestHash) (ω.call 3)) rfl
      · refine setPeer_recorded hpeers (peerOk_recordPeerSuccess ?_ (ω.call 4)) ?_
        · split
          · exact hseen _ _ _
          · exact hseen _ _ peer.bestHash
        · rw [recordPeerSuccess]
          split <;> rfl

/-- The record has exactly this id or URL. -/
def Matches (peer : PeerRecord) (idOrURL : String) : Prop :=
  peer.id = idOrURL ∨ peer.url = idOrURL

/-- A lookup of this text finds a record and adds none. -/
def Finds (n : RpcNode) (idOrURL : String) : Prop :=
  (∃ key peer, n.peers.get? key = some peer ∧ Matches peer idOrURL) ∧
    ∀ key peer, n.peers.get? key = some peer → Matches peer idOrURL → peer.url ≠ ""

/-- A record is found by its exact id or URL, or a new one is written. -/
theorem findPeer_cases (n : RpcNode) (ω : Choices) (idOrURL : String) :
    (∃ key peer, n.peers.get? key = some peer ∧ Matches peer idOrURL ∧
      n.findPeer ω idOrURL = (peer, n)) ∨
    (¬ n.Finds idOrURL ∧ n.findPeer ω idOrURL = n.addPeer (ω.call 0) idOrURL) := by
  rw [findPeer]
  cases hfind : (n.peers.range ω.order).find? fun e => e.2.id = idOrURL || e.2.url = idOrURL with
  | none =>
      refine .inr ⟨?_, rfl⟩
      rintro ⟨⟨key, peer, hget, hmatch⟩, -⟩
      have hnone := List.find?_eq_none.mp hfind (key, peer)
        (FinMap.mem_range.mpr (FinMap.get?_eq_some.mp hget))
      simp only [Bool.or_eq_true, decide_eq_true_eq] at hnone
      exact hnone hmatch
  | some e =>
      have hmem := FinMap.get?_eq_some.mpr (FinMap.mem_range.mp (List.mem_of_find?_eq_some hfind))
      have hmatch := List.find?_some hfind
      simp only [Bool.or_eq_true, decide_eq_true_eq] at hmatch
      dsimp only [Option.map_some, Option.getD_some]
      split
      · next hempty => exact .inr ⟨fun hfinds => hfinds.2 _ _ hmem hmatch hempty, rfl⟩
      · exact .inl ⟨e.1, e.2, hmem, hmatch, rfl⟩

/-- A sync changes one record, the one it found or added; a banned peer's stays as it was. -/
theorem syncPeer_peers (n : RpcNode) (h : PeersOk n) (cfg : Config) (ω : Choices)
    (idOrURL : String) (answers : PeerAnswers) :
    (n.syncPeer cfg ω idOrURL answers).2.peers = n.peers ∨
    ∃ key peer, (n.syncPeer cfg ω idOrURL answers).2.peers = n.peers.insert key peer ∧
      PeerOk key peer ∧ peer.url = (n.findPeer (ω.call 0) idOrURL).1.url := by
  rw [syncPeer]
  rcases n.findPeer_cases (ω.call 0) idOrURL with ⟨key, peer, hget, -, heq⟩ | ⟨-, heq⟩
  · rw [heq]
    split
    · exact .inl rfl
    · obtain ⟨peer', hok, hurl, hpeers⟩ := n.syncKnownPeer_peers cfg (ω.call 2)
        (h key peer hget) answers
      exact .inr ⟨key, peer', hpeers, hok, hurl⟩
  · have hadded := n.peerOk_addPeer ((ω.call 0).call 0) idOrURL
    have hinsert : (n.addPeer ((ω.call 0).call 0) idOrURL).2.peers =
        n.peers.insert (peerId (trimSpace idOrURL))
          (n.addPeer ((ω.call 0).call 0) idOrURL).1 := rfl
    rw [heq]
    split
    · exact .inr ⟨_, _, hinsert, hadded, rfl⟩
    · obtain ⟨peer', hok, hurl, hpeers⟩ := syncKnownPeer_peers
        (n.addPeer ((ω.call 0).call 0) idOrURL).2 cfg (ω.call 2) hadded answers
      refine .inr ⟨_, peer', ?_, hok, hurl⟩
      rw [hpeers, hinsert, FinMap.insert_insert]

theorem minePendingBlock_peers (n : RpcNode) (cfg : Config) (ω : Choices) :
    (n.minePendingBlock cfg ω).2.peers = n.peers := by
  obtain ⟨block, l, heq, -⟩ := n.minePendingBlock_eq cfg ω
  have hsame : SameBlocks { n with pendingTxs := [] } (n.minePendingTxs cfg ω).2.2 :=
    mineTxs_sameBlocks n.pendingTxs
  rw [heq]
  exact hsame.peers

theorem enqueue_peers (n : RpcNode) (cfg : Config) (ω : Choices) (record : TxRecord) :
    (n.enqueue cfg ω record).peers = n.peers := by
  rw [enqueue]
  split
  · exact minePendingBlock_peers _ cfg ω
  · rfl

/-- No call but a peer call changes the peer list. -/
theorem next_peers {n : RpcNode} (h : ChainOk n) (hpeers : PeersOk n) (cfg : Config) (ω : Choices)
    {e : Event} (he : e.partOfSync = false) : (n.next cfg ω e).peers = n.peers := by
  cases e with
  | sendTransaction tx =>
      rw [next]
      rcases n.sendTransaction_cases cfg ω tx with heq | ⟨-, heq⟩
      · rw [heq]
      · rw [heq]; exact n.enqueue_peers cfg _ _
  | sendRawTransaction rawTx => exact n.enqueue_peers cfg _ _
  | mineBlock => exact n.minePendingBlock_peers cfg ω
  | handleReorg height newHash =>
      rw [next]
      rcases n.handleReorg_cases ω height newHash with heq | ⟨s, -, -, heq⟩
      · rw [heq]
      · rw [heq]; rfl
  | syncBlock block => cases he
  | setPeer peer => cases he
  | submitBridgeEvent event => rfl
  | initiateWithdrawal request => exact (initiateWithdrawal_sameChain request).peers
  | processWithdrawal id answer =>
      rw [next, processWithdrawal]
      split
      · rfl
      · rfl
      · split <;> rfl
  | submitAnchor anchor => exact (submitAnchor_sameChain anchor).peers
  | replayChain =>
      rw [next]
      rcases n.replayChain_cases cfg ω with heq | ⟨ω₁, ω₂, disk, heq⟩
      · rw [heq]
      · rw [heq]; rfl
  | validateBlock block =>
      rw [next]
      rcases n.validateBlockRecord_cases cfg ω block with heq | ⟨ω₁, ω₂, disk, heq⟩
      · rw [heq]
      · rw [heq]; rfl
  | restart =>
      obtain ⟨index, disk, heq, -⟩ := h.restart cfg ω
      rw [next, heq]
      exact mapValues_initialScore hpeers

end RpcNode

theorem PeersOk.insert {n n' : RpcNode} (h : PeersOk n) {key : String} {peer : PeerRecord}
    (hpeers : n'.peers = n.peers.insert key peer) (hok : PeerOk key peer) : PeersOk n' := by
  intro key' peer' hget
  rw [hpeers, FinMap.get?_insert] at hget
  split at hget
  · next heq =>
      cases hget
      exact heq ▸ hok
  · exact h key' peer' hget

/-- The peer calls leave sound records. -/
theorem PeersOk.answer {n : RpcNode} (h : PeersOk n) (hchain : ChainOk n) {cfg : Config}
    {ω : Choices} {r : Request} (hr : r.Allowed) : PeersOk (n.answer cfg ω r) := by
  cases r with
  | serve e =>
      intro key peer hget
      rw [RpcNode.answer, RpcNode.next_peers hchain h cfg ω hr] at hget
      exact h key peer hget
  | addPeer url => exact h.insert rfl (n.peerOk_addPeer ω url)
  | syncPeer idOrURL answers =>
      rcases n.syncPeer_peers h cfg ω idOrURL answers with heq | ⟨key, peer, heq, hok, -⟩
      · intro key peer hget
        rw [RpcNode.answer, heq] at hget
        exact h key peer hget
      · exact h.insert heq hok

theorem peersOk_fresh (cfg : Config) (ω : Choices) : PeersOk (newRPCNode cfg ω {}) := by
  obtain ⟨ω₁, l, timestamp, heq, -⟩ := newRPCNode_fresh cfg ω
  intro key peer hget
  rw [heq] at hget
  cases hget

/-- **Served nodes.** The chain is sound and every peer is recorded under the hash of its
trimmed URL. -/
theorem Served.sound {cfg : Config} {n : RpcNode} (h : Served cfg n) :
    RoomyChain n ∧ PeersOk n :=
  h.induct (peersOk_fresh cfg) fun _ _ _ hroomy hpeers hr => hpeers.answer hroomy.chain hr

end BhtBhte.Node
