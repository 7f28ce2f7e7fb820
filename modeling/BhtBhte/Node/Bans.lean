import BhtBhte.Node.Requests

/-!
# Banned peers

A ban is a time in the record of a peer.  `syncPeer` reads it, but `addPeer` writes the record anew,
and a sync of a text that is no recorded id or URL goes through `addPeer`, which trims the text
first.  A ban therefore lasts exactly as long as no call writes that record again.
`contacts_of_banned`: over runs of such calls the URL is not called.
-/
namespace BhtBhte.Node
open BhtBhte.Lib
variable [Platform]

namespace RpcNode

/-- The URL that `syncPeer` calls, when it calls one. -/
def contacts (n : RpcNode) (ω : Choices) (idOrURL : String) : Option String :=
  let peer := (n.findPeer (ω.call 0) idOrURL).1
  if (ω.call 1).unix < peer.bannedUntil then none else some peer.url

/-- Without a contact the answers of the peer play no part. -/
theorem syncPeer_of_contacts_eq_none {n : RpcNode} {ω : Choices} {idOrURL : String}
    (h : n.contacts ω idOrURL = none) (cfg : Config) (answers : PeerAnswers) :
    (n.syncPeer cfg ω idOrURL answers).1.synced = false ∧
      ∀ answers', n.syncPeer cfg ω idOrURL answers' = n.syncPeer cfg ω idOrURL answers := by
  have hbanned : (ω.call 1).unix < (n.findPeer (ω.call 0) idOrURL).1.bannedUntil := by
    by_contra hnot
    rw [contacts, if_neg hnot] at h
    cases h
  simp only [syncPeer, if_pos hbanned, implies_true, and_self]

end RpcNode

/-- The record of the URL has a ban until `T`. -/
def BannedUntil (n : RpcNode) (url : String) (T : ℤ) : Prop :=
  ∃ peer, n.peers.get? (peerId url) = some peer ∧ peer.url = url ∧ peer.bannedUntil = T

/-- A request before `T` that does not write the record of the URL anew: a peer with another id
is added, and a sync finds its text or would add a peer with another id. -/
def KeepsBan (url : String) (T : ℤ) (n : RpcNode) (ω : Choices) : Request → Prop
  | .serve _ => True
  | .addPeer added => peerId (trimSpace added) ≠ peerId url
  | .syncPeer idOrURL _ => (ω.call 1).unix < T ∧
      (n.Finds idOrURL ∨ peerId (trimSpace idOrURL) ≠ peerId url)

section Step
variable {n : RpcNode} {cfg : Config} {ω : Choices} {url : String} {T : ℤ}

/-- Such a sync finds the banned record, and stops, or calls another peer. -/
theorem findPeer_of_keepsBan (h : PeersOk n) (hban : BannedUntil n url T) {idOrURL : String}
    {answers : PeerAnswers} (hkeep : KeepsBan url T n ω (.syncPeer idOrURL answers)) :
    (ω.call 1).unix < (n.findPeer (ω.call 0) idOrURL).1.bannedUntil ∧
        (n.findPeer (ω.call 0) idOrURL).2 = n ∨
      peerId (n.findPeer (ω.call 0) idOrURL).1.url ≠ peerId url := by
  obtain ⟨banned, hget, -, hT⟩ := hban
  obtain ⟨hbefore, hknown⟩ := hkeep
  rcases n.findPeer_cases (ω.call 0) idOrURL with ⟨key, peer, hpeer, -, heq⟩ | ⟨hnew, heq⟩
  · rw [heq]
    by_cases hid : peerId peer.url = peerId url
    · -- one record for each id, so the one found is the banned one
      have hok := h key peer hpeer
      rw [← hok.key, hok.id, hid, hget] at hpeer
      cases hpeer
      exact .inl ⟨hT ▸ hbefore, rfl⟩
    · exact .inr hid
  · rw [heq]
    exact .inr (hknown.resolve_left hnew)

/-- No contact with the URL in such a sync. -/
theorem contacts_ne_of_keepsBan (h : PeersOk n) (hban : BannedUntil n url T) {idOrURL : String}
    {answers : PeerAnswers} (hkeep : KeepsBan url T n ω (.syncPeer idOrURL answers)) :
    n.contacts ω idOrURL ≠ some url := by
  intro hcontact
  rw [RpcNode.contacts] at hcontact
  rcases findPeer_of_keepsBan h hban hkeep with ⟨hbanned, -⟩ | hother
  · rw [if_pos hbanned] at hcontact
    cases hcontact
  · split at hcontact
    · cases hcontact
    · exact hother (congrArg peerId (Option.some.inj hcontact))

theorem BannedUntil.of_peers (hban : BannedUntil n url T) {n' : RpcNode}
    (hpeers : n'.peers = n.peers) : BannedUntil n' url T := by
  obtain ⟨peer, hget, hrest⟩ := hban
  exact ⟨peer, hpeers ▸ hget, hrest⟩

theorem BannedUntil.of_insert (hban : BannedUntil n url T) {n' : RpcNode} {key : String}
    {peer : PeerRecord} (hpeers : n'.peers = n.peers.insert key peer) (hne : key ≠ peerId url) :
    BannedUntil n' url T := by
  obtain ⟨banned, hget, hrest⟩ := hban
  refine ⟨banned, ?_, hrest⟩
  rw [hpeers, FinMap.get?_insert_of_ne _ _ (Ne.symm hne)]
  exact hget

/-- Such a request leaves the ban as it is. -/
theorem BannedUntil.answer (hban : BannedUntil n url T) (hchain : ChainOk n) (h : PeersOk n)
    {r : Request} (hr : r.Allowed) (hkeep : KeepsBan url T n ω r) :
    BannedUntil (n.answer cfg ω r) url T := by
  cases r with
  | serve e => exact hban.of_peers (RpcNode.next_peers hchain h cfg ω hr)
  | addPeer added => exact hban.of_insert rfl hkeep
  | syncPeer idOrURL answers =>
      rcases findPeer_of_keepsBan h hban hkeep with ⟨hbanned, hsame⟩ | hother
      · refine hban.of_peers ?_
        rw [RpcNode.answer, RpcNode.syncPeer, if_pos hbanned]
        exact congrArg (·.peers) hsame
      · rcases n.syncPeer_peers h cfg ω idOrURL answers with heq | ⟨key, peer, heq, hok, hurl⟩
        · exact hban.of_peers heq
        · refine hban.of_insert heq ?_
          rw [← hok.key, hok.id, hurl]
          exact hother

end Step

/-- **Bans.** From a served node with a ban of a URL until `T`, over every run of requests before
`T` that do not write that record anew, and in the sync that follows it, the node does not
contact the URL. -/
theorem contacts_of_banned {cfg : Config} {n n' : RpcNode} {url : String} {T : ℤ}
    (h : Served cfg n) (hban : BannedUntil n url T)
    (hrun : Relation.ReflTransGen (RequestStep cfg (KeepsBan url T)) n n') {ω : Choices}
    {idOrURL : String} {answers : PeerAnswers}
    (hkeep : KeepsBan url T n' ω (.syncPeer idOrURL answers)) :
    n'.contacts ω idOrURL ≠ some url := by
  have hinv : (RoomyChain n' ∧ PeersOk n') ∧ BannedUntil n' url T := by
    clear hkeep
    induction hrun with
    | refl => exact ⟨h.sound, hban⟩
    | tail _ hs ih =>
        obtain ⟨ω', r, hr, hok, rfl, hroom⟩ := hs
        obtain ⟨⟨hroomy, hpeers⟩, hbanned⟩ := ih
        exact ⟨⟨hroomy.answer hroom, hpeers.answer hroomy.chain hr⟩,
          hbanned.answer hroomy.chain hpeers hr hok⟩
  exact contacts_ne_of_keepsBan hinv.1.2 hinv.2 hkeep

/-! ## A ban that is lifted -/

/-- A peer that answers nothing. -/
def refusing : PeerAnswers := ⟨.error "connection refused", fun _ => .error "connection refused"⟩

def peerURL : String := "http://10.0.0.1:8545"

/-- The only recorded peer is this one, at `peerURL`. -/
structure OnlyPeer (n : RpcNode) (peer : PeerRecord) : Prop where
  peers : n.peers = (∅ : FinMap String PeerRecord).insert peer.id peer
  id : peer.id = peerId peerURL
  url : peer.url = peerURL

namespace OnlyPeer
variable {n : RpcNode} {peer : PeerRecord}

theorem get? (h : OnlyPeer n peer) {key : String} {peer' : PeerRecord}
    (hget : n.peers.get? key = some peer') : peer' = peer := by
  rw [h.peers, FinMap.get?_insert] at hget
  split at hget
  · cases hget
    rfl
  · cases hget

theorem bannedUntil (h : OnlyPeer n peer) : BannedUntil n peerURL peer.bannedUntil :=
  ⟨peer, by rw [h.peers, h.id, FinMap.get?_insert_self], h.url, rfl⟩

theorem finds (h : OnlyPeer n peer) : n.Finds peerURL := by
  refine ⟨⟨peer.id, peer, by rw [h.peers, FinMap.get?_insert_self], .inr h.url⟩, ?_⟩
  intro key peer' hget _
  rw [h.get? hget, h.url]
  decide

theorem findPeer (h : OnlyPeer n peer) (ω : Choices) : n.findPeer ω peerURL = (peer, n) := by
  rcases n.findPeer_cases ω peerURL with ⟨key, peer', hget, -, heq⟩ | ⟨hnew, -⟩
  · rw [heq, h.get? hget]
  · exact absurd h.finds hnew

/-- One refused sync of a peer that is not banned. -/
theorem syncPeer (h : OnlyPeer n peer) (cfg : Config) (ω : Choices)
    (hban : ¬ (ω.call 1).unix < peer.bannedUntil) :
    (n.syncPeer cfg ω peerURL refusing).2 =
      n.setPeer (RpcNode.recordPeerFailure ((ω.call 2).call 0) peer) := by
  rw [RpcNode.syncPeer, h.findPeer, if_neg hban]
  rfl

theorem setPeer (h : OnlyPeer n peer) {peer' : PeerRecord} (hid : peer'.id = peer.id)
    (hurl : peer'.url = peer.url) : OnlyPeer (n.setPeer peer') peer' := by
  refine ⟨?_, hid.trans h.id, hurl.trans h.url⟩
  rw [RpcNode.setPeer, h.peers, ← hid]
  exact FinMap.insert_insert _ _ _ _

end OnlyPeer

theorem Served.request {cfg : Config} {n : RpcNode} (h : Served cfg n) {ω : Choices} {r : Request}
    (hr : r.Allowed) (hblocks : (n.answer cfg ω r).blocks = n.blocks) :
    RequestStep cfg (fun _ _ _ => True) n (n.answer cfg ω r) ∧ Served cfg (n.answer cfg ω r) := by
  obtain ⟨ω₀, hrun⟩ := id h
  have hs : RequestStep cfg (fun _ _ _ => True) n (n.answer cfg ω r) :=
    ⟨ω, r, hr, trivial, rfl, by rw [hblocks]; exact h.sound.1.room⟩
  exact ⟨hs, ω₀, hrun.tail hs⟩

/-- The peer fails once more, at the epoch. -/
theorem served_failure {cfg : Config} {n : RpcNode} {peer : PeerRecord} {score : ℤ}
    (h : Served cfg n) (hpeer : OnlyPeer n peer) (hscore : peer.score = score)
    (hban : peer.bannedUntil = 0) :
    ∃ n' peer', Served cfg n' ∧ OnlyPeer n' peer' ∧ peer'.score = max 0 (score - 25) ∧
      peer'.bannedUntil = if max 0 (score - 25) = 0 then 600 else 0 := by
  have heq := hpeer.syncPeer cfg default (by rw [hban]; decide)
  have hanswer : n.answer cfg default (.syncPeer peerURL refusing) =
      n.setPeer (RpcNode.recordPeerFailure default peer) := heq
  refine ⟨n.answer cfg default (.syncPeer peerURL refusing),
    RpcNode.recordPeerFailure default peer,
    (h.request (r := .syncPeer peerURL refusing) trivial (by rw [hanswer]; rfl)).2, ?_, ?_, ?_⟩
  · rw [hanswer]
    exact hpeer.setPeer rfl rfl
  · rw [RpcNode.recordPeerFailure, hscore]
    rfl
  · rw [RpcNode.recordPeerFailure, hscore, hban]
    rfl

/-- Four failures ban the peer for ten minutes. -/
theorem exists_banned (cfg : Config) (ω : Choices) :
    ∃ n peer, Served cfg n ∧ OnlyPeer n peer ∧ peer.bannedUntil = 600 := by
  have hfresh : (newRPCNode cfg ω {}).peers = ∅ := by
    obtain ⟨ω₁, l, timestamp, heq, -⟩ := newRPCNode_fresh cfg ω
    rw [heq]
  have hserved : Served cfg (newRPCNode cfg ω {}) := ⟨ω, .refl⟩
  generalize newRPCNode cfg ω {} = n₀ at hfresh hserved
  have htrim : trimSpace peerURL = peerURL := by decide
  have hadd : OnlyPeer (n₀.addPeer default peerURL).2 (n₀.addPeer default peerURL).1 :=
    ⟨congrArg (FinMap.insert · _ _) hfresh, congrArg peerId htrim, htrim⟩
  have hadded := (hserved.request (ω := default) (r := .addPeer peerURL) trivial rfl).2
  obtain ⟨n₁, p₁, hs₁, ho₁, hscore₁, hban₁⟩ := served_failure hadded hadd rfl rfl
  obtain ⟨n₂, p₂, hs₂, ho₂, hscore₂, hban₂⟩ := served_failure hs₁ ho₁ hscore₁ hban₁
  obtain ⟨n₃, p₃, hs₃, ho₃, hscore₃, hban₃⟩ := served_failure hs₂ ho₂ hscore₂ hban₂
  obtain ⟨n₄, p₄, hs₄, ho₄, hscore₄, hban₄⟩ := served_failure hs₃ ho₃ hscore₃ hban₃
  exact ⟨n₄, p₄, hs₄, ho₄, hban₄⟩

/-- Adding the peer again lifts its ban. -/
theorem OnlyPeer.contacts_addPeer {n : RpcNode} {peer : PeerRecord} (h : OnlyPeer n peer) :
    (n.addPeer default peerURL).2.contacts default peerURL = some peerURL := by
  have htrim : trimSpace peerURL = peerURL := by decide
  have hadd : OnlyPeer (n.addPeer default peerURL).2 (n.addPeer default peerURL).1 :=
    h.setPeer ((congrArg peerId htrim).trans h.id.symm) (htrim.trans h.url.symm)
  rw [RpcNode.contacts, hadd.findPeer]
  refine (if_neg (lt_irrefl (0 : ℤ))).trans ?_
  exact congrArg some htrim

/-- So does a sync of its URL behind a space. -/
theorem OnlyPeer.contacts_space {n : RpcNode} {peer : PeerRecord} (h : OnlyPeer n peer) :
    n.contacts default (" " ++ peerURL) = some peerURL := by
  have htrim : trimSpace (" " ++ peerURL) = peerURL := by decide
  rcases n.findPeer_cases (Choices.call default 0) (" " ++ peerURL) with
    ⟨key, peer', hget, hmatch, -⟩ | ⟨-, heq⟩
  · exfalso
    rw [h.get? hget] at hmatch
    rcases hmatch with hid | hurl
    · rw [h.id] at hid
      exact hashHex_ne (by decide) _ hid
    · rw [h.url] at hurl
      exact absurd hurl (by decide)
  · rw [RpcNode.contacts, heq]
    refine (if_neg (lt_irrefl (0 : ℤ))).trans ?_
    exact congrArg some htrim

omit [Platform] in
/-- A peer that is banned at the epoch for ten minutes is called at once when it is added again,
or when its URL is given with a space in front. -/
theorem addPeer_lifts_ban :
    letI := Platform.checksums
    ∃ n, Served {} n ∧ BannedUntil n peerURL 600 ∧ (Choices.call default 1).unix < 600 ∧
      (∃ n', RequestStep {} (fun _ _ _ => True) n n' ∧
        n'.contacts default peerURL = some peerURL) ∧
      n.contacts default (" " ++ peerURL) = some peerURL := by
  let _ := Platform.checksums
  obtain ⟨n, peer, hserved, hpeer, hban⟩ := exists_banned {} default
  refine ⟨n, hserved, hban ▸ hpeer.bannedUntil, by decide, ⟨_, ?_, hpeer.contacts_addPeer⟩,
    hpeer.contacts_space⟩
  exact (hserved.request (ω := default) (r := .addPeer peerURL) trivial rfl).1

omit [Platform] in
/-- Asked for by its exact URL the banned peer is not called. -/
theorem contacts_banned :
    letI := Platform.checksums
    ∃ n, Served {} n ∧ BannedUntil n peerURL 600 ∧
      n.contacts default peerURL ≠ some peerURL := by
  let _ := Platform.checksums
  obtain ⟨n, peer, hserved, hpeer, hban⟩ := exists_banned {} default
  have hbanned : BannedUntil n peerURL 600 := hban ▸ hpeer.bannedUntil
  have hkeeps : KeepsBan peerURL 600 n default (.syncPeer peerURL refusing) :=
    ⟨by decide, .inl hpeer.finds⟩
  exact ⟨n, hserved, hbanned, contacts_of_banned hserved hbanned .refl hkeeps⟩

end BhtBhte.Node
