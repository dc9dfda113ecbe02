import Molia.Net.TableOps
import Molia.Shard.Following

/-!
# What a step writes into the routing table

Eight functions of a shard change its routing table, and most of them can be reached from several
messages. This module says once, for each step of the loop, which operations the step performs on
the table, and in which order (`Machine.tableOps`). The table after a step comes by these operations
from the one before (`Machine.table_step`), so a run of the shard is a run of its table, and what is
wanted of the table along it follows from what the operations keep.

A message makes a peer known in four ways: it carries a binding that verifies, it lists the peer, it
comes from the peer's address, or it asks this node to punch towards it.
-/

namespace Molia

variable [Crates]

open Crates

attribute [local irreducible] message

/-! ## Messages -/

/-- The peer that `notePeerKeys` records. -/
def boundPeer (src : SocketAddr) (x25519 ed25519 sig : Bytes) : Option PeerInfo :=
  match Bytes32.ofBytes x25519 with
  | none => none
  | some x =>
    if ed25519.length ≠ 32 ∨ sig = [] then none
    else if verifyBinding ed25519 x25519 sig = false then none
    else some { PeerInfo.new (nodeIdFromPubkey ed25519) src with x25519 := some x }

/-- The peer whose valid binding a message carries. -/
def boundBy (src : SocketAddr) (h : Header) (pkt : Bytes) : Option PeerInfo :=
  match h.ty with
  | .ping => (decodeBody Crates.ping pkt).bind fun p ↦
      boundPeer src p.x25519Pubkey p.ed25519Pubkey p.bindingSig
  | .pong => (decodeBody Crates.pong pkt).bind fun p ↦
      boundPeer src p.x25519Pubkey p.ed25519Pubkey p.bindingSig
  | _ => none

/-- The peers an answer lists. -/
def listedBy (h : Header) (pkt : Bytes) : List PeerInfo :=
  match h.ty with
  | .findNodeResp =>
    ((decodeBody Crates.findNodeResp pkt).map fun r ↦ peersFromProto r.peers).getD []
  | .findValueResp =>
    ((decodeBody Crates.findValueResp pkt).map fun r ↦ peersFromProto r.closerPeers).getD []
  | _ => []

/-- The id under which the sender of a message is entered, if it is. -/
def enteredAs (src : SocketAddr) (h : Header) (pkt : Bytes) : Option (Option NodeId) :=
  match h.ty with
  | .ping | .pong => some ((boundBy src h pkt).map PeerInfo.id)
  | .findNodeResp =>
    (decodeBody Crates.findNodeResp pkt).map fun r ↦ (peersFromProto r.peers).head?.map PeerInfo.id
  | _ => none

/-- The peer towards which a message asks this node to punch, and its candidate addresses. -/
def punchedBy (self : NodeId) (h : Header) (pkt : Bytes) :
    Option (NodeId × SocketAddr × List SocketAddr) :=
  if h.ty = .punch then
    (decodeBody Crates.punch pkt).bind fun p ↦
      match NodeId.fromBytes p.targetId, NodeId.fromBytes p.fromId with
      | some target, some sender =>
        if target = self then
          match p.candidates.filterMap fun a ↦ parseMultiaddr a.multiaddr with
          | [] => none
          | first :: rest => some (sender, first, first :: rest)
        else none
      | _, _ => none
  else none

/-- The peers whom a message makes known by a binding or by listing them. -/
def metBy (src : SocketAddr) (h : Header) (pkt : Bytes) : List PeerInfo :=
  (boundBy src h pkt).toList ++ listedBy h pkt

/-- What handling a message may write. -/
inductive MessageWrites (now : ℕ) (src : SocketAddr) (h : Header) (pkt : Bytes) :
    RoutingTable → TableOp → Prop
  | bound {t : RoutingTable} {info : PeerInfo} (hinfo : boundBy src h pkt = some info) :
    MessageWrites now src h pkt t (.insert now info)
  | listed {t : RoutingTable} {p : PeerInfo} (hp : p ∈ listedBy h pkt) :
    MessageWrites now src h pkt t (.insert now p)
  | sender {t : RoutingTable} {id : NodeId} (hid : enteredAs src h pkt = some (some id)) :
    MessageWrites now src h pkt t (.insert now ((t.known id src).pushAddr src))
  | touched {t : RoutingTable} {id : NodeId} (hid : enteredAs src h pkt = some (some id)) :
    MessageWrites now src h pkt t (.touchOk now id 80000)
  | contact {t : RoutingTable} (hid : enteredAs src h pkt = some none) :
    MessageWrites now src h pkt t (.insert now (PeerInfo.new (contactId src) src))
  | punched {t : RoutingTable} {id : NodeId} {cands : List SocketAddr} {first : SocketAddr}
    (hty : h.ty = .punch) :
    MessageWrites now src h pkt t (.insert now (cands.foldl PeerInfo.pushAddr (t.known id first)))

namespace RoutingTable

variable (t : RoutingTable) (now : ℕ)

/-- The operations that enter the sender of a message. -/
def learnOps (src : SocketAddr) : Option NodeId → List TableOp
  | some id => [.insert now ((t.known id src).pushAddr src), .touchOk now id 80000]
  | none => [.insert now (PeerInfo.new (contactId src) src)]

/-- The operations that a message makes on the table of `self`. -/
def messageOps (self : NodeId) (src : SocketAddr) (h : Header) (pkt : Bytes) : List TableOp :=
  match punchedBy self h pkt with
  | some (sender, first, cands) =>
    [.insert now (cands.foldl PeerInfo.pushAddr (t.known sender first))]
  | none =>
    (metBy src h pkt).map (.insert now) ++
      (enteredAs src h pkt).elim [] ((t.enter now (metBy src h pkt)).learnOps now src)

omit [Crates] in
theorem foldl_insert (peers : List PeerInfo) :
    (peers.map (TableOp.insert now)).foldl apply t = t.enter now peers := by
  rw [List.foldl_map]
  rfl

theorem foldl_learnOps (src : SocketAddr) (id : Option NodeId) :
    (t.learnOps now src id).foldl apply t = t.learn now src id := by
  cases id with
  | none => rfl
  | some id => rfl

theorem foldl_messageOps_of_none {self : NodeId} {src : SocketAddr} {h : Header} {pkt : Bytes}
    (hpunch : punchedBy self h pkt = none) :
    (t.messageOps now self src h pkt).foldl apply t =
      (enteredAs src h pkt).elim (t.enter now (metBy src h pkt))
        ((t.enter now (metBy src h pkt)).learn now src) := by
  rw [messageOps, hpunch]
  dsimp only
  rw [List.foldl_append, foldl_insert]
  cases enteredAs src h pkt with
  | none => rfl
  | some id => exact foldl_learnOps _ now src id

theorem along_messageOps (self : NodeId) (src : SocketAddr) (h : Header) (pkt : Bytes) :
    Runs.Along apply (MessageWrites now src h pkt) t (t.messageOps now self src h pkt) := by
  rw [messageOps]
  split
  · rename_i sender first cands hpunch
    have hty : h.ty = .punch := by
      by_contra hty
      rw [punchedBy, if_neg hty] at hpunch
      cases hpunch
    exact ⟨.punched hty, trivial⟩
  · rw [Runs.along_append, foldl_insert]
    constructor
    · have hmet : ∀ op ∈ (metBy src h pkt).map (TableOp.insert now), ∀ t,
          MessageWrites now src h pkt t op := by
        intro op hop t
        obtain ⟨info, hinfo, rfl⟩ := List.mem_map.mp hop
        rcases List.mem_append.mp hinfo with hbound | hlisted
        · exact .bound (Option.mem_toList.mp hbound)
        · exact .listed hlisted
      exact (Runs.along_of_forall hmet).mono fun t op hop ↦ hop t
    · rcases hentered : enteredAs src h pkt with _ | ⟨_ | id⟩
      · trivial
      · exact ⟨.contact hentered, trivial⟩
      · exact ⟨.sender hentered, .touched hentered, trivial⟩

end RoutingTable

namespace ShardNet

open RoutingTable

variable {n : ShardNet} {src : SocketAddr} {h : Header} {pkt : Bytes}

theorem followsPunches_table : FollowsPunches fun n n' ↦ n'.table = n.table where
  refl _ := rfl
  trans h h' := h'.trans h
  posts h := h.sends.table
  attempts _ _ := rfl
  schedule _ _ := rfl

theorem followsNotes_table : FollowsNotes fun n n' ↦ n'.table = n.table where
  toFollowsPosts := followsPunches_table.toFollowsPosts
  relays _ _ _ := rfl
  sybil _ _ := rfl

theorem notePeerKeys_of_none {x25519 ed25519 sig : Bytes}
    (hb : boundPeer src x25519 ed25519 sig = none) :
    n.notePeerKeys src x25519 ed25519 sig = (none, n) := by
  rw [notePeerKeys]
  rw [boundPeer] at hb
  split
  · rfl
  · rename_i x hx
    simp only [hx] at hb
    split_ifs at hb ⊢
    · rfl
    · rfl

theorem notePeerKeys_of_some {x25519 ed25519 sig : Bytes} {info : PeerInfo}
    (hb : boundPeer src x25519 ed25519 sig = some info) :
    (n.notePeerKeys src x25519 ed25519 sig).1 = some info.id ∧
      (n.notePeerKeys src x25519 ed25519 sig).2.env = n.env ∧
      (n.notePeerKeys src x25519 ed25519 sig).2.table = (n.table.insert n.now info).2 := by
  rw [notePeerKeys]
  rw [boundPeer] at hb
  split
  · rename_i hx
    simp only [hx] at hb
    cases hb
  · rename_i x hx
    simp only [hx] at hb
    split_ifs at hb ⊢
    cases hb
    exact ⟨rfl, rfl, rfl⟩

/-- The table after a greeting: the binding if it verifies, then the sender. -/
theorem table_greet (n : ShardNet) (src : SocketAddr) (x25519 ed25519 sig : Bytes) :
    ((n.notePeerKeys src x25519 ed25519 sig).2.learnAddr src
        (n.notePeerKeys src x25519 ed25519 sig).1).table
      = (n.table.enter n.now (boundPeer src x25519 ed25519 sig).toList).learn n.now src
        ((boundPeer src x25519 ed25519 sig).map PeerInfo.id) := by
  rcases hbound : boundPeer src x25519 ed25519 sig with _ | info
  · rw [notePeerKeys_of_none hbound]
    exact table_learnAddr n src none
  · obtain ⟨hid, henv, htable⟩ := notePeerKeys_of_some (n := n) hbound
    have hnow : (n.notePeerKeys src x25519 ed25519 sig).2.now = n.now :=
      congrArg Env.instant henv
    rw [hid, table_learnAddr, hnow, htable]
    rfl

theorem table_learnAddr_of_note {n' : ShardNet} {id : Option NodeId} {x25519 ed25519 sig : Bytes}
    (hnote : n.notePeerKeys src x25519 ed25519 sig = (id, n')) :
    (n'.learnAddr src id).table
      = (n.table.enter n.now (boundPeer src x25519 ed25519 sig).toList).learn n.now src
        ((boundPeer src x25519 ed25519 sig).map PeerInfo.id) := by
  have hgreet := n.table_greet src x25519 ed25519 sig
  rw [hnote] at hgreet
  exact hgreet

theorem boundBy_ping (src : SocketAddr) (pkt : Bytes) (hty : h.ty = .ping) :
    boundBy src h pkt = (decodeBody Crates.ping pkt).bind fun p ↦
      boundPeer src p.x25519Pubkey p.ed25519Pubkey p.bindingSig := by
  simp only [boundBy, hty]

theorem boundBy_pong (src : SocketAddr) (pkt : Bytes) (hty : h.ty = .pong) :
    boundBy src h pkt = (decodeBody Crates.pong pkt).bind fun p ↦
      boundPeer src p.x25519Pubkey p.ed25519Pubkey p.bindingSig := by
  simp only [boundBy, hty]

theorem table_onPing (hty : h.ty = .ping) :
    (n.onPing src h pkt).table = (n.table.enter n.now (boundBy src h pkt).toList).learn n.now src
      ((boundBy src h pkt).map PeerInfo.id) := by
  rw [onPing, boundBy_ping src pkt hty]
  dsimp only
  rw [(Sends.sendControl _ _ _).table]
  rcases decodeBody Crates.ping pkt with _ | p
  · exact table_learnAddr n src none
  · exact table_greet n src p.x25519Pubkey p.ed25519Pubkey p.bindingSig

theorem table_onPong (hty : h.ty = .pong) :
    (n.onPong src pkt).table = (n.table.enter n.now (boundBy src h pkt).toList).learn n.now src
      ((boundBy src h pkt).map PeerInfo.id) := by
  rw [onPong, boundBy_pong src pkt hty]
  rcases decodeBody Crates.pong pkt with _ | p
  · exact table_learnAddr n src none
  · dsimp only [Option.bind_some]
    -- our own address as the peer sees it is noted first, which the table does not see
    rcases p.observed.bind fun a ↦ parseMultiaddr a.multiaddr with _ | obs
    · dsimp only
      split
      · exact table_learnAddr_of_note ‹_›
      · exact table_learnAddr_of_note ‹_›
    · dsimp only
      split
      · exact table_learnAddr_of_note (n := { n with mapped := some obs }) ‹_›
      · exact table_learnAddr_of_note (n := { n with mapped := some obs }) ‹_›

theorem table_onPunch (hty : h.ty = .punch) :
    (n.onPunch src pkt).table =
      (n.table.messageOps n.now n.identity.nodeId src h pkt).foldl apply n.table := by
  have hnobody : (n.table.messageOps n.now n.identity.nodeId src h pkt).foldl apply n.table
      = (punchedBy n.identity.nodeId h pkt).elim n.table fun x ↦
        (n.table.insert n.now (x.2.2.foldl PeerInfo.pushAddr (n.table.known x.1 x.2.1))).2 := by
    rcases hpunch : punchedBy n.identity.nodeId h pkt with _ | ⟨sender, first, cands⟩
    · rw [foldl_messageOps_of_none _ _ hpunch]
      simp [enteredAs, metBy, boundBy, listedBy, hty, enter]
    · rw [messageOps, hpunch]
      rfl
  rw [hnobody, onPunch, punchedBy, if_pos hty]
  rcases decodeBody Crates.punch pkt with _ | p
  · rfl
  dsimp only [Option.bind_some]
  rcases NodeId.fromBytes p.targetId with _ | target
  · rfl
  rcases NodeId.fromBytes p.fromId with _ | sender
  · rfl
  dsimp only
  split_ifs with hself
  · generalize p.candidates.filterMap (fun a ↦ parseMultiaddr a.multiaddr) = cands
    rcases cands with _ | ⟨first, rest⟩
    · rfl
    · dsimp only
      rw [answerPunch]
      refine (followsPunches_table.burstPunch _ sender).trans ?_
      split
      · rfl
      · exact (Sends.sendPunchMsg _ _ _ _).table
  · split
    · rfl
    · exact ((Sends.nextCorr n).trans (Sends.sendControl _ _ _)).table

end ShardNet

namespace ShardCtx

open RoutingTable

variable {c : ShardCtx} {src : SocketAddr} {h : Header} {pkt : Bytes}

theorem table_onFindNodeResp (hty : h.ty = .findNodeResp) :
    (c.onFindNodeResp src h pkt).table =
      (c.table.messageOps c.now c.identity.nodeId src h pkt).foldl apply c.table := by
  have hpunch : punchedBy c.identity.nodeId h pkt = none := by
    rw [punchedBy, if_neg (by rw [hty]; decide)]
  rw [foldl_messageOps_of_none _ _ hpunch, onFindNodeResp]
  rcases hdec : decodeBody Crates.findNodeResp pkt with _ | resp
  · simp [enteredAs, metBy, boundBy, listedBy, hty, hdec, enter]
  · obtain ⟨hnow, htable⟩ :=
      ShardNet.table_foldl_upsert src (peersFromProto resp.peers) c.toShardNet
    have hmet : metBy src h pkt = peersFromProto resp.peers := by
      simp [metBy, boundBy, listedBy, hty, hdec]
    have hentered : enteredAs src h pkt
        = some ((peersFromProto resp.peers).head?.map PeerInfo.id) := by
      simp [enteredAs, hty, hdec]
    dsimp only
    rw [(posts_completeCloser _ h.correlation src _).sends.table, hmet, hentered]
    generalize (peersFromProto resp.peers).foldl
      (fun n p ↦ ((n.insertPeer p).upsertPeer p).startPunch src p) c.toShardNet = n at hnow htable ⊢
    refine (ShardNet.table_learnAddr n src _).trans ?_
    rw [hnow, htable]
    rfl

theorem table_onFindValueResp (hty : h.ty = .findValueResp) :
    (c.onFindValueResp src h pkt).table =
      (c.table.messageOps c.now c.identity.nodeId src h pkt).foldl apply c.table := by
  have hpunch : punchedBy c.identity.nodeId h pkt = none := by
    rw [punchedBy, if_neg (by rw [hty]; decide)]
  rw [foldl_messageOps_of_none _ _ hpunch]
  rcases hdec : decodeBody Crates.findValueResp pkt with _ | resp
  · simp [onFindValueResp, enteredAs, metBy, boundBy, listedBy, hty, hdec, enter]
  · obtain ⟨-, htable⟩ :=
      ShardNet.table_foldl_meet src (peersFromProto resp.closerPeers) c.toShardNet
    have hmet : metBy src h pkt = peersFromProto resp.closerPeers := by
      simp [metBy, boundBy, listedBy, hty, hdec]
    have hentered : enteredAs src h pkt = none := by
      simp [enteredAs, hty]
    rw [onFindValueResp_of_decode hdec, (posts_sweepLookups _).sends.table,
      (posts_takeResult _ _ src h _ _).sends.table, hmet, hentered]
    exact htable

theorem foldl_messageOps_of_greeting (c : ShardCtx) (hty : h.ty = .ping ∨ h.ty = .pong) :
    (c.table.messageOps c.now c.identity.nodeId src h pkt).foldl apply c.table
      = (c.table.enter c.now (boundBy src h pkt).toList).learn c.now src
        ((boundBy src h pkt).map PeerInfo.id) := by
  have hpunch : punchedBy c.identity.nodeId h pkt = none := by
    rw [punchedBy, if_neg]
    rcases hty with hty | hty
    · rw [hty]
      decide
    · rw [hty]
      decide
  have hmet : metBy src h pkt = (boundBy src h pkt).toList := by
    rcases hty with hty | hty
    · simp [metBy, listedBy, hty]
    · simp [metBy, listedBy, hty]
  have hentered : enteredAs src h pkt = some ((boundBy src h pkt).map PeerInfo.id) := by
    rcases hty with hty | hty
    · simp [enteredAs, hty]
    · simp [enteredAs, hty]
  rw [foldl_messageOps_of_none _ _ hpunch, hmet, hentered]
  rfl

theorem foldl_messageOps_of_other (c : ShardCtx) (src : SocketAddr) (h : Header) (pkt : Bytes)
    (hty : h.ty ∉ [.ping, .pong, .findNodeResp, .findValueResp, .punch]) :
    (c.table.messageOps c.now c.identity.nodeId src h pkt).foldl apply c.table = c.table := by
  simp only [List.mem_cons, List.not_mem_nil, or_false, not_or] at hty
  obtain ⟨hping, hpong, hnode, hvalue, hpunch⟩ := hty
  have hbound : boundBy src h pkt = none := by
    rw [boundBy]
    split
    · exact absurd ‹h.ty = .ping› hping
    · exact absurd ‹h.ty = .pong› hpong
    · rfl
  have hlisted : listedBy h pkt = [] := by
    rw [listedBy]
    split
    · exact absurd ‹h.ty = .findNodeResp› hnode
    · exact absurd ‹h.ty = .findValueResp› hvalue
    · rfl
  have hentered : enteredAs src h pkt = none := by
    rw [enteredAs]
    split
    · exact absurd ‹h.ty = .ping› hping
    · exact absurd ‹h.ty = .pong› hpong
    · exact absurd ‹h.ty = .findNodeResp› hnode
    · rfl
  rw [foldl_messageOps_of_none _ _ (if_neg hpunch), metBy, hbound, hlisted, hentered]
  rfl

theorem table_handleApp {authenticated : Bool} (hdec : Header.decode pkt = some h) :
    (c.handleApp src pkt authenticated).1.table =
      (c.table.messageOps c.now c.identity.nodeId src h pkt).foldl apply c.table := by
  have hposts : ∀ {n}, ShardNet.Posts c.toShardNet n → n.table = c.table := fun hn ↦ hn.sends.table
  have hunsupported := hposts (ShardNet.Posts.onUnsupported c.toShardNet src h authenticated)
  have hother := foldl_messageOps_of_other c src h pkt
  simp only [handleApp, hdec]
  rcases hty : h.ty
  all_goals rw [hty] at hother
  · rw [foldl_messageOps_of_greeting c (Or.inl hty)]
    exact ShardNet.table_onPing hty
  · rw [foldl_messageOps_of_greeting c (Or.inr hty)]
    exact ShardNet.table_onPong hty
  · exact (hposts (ShardNet.Posts.sendMessage _ _ _ _)).trans (hother (by decide)).symm
  · exact hunsupported.trans (hother (by decide)).symm
  · exact (hposts (ShardNet.Posts.onFindNode _ src h pkt)).trans (hother (by decide)).symm
  · exact table_onFindNodeResp hty
  · exact (hposts (ShardNet.Posts.onFindValue _ c.store src h pkt)).trans (hother (by decide)).symm
  · exact table_onFindValueResp hty
  · exact (follows_onStore ShardNet.followsNotes_table c src h pkt).trans
      (hother (by decide)).symm
  · exact hunsupported.trans (hother (by decide)).symm
  · exact (follows_onAnnounce ShardNet.followsNotes_table c src h pkt).trans
      (hother (by decide)).symm
  · exact hunsupported.trans (hother (by decide)).symm
  · exact ShardNet.table_onPunch hty
  · exact (ShardNet.followsNotes_table.onRelay _ src pkt).trans (hother (by decide)).symm
  · exact hunsupported.trans (hother (by decide)).symm
  · exact hunsupported.trans (hother (by decide)).symm
  · exact (hother (by decide)).symm

/-! ## Commands and timers -/

theorem table_injectPeer (c : ShardCtx) (info : PeerInfo) (tx : Chan) :
    (c.handleCmd (.injectPeer info) tx).table = (c.table.insert c.now info).2 := by
  show (injectPeer c.toShardNet info).table = _
  rw [injectPeer]
  rcases info.x25519 with _ | x
  · rfl
  · rcases info.primaryAddr with _ | addr
    · rfl
    · rfl

theorem table_onLookupTick (c : ShardCtx) :
    c.onLookupTick.table = (c.timedOut.map TableOp.markFail).foldl apply c.table := by
  rw [onLookupTick, (posts_sweepLookups _).sends.table, List.foldl_map]
  exact (List.foldl_hom ShardNet.table fun _ _ ↦ rfl).symm

theorem table_onTimer (c : ShardCtx) {kind : TimerKind} (hkind : kind ≠ .lookupTick) :
    (c.onTimer kind).table = c.table := by
  rcases kind with _ | _ | _ | _ | _
  · exact (ShardNet.Punches.onKeepalive c.toShardNet).table
  · rfl
  · rfl
  · exact absurd rfl hkind
  · exact ShardNet.followsNotes_table.onPunchTimer ShardNet.followsPunches_table c.toShardNet

/-! ## The loop -/

theorem table_handleDatagram (c : ShardCtx) (src : SocketAddr) (pkt : Bytes) :
    (c.handleDatagram src pkt).1.table = c.table := by
  obtain ⟨wg, sybil, sent, heq⟩ := c.handleDatagram_fst src pkt
  rw [heq]

theorem table_drainTurn (c : ShardCtx) (src : SocketAddr) :
    (c.drainTurn src).1.table = c.table := by
  obtain ⟨wg, sent, heq⟩ := c.drainTurn_fst src
  rw [heq]

end ShardCtx

/-- What a step of the loop may write. -/
inductive Machine.Writes (m : Machine) (e : Event) : RoutingTable → TableOp → Prop
  | injected {t : RoutingTable} {info : PeerInfo} (hin : e.input = .command (.injectPeer info)) :
    m.Writes e t (.insert e.env.instant info)
  | message {t : RoutingTable} {op : TableOp} {src : SocketAddr} {pkt : Bytes}
    {authenticated : Bool} {ts : List Task} {h : Header} (hin : e.input = .work)
    (hwork : m.work = .app src pkt authenticated :: ts) (hdec : Header.decode pkt = some h)
    (hop : MessageWrites e.env.instant src h pkt t op) : m.Writes e t op
  | timedOut {t : RoutingTable} {ts : List Task} {id : NodeId} (hin : e.input = .work)
    (hwork : m.work = .timer .lookupTick :: ts) (hid : id ∈ (m.ctxAt e.env).timedOut) :
    m.Writes e t (.markFail id)

namespace Machine

variable (m : Machine) (e : Event)

/-- The operations that a task makes on the table. -/
def taskOps (c : ShardCtx) : Task → List TableOp
  | .app src pkt _ =>
    (Header.decode pkt).elim [] (c.table.messageOps c.now c.identity.nodeId src · pkt)
  | .timer .lookupTick => c.timedOut.map .markFail
  | _ => []

/-- The operations that a command makes on the table. -/
def commandOps (now : ℕ) : ShardCmd → List TableOp
  | .injectPeer info => [.insert now info]
  | _ => []

/-- The operations that a step makes on the table. -/
def tableOps : List TableOp :=
  match e.input with
  | .command cmd => if m.Ready then commandOps e.env.instant cmd else []
  | .work => m.work.head?.elim [] (taskOps (m.ctxAt e.env))
  | _ => []

theorem taskOps_timer_of_ne (c : ShardCtx) {kind : TimerKind} (hkind : kind ≠ .lookupTick) :
    taskOps c (.timer kind) = [] := by
  cases kind with
  | lookupTick => exact absurd rfl hkind
  | _ => rfl

open RoutingTable ShardCtx in
theorem table_runTask (c : ShardCtx) (t : Task) :
    (c.runTask t).1.table = (taskOps c t).foldl apply c.table := by
  rcases t with ⟨src, pkt, authenticated⟩ | src | src | kind
  · rw [taskOps]
    rcases hdec : Header.decode pkt with _ | h
    · show (c.handleApp src pkt authenticated).1.table = _
      simp only [handleApp, hdec]
      rfl
    · exact table_handleApp hdec
  · exact table_drainTurn c src
  · exact (ShardNet.Sends.flushPendingWg _ src).table
  · by_cases hkind : kind = .lookupTick
    · subst hkind
      exact table_onLookupTick c
    · rw [taskOps_timer_of_ne c hkind]
      exact table_onTimer c hkind

theorem table_handleCmd (c : ShardCtx) (cmd : ShardCmd) (tx : Chan) :
    (c.handleCmd cmd tx).table = (commandOps c.now cmd).foldl RoutingTable.apply c.table := by
  by_cases hcmd : ∃ info, cmd = .injectPeer info
  · obtain ⟨info, rfl⟩ := hcmd
    exact c.table_injectPeer info tx
  · have hnone : commandOps c.now cmd = [] := by
      rw [commandOps]
      rintro info rfl
      exact hcmd ⟨info, rfl⟩
    rw [hnone]
    exact (c.posts_handleCmd (not_exists.mp hcmd) tx).sends.table

theorem table_step_command (env : Env) (cmd : ShardCmd) :
    (m.step ⟨env, .command cmd⟩).ctx.table
      = (m.tableOps ⟨env, .command cmd⟩).foldl RoutingTable.apply m.ctx.table := by
  simp only [step, tableOps]
  split_ifs
  · exact table_handleCmd (m.ctxAt env) cmd m.asked.length
  · rfl

theorem table_step_work (env : Env) :
    (m.step ⟨env, .work⟩).ctx.table
      = (m.tableOps ⟨env, .work⟩).foldl RoutingTable.apply m.ctx.table := by
  simp only [tableOps]
  rcases h : m.work with _ | ⟨t, ts⟩
  · rw [step_work_nil h]
    rfl
  · rw [step_work h]
    exact table_runTask (m.ctxAt env) t

/-- **What a step does to the table.** -/
theorem table_step :
    (m.step e).ctx.table = (m.tableOps e).foldl RoutingTable.apply m.ctx.table := by
  obtain ⟨env, input⟩ := e
  -- but for commands and tasks there are no operations, and the table is as it was
  cases input with
  | command cmd => exact m.table_step_command env cmd
  | work => exact m.table_step_work env
  | datagram src pkt =>
    simp only [step]
    split_ifs
    · exact ShardCtx.table_handleDatagram _ src pkt
    · rfl
  | tick =>
    simp only [step]
    split_ifs
    · rfl
    · rfl
  | reorder r => rfl
  | exit =>
    simp only [step]
    split_ifs
    · rfl
    · rfl

theorem along_taskOps (env : Env) {t : Task} {ts : List Task} (hwork : m.work = t :: ts) :
    Runs.Along RoutingTable.apply (m.Writes ⟨env, .work⟩) m.ctx.table
      (taskOps (m.ctxAt env) t) := by
  rcases t with ⟨src, pkt, authenticated⟩ | src | src | kind
  · rw [taskOps]
    rcases hdec : Header.decode pkt with _ | h
    · trivial
    · exact (RoutingTable.along_messageOps _ _ _ src h pkt).mono
        fun _ _ hop ↦ .message rfl hwork hdec hop
  · trivial
  · trivial
  · by_cases hkind : kind = .lookupTick
    · subst hkind
      have hmark : ∀ op ∈ (m.ctxAt env).timedOut.map TableOp.markFail, ∀ t,
          m.Writes ⟨env, .work⟩ t op := by
        intro op hop t
        obtain ⟨id, hid, rfl⟩ := List.mem_map.mp hop
        exact .timedOut rfl hwork hid
      exact (Runs.along_of_forall hmark).mono fun t op hop ↦ hop t
    · rw [taskOps_timer_of_ne _ hkind]
      trivial

theorem along_tableOps :
    Runs.Along RoutingTable.apply (m.Writes e) m.ctx.table (m.tableOps e) := by
  obtain ⟨env, input⟩ := e
  cases input with
  | command cmd =>
    simp only [tableOps]
    split_ifs
    · cases cmd with
      | injectPeer info => exact ⟨.injected rfl, trivial⟩
      | _ => trivial
    · trivial
  | work =>
    simp only [tableOps]
    rcases hwork : m.work with _ | ⟨t, ts⟩
    · trivial
    · exact m.along_taskOps env hwork
  | _ => trivial

theorem reaches_step : RoutingTable.Reaches (m.Writes e) m.ctx.table (m.step e).ctx.table :=
  ⟨m.tableOps e, m.along_tableOps e, (m.table_step e).symm⟩

end Machine

end Molia
