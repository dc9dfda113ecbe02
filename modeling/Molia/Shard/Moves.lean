import Molia.Shard.Following

/-!
# What handlers do on the network side

A handler of messages, commands or timers sends messages, learns something, or meets a peer, for
whom a tunnel is made. Only the first changes what is sent, and only the first and the last the
tunnels. `Moves` says that a step is made up of such moves. All handlers are, but for the keepalive
timer, which looks after the tunnels; what is received through a tunnel, and the flush of a queue,
are not moves either.

A fact about everything that is sent is then a fact about one move.
-/

namespace Molia

variable [Crates]

attribute [local irreducible] message

namespace ShardNet

/-- What is sent, what waits to be sent, and in which mode. -/
def wire (n : ShardNet) :
    NodeConfig × List Sent × List SendCall × HashMap SocketAddr (List Queued) :=
  (n.cfg, n.sent, n.calls, n.pendingWg)

inductive Move : ShardNet → ShardNet → Prop
  | post {n n' : ShardNet} (h : Post n n') : Move n n'
  | learn {n n' : ShardNet} (hwire : n'.wire = n.wire) (hwg : n'.wg = n.wg) : Move n n'
  | meet (n : ShardNet) (peer : Bytes32) (peerId : Option NodeId) (endpoint : Option SocketAddr) :
    Move n { n with wg := n.wg.addPeer peer peerId endpoint }

abbrev Moves : ShardNet → ShardNet → Prop := Relation.ReflTransGen Move

namespace Moves

variable {n n' : ShardNet}

/-- **The rule.** -/
theorem invariant {I : ShardNet → Prop} (h : Moves n n') (hmove : ∀ n n', Move n n' → I n → I n')
    (hn : I n) : I n' := by
  induction h with
  | refl => exact hn
  | tail _ hlast ih => exact hmove _ _ hlast ih

theorem of_posts (h : Posts n n') : Moves n n' :=
  Relation.ReflTransGen.mono (fun _ _ ↦ Move.post) n n' h

theorem of_wire (hwire : n'.wire = n.wire) (hwg : n'.wg = n.wg) : Moves n n' :=
  .single (.learn hwire hwg)

theorem notePeerKeys (n : ShardNet) (src : SocketAddr) (x25519 ed25519 sig : Bytes) :
    Moves n (n.notePeerKeys src x25519 ed25519 sig).2 := by
  rw [ShardNet.notePeerKeys]
  split
  · exact .refl
  · split_ifs
    · exact .refl
    · exact .refl
    · exact .tail (.single (.meet n _ _ _)) (.learn rfl rfl)

theorem learnAddr (n : ShardNet) (src : SocketAddr) (id : Option NodeId) :
    Moves n (n.learnAddr src id) := by
  rcases id with _ | id
  · exact of_wire rfl rfl
  · exact of_wire rfl rfl

theorem injectPeer (n : ShardNet) (info : PeerInfo) : Moves n (ShardCtx.injectPeer n info) := by
  rw [ShardCtx.injectPeer]
  rcases info.x25519 with _ | x
  · exact of_wire rfl rfl
  · rcases info.primaryAddr with _ | addr
    · exact .tail (.single (.meet n _ _ _)) (.learn rfl rfl)
    · exact .tail (.single (.meet n _ _ _)) (.learn rfl rfl)

theorem followsPunches : FollowsPunches Moves where
  refl _ := .refl
  trans h h' := h.trans h'
  posts h := of_posts h
  attempts _ _ := of_wire rfl rfl
  schedule _ _ := of_wire rfl rfl

theorem answerPunch (n : ShardNet) (src : SocketAddr) (sender : NodeId) (cands : List SocketAddr)
    (first : SocketAddr) : Moves n (n.answerPunch src sender cands first) := by
  have hattempt : ∀ table punches, Moves n { n with table, punches } := fun _ _ ↦ of_wire rfl rfl
  rw [ShardNet.answerPunch]
  refine Relation.ReflTransGen.trans ?_
    ((followsPunches.burstPunch _ sender).trans (followsPunches.schedule _ _))
  split
  · exact hattempt _ _
  · exact (hattempt _ _).trans (of_posts (Posts.sendPunchMsg _ _ _ _))

theorem follows : FollowsHandlers Moves where
  toFollowsPosts := followsPunches.toFollowsPosts
  relays _ _ _ := of_wire rfl rfl
  sybil _ _ := of_wire rfl rfl
  notePeerKeys := notePeerKeys
  learnAddr := learnAddr
  mapped _ _ := of_wire rfl rfl
  insertPeer _ _ := of_wire rfl rfl
  upsertPeer _ _ := of_wire rfl rfl
  injectPeer := injectPeer
  startPunch n rendezvous peer := followsPunches.startPunch rendezvous n peer
  answerPunch := answerPunch
  replied _ _ := of_wire rfl rfl

end Moves

end ShardNet

namespace ShardCtx

open ShardNet

theorem moves_onTimer (c : ShardCtx) {kind : TimerKind} (h : kind ≠ .keepalive) :
    Moves c.toShardNet (c.onTimer kind).toShardNet := by
  rcases kind with _ | _ | _ | _ | _
  · exact absurd rfl h
  · exact Moves.of_wire rfl rfl
  · exact Moves.of_wire rfl rfl
  · refine Relation.ReflTransGen.tail ?_ (.learn (n := c.onLookupTick.toShardNet) rfl rfl)
    rw [onLookupTick]
    refine Relation.ReflTransGen.trans ?_ (Moves.of_posts (posts_sweepLookups _))
    exact Moves.follows.foldl (f := blame) (fun _ _ ↦ Moves.of_wire rfl rfl) _ _
  · exact Moves.follows.onPunchTimer Moves.followsPunches c.toShardNet

end ShardCtx

end Molia
