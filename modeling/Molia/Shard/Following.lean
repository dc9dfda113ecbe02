import Molia.Shard.Pending

/-!
# Relations that follow the handlers

What a shard keeps in order from one step to the next is a relation between the network side before
and after: timers stay armed, the table is only written in certain ways, nothing leaves in the
clear. The handlers are the same for all of them. This module goes through the handlers once, for
any preorder that holds of the few things they do.

## What is asked

`FollowsRelays` is for the handlers that only send and note something down about a relay, and
`FollowsNotes` for those that also take tokens from the buckets of a sender. `FollowsMeetings` is
for what the others do: they take in the keys and the address of a sender, they enter peers, and
they punch. How a punch is made up is left to the relation, since it need not hold in the middle of
one. `FollowsHandlers` is all of it.
-/

namespace Molia

variable [Crates]

attribute [local irreducible] message

namespace ShardNet

namespace Posts

theorem onFindNode (n : ShardNet) (src : SocketAddr) (h : Header) (pkt : Bytes) :
    Posts n (n.onFindNode src h pkt) := by
  rw [ShardNet.onFindNode]
  split
  · exact .refl
  · exact Posts.sendMessage _ _ _ _

theorem onFindValue (n : ShardNet) (store : Store) (src : SocketAddr) (h : Header) (pkt : Bytes) :
    Posts n (n.onFindValue store src h pkt) := by
  rw [ShardNet.onFindValue]
  split
  · exact .refl
  · split
    · exact .refl
    · exact Posts.sendMessage _ _ _ _

theorem onUnsupported (n : ShardNet) (src : SocketAddr) (h : Header) (authenticated : Bool) :
    Posts n (n.onUnsupported src h authenticated) := by
  rw [ShardNet.onUnsupported]
  split_ifs
  · exact Posts.sendMessage _ _ _ _
  · exact .refl

end Posts

/-- It also holds when the budget for relaying or the relays of peers change. -/
structure FollowsRelays (R : ShardNet → ShardNet → Prop) : Prop extends FollowsPosts R where
  relays : ∀ n relay viaRelay, R n { n with relay, viaRelay }

/-- It also holds when the limits of senders change. -/
structure FollowsNotes (R : ShardNet → ShardNet → Prop) : Prop extends FollowsRelays R where
  sybil : ∀ n sybil, R n { n with sybil }

structure FollowsMeetings (R : ShardNet → ShardNet → Prop) : Prop extends FollowsRelays R where
  notePeerKeys : ∀ n src x25519 ed25519 sig,
    R n (ShardNet.notePeerKeys n src x25519 ed25519 sig).2
  learnAddr : ∀ n src id, R n (ShardNet.learnAddr n src id)
  mapped : ∀ n mapped, R n { n with mapped }
  insertPeer : ∀ n info, R n (ShardNet.insertPeer n info)
  upsertPeer : ∀ n info, R n (ShardNet.upsertPeer n info)
  injectPeer : ∀ n info, R n (ShardCtx.injectPeer n info)
  startPunch : ∀ n rendezvous peer, R n (ShardNet.startPunch rendezvous n peer)
  answerPunch : ∀ n src sender cands first, R n (ShardNet.answerPunch n src sender cands first)
  /-- An attempt whose peer has answered is over. -/
  replied : ∀ n id, R n { n with viaRelay := n.viaRelay.erase id, punches := n.punches.erase id }

structure FollowsHandlers (R : ShardNet → ShardNet → Prop) : Prop extends
  FollowsMeetings R, FollowsNotes R

variable {R : ShardNet → ShardNet → Prop}

/-- An answer to a punch is made up of a peer that is entered, an attempt, and what is sent. -/
theorem FollowsPunches.answerPunch (hR : FollowsPunches R)
    (hinsert : ∀ n info, R n (ShardNet.insertPeer n info)) (n : ShardNet) (src : SocketAddr)
    (sender : NodeId) (cands : List SocketAddr) (first : SocketAddr) :
    R n (n.answerPunch src sender cands first) := by
  rw [ShardNet.answerPunch]
  refine hR.trans ?_ (hR.trans (hR.burstPunch _ sender) (hR.schedule _ _))
  split
  · exact hR.trans (hinsert n _) (hR.attempts _ _)
  · exact hR.trans (hR.trans (hinsert n _) (hR.attempts _ _))
      (hR.posts (Posts.sendPunchMsg _ _ _ _))

namespace FollowsRelays

theorem relay (hR : FollowsRelays R) (n : ShardNet) (relay : RelayState) : R n { n with relay } :=
  hR.relays n relay n.viaRelay

theorem viaRelay (hR : FollowsRelays R) (n : ShardNet) (viaRelay : HashMap NodeId SocketAddr) :
    R n { n with viaRelay } :=
  hR.relays n n.relay viaRelay

theorem onRelay (hR : FollowsRelays R) (n : ShardNet) (src : SocketAddr) (pkt : Bytes) :
    R n (n.onRelay src pkt).1 := by
  rw [ShardNet.onRelay]
  split
  · exact hR.refl n
  · rename_i r hr
    split
    · split
      · exact hR.viaRelay n _
      · dsimp only
        split
        · exact hR.relay n _
        · split
          · exact hR.relay n _
          · exact hR.trans (hR.relay n _)
              (hR.posts ((Posts.nextCorr _).trans (Posts.sendControl _ _ fun _ ↦ .relayed hr)))
    · exact hR.refl n

/-! ## The punch timer -/

theorem punchTick (hR : FollowsRelays R) (hpunch : FollowsPunches R) (acc : ShardNet × Bool)
    (id : NodeId) : R acc.1 (ShardNet.punchTick acc id).1 := by
  obtain ⟨n, again⟩ := acc
  have hdrop : ∀ n' viaRelay, R n n' →
      R n { n' with punches := n'.punches.erase id, viaRelay } := by
    intro n' viaRelay hn'
    refine hR.trans (hR.trans hn' (hpunch.attempts n' (n'.punches.erase id))) ?_
    exact hR.viaRelay { n' with punches := n'.punches.erase id } viaRelay
  rw [ShardNet.punchTick]
  dsimp only
  split
  · exact hdrop n _ (hR.refl n)
  · split
    · exact hR.refl n
    · rename_i p _
      -- the attempt is looked up again after the burst
      have hburst : R n (if p.burstsDone < 2 ∧ n.now ≥ p.nextBurst then (n.burstPunch id, true)
          else (n, again)).1 := by
        split
        · exact hpunch.burstPunch n id
        · exact hR.refl n
      generalize (if p.burstsDone < 2 ∧ n.now ≥ p.nextBurst then (n.burstPunch id, true)
        else (n, again)) = acc at hburst ⊢
      split
      · exact hburst
      · split_ifs
        · exact hdrop _ _ hburst
        · exact hdrop _ _ hburst
        · exact hburst

theorem onPunchTimer (hR : FollowsRelays R) (hpunch : FollowsPunches R) (n : ShardNet) :
    R n n.onPunchTimer := by
  have hticks : R n (n.punches.keys.foldl ShardNet.punchTick (n, false)).1 :=
    List.foldlRecOn (motive := fun acc : ShardNet × Bool ↦ R n acc.1) _ _ (hR.refl n)
      fun acc h id _ ↦ hR.trans h (hR.punchTick hpunch acc id)
  rw [ShardNet.onPunchTimer]
  generalize n.punches.keys.foldl ShardNet.punchTick (n, false) = acc at hticks ⊢
  obtain ⟨n', _ | _⟩ := acc
  · exact hticks
  · exact hR.trans hticks (hpunch.schedule n' _)

end FollowsRelays

/-! ## Messages -/

namespace FollowsMeetings

theorem onPing (hR : FollowsMeetings R) (n : ShardNet) (src : SocketAddr) (h : Header)
    (pkt : Bytes) : R n (n.onPing src h pkt) := by
  rw [ShardNet.onPing]
  dsimp only
  refine hR.trans ?_ (hR.posts (Posts.sendControl _ _ fun _ ↦ .pong))
  split
  · exact hR.trans (hR.notePeerKeys n src _ _ _) (hR.learnAddr _ _ _)
  · exact hR.learnAddr n src none

theorem onPong (hR : FollowsMeetings R) (n : ShardNet) (src : SocketAddr) (pkt : Bytes) :
    R n (n.onPong src pkt) := by
  rw [ShardNet.onPong]
  split
  · exact hR.learnAddr n src none
  · rename_i p _
    have hgreet : ∀ n' n'' id, R n n' →
        n'.notePeerKeys src p.x25519Pubkey p.ed25519Pubkey p.bindingSig = (id, n'') →
        R n (n''.learnAddr src id) := by
      intro n' n'' id hn' heq
      have hnote := hR.notePeerKeys n' src p.x25519Pubkey p.ed25519Pubkey p.bindingSig
      rw [heq] at hnote
      exact hR.trans (hR.trans hn' hnote) (hR.learnAddr n'' src id)
    -- our own address as the peer sees it is noted first
    rcases p.observed.bind fun a ↦ parseMultiaddr a.multiaddr with _ | obs
    · dsimp only
      split
      · rename_i id n' heq
        exact hR.trans (hgreet n n' (some id) (hR.refl n) heq) (hR.replied _ id)
      · rename_i n' heq
        exact hgreet n n' none (hR.refl n) heq
    · dsimp only
      split
      · rename_i id n' heq
        exact hR.trans (hgreet _ n' (some id) (hR.mapped n _) heq) (hR.replied _ id)
      · rename_i n' heq
        exact hgreet _ n' none (hR.mapped n _) heq

theorem onPunch (hR : FollowsMeetings R) (n : ShardNet) (src : SocketAddr) (pkt : Bytes) :
    R n (n.onPunch src pkt) := by
  rw [ShardNet.onPunch]
  split
  · exact hR.refl n
  · split
    · split
      · split
        · exact hR.refl n
        · exact hR.answerPunch n _ _ _ _
      · split
        · exact hR.refl n
        · exact hR.posts ((Posts.nextCorr n).trans (Posts.sendControl _ _ fun _ ↦ .punch))
    · exact hR.refl n

end FollowsMeetings

end ShardNet

namespace ShardCtx

open ShardNet

variable {R : ShardNet → ShardNet → Prop}

theorem posts_putPlain (c : ShardCtx) (value : Bytes) (ttlSecs : UInt64) (tx : Chan) :
    Posts c.toShardNet (c.putPlain value ttlSecs tx).toShardNet := by
  rw [putPlain]
  split
  · exact Posts.sendStoreRpc _ _
  · exact .refl

theorem follows_onStore (hR : FollowsNotes R) (c : ShardCtx) (src : SocketAddr) (h : Header)
    (pkt : Bytes) : R c.toShardNet (c.onStore src h pkt).toShardNet := by
  rw [onStore]
  split
  · exact hR.refl _
  · dsimp only
    split
    · exact hR.trans (hR.sybil _ _) (hR.posts (Posts.sendMessage _ src none _))
    · refine hR.trans ?_ (hR.posts (Posts.sendMessage _ _ _ _))
      rw [storeVerdict]
      split
      · exact hR.sybil _ _
      · split
        · exact hR.sybil _ _
        · exact hR.sybil _ _

theorem follows_onAnnounce (hR : FollowsNotes R) (c : ShardCtx) (src : SocketAddr) (h : Header)
    (pkt : Bytes) : R c.toShardNet (c.onAnnounce src h pkt).toShardNet := by
  rw [onAnnounce]
  split
  · exact hR.refl _
  · dsimp only
    split
    · exact hR.sybil _ _
    · split
      · exact hR.sybil _ _
      · refine hR.trans ?_ (hR.posts (Posts.sendMessage _ _ _ _))
        split
        · exact hR.sybil _ _
        · exact hR.sybil _ _

theorem follows_onFindNodeResp (hR : FollowsMeetings R) (c : ShardCtx) (src : SocketAddr)
    (h : Header) (pkt : Bytes) : R c.toShardNet (c.onFindNodeResp src h pkt).toShardNet := by
  rw [onFindNodeResp]
  split
  · exact hR.refl _
  · have hmeet : ∀ n p, R n (((n.insertPeer p).upsertPeer p).startPunch src p) := by
      intro n p
      exact hR.trans (hR.trans (hR.insertPeer n p) (hR.upsertPeer _ p)) (hR.startPunch _ src p)
    refine hR.trans ?_ (hR.posts (posts_completeCloser _ _ _ _))
    exact hR.trans (hR.foldl hmeet _ _) (hR.learnAddr _ _ _)

theorem follows_onFindValueResp (hR : FollowsMeetings R) (c : ShardCtx) (src : SocketAddr)
    (h : Header) (pkt : Bytes) : R c.toShardNet (c.onFindValueResp src h pkt).toShardNet := by
  rcases hdec : decodeBody Crates.findValueResp pkt with _ | resp
  · simp only [onFindValueResp, hdec]
    exact hR.refl _
  · have hmeet : ∀ n p, R n (meet src n p) :=
      fun n p ↦ hR.trans (hR.insertPeer n p) (hR.startPunch _ src p)
    rw [onFindValueResp_of_decode hdec]
    refine hR.trans ?_ (hR.posts (posts_sweepLookups _))
    refine hR.trans ?_ (hR.posts (posts_takeResult _ _ _ _ _ _))
    exact hR.foldl hmeet _ _

theorem follows_handleApp_of_ty (hR : FollowsMeetings R) (c : ShardCtx) (src : SocketAddr)
    {pkt : Bytes} (authenticated : Bool)
    (hstore : ∀ h, Header.decode pkt = some h → h.ty = .storeReq →
      R c.toShardNet (c.onStore src h pkt).toShardNet)
    (hannounce : ∀ h, Header.decode pkt = some h → h.ty = .announceProviderReq →
      R c.toShardNet (c.onAnnounce src h pkt).toShardNet) :
    R c.toShardNet (c.handleApp src pkt authenticated).1.toShardNet := by
  rw [handleApp]
  rcases hdec : Header.decode pkt with _ | h
  · exact hR.refl _
  have hunsupported := hR.posts (Posts.onUnsupported c.toShardNet src h authenticated)
  dsimp only
  rcases hty : h.ty
  · exact hR.onPing _ src h pkt
  · exact hR.onPong _ src pkt
  · exact hR.posts (Posts.sendMessage _ _ _ _)
  · exact hunsupported
  · exact hR.posts (Posts.onFindNode _ src h pkt)
  · exact follows_onFindNodeResp hR c src h pkt
  · exact hR.posts (Posts.onFindValue _ c.store src h pkt)
  · exact follows_onFindValueResp hR c src h pkt
  · exact hstore h hdec hty
  · exact hunsupported
  · exact hannounce h hdec hty
  · exact hunsupported
  · exact hR.onPunch _ src pkt
  · exact hR.onRelay _ src pkt
  · exact hunsupported
  · exact hunsupported
  · exact hR.refl _

theorem follows_handleApp (hR : FollowsHandlers R) (c : ShardCtx) (src : SocketAddr) (pkt : Bytes)
    (authenticated : Bool) :
    R c.toShardNet (c.handleApp src pkt authenticated).1.toShardNet :=
  follows_handleApp_of_ty hR.toFollowsMeetings c src authenticated
    (fun h _ _ ↦ follows_onStore hR.toFollowsNotes c src h pkt)
    fun h _ _ ↦ follows_onAnnounce hR.toFollowsNotes c src h pkt

/-! ## Commands -/

theorem posts_handleCmd (c : ShardCtx) {cmd : ShardCmd} (hcmd : ∀ info, cmd ≠ .injectPeer info)
    (tx : Chan) : Posts c.toShardNet (c.handleCmd cmd tx).toShardNet := by
  rcases cmd with seeds | ⟨value, ttlSecs⟩ | key | rec | ⟨key, metadata⟩ | key | info | _
  · exact Posts.foldl Posts.sendPing seeds c.toShardNet
  · show Posts _ (c.handlePut value ttlSecs tx).toShardNet
    rw [handlePut]
    split
    · split
      · exact .refl
      · exact c.posts_putPlain value ttlSecs tx
    · exact c.posts_putPlain value ttlSecs tx
  · show Posts _ (c.handleGet key tx).toShardNet
    rw [handleGet]
    split
    · exact .refl
    · exact posts_startLookup _ _ _ _
  · show Posts _ (c.handlePutMutable rec tx).toShardNet
    rw [handlePutMutable]
    split
    · exact Posts.sendStoreRpc c.toShardNet rec
    · exact .refl
  · exact Posts.announceRpc c.toShardNet key metadata
  · show Posts _ (c.handleFindProviders key tx).toShardNet
    rw [handleFindProviders]
    split
    · exact .refl
    · exact posts_startLookup _ _ _ _
  · exact absurd rfl (hcmd info)
  · exact .refl

theorem follows_command (hR : FollowsMeetings R) (c : ShardCtx) (cmd : ShardCmd) (tx : Chan) :
    R c.toShardNet (c.handleCmd cmd tx).toShardNet := by
  by_cases hcmd : ∃ info, cmd = .injectPeer info
  · obtain ⟨info, rfl⟩ := hcmd
    exact hR.injectPeer c.toShardNet info
  · exact hR.posts (c.posts_handleCmd (not_exists.mp hcmd) tx)

theorem follows_handleCmd (hR : FollowsHandlers R) (c : ShardCtx) (cmd : ShardCmd) (tx : Chan) :
    R c.toShardNet (c.handleCmd cmd tx).toShardNet :=
  follows_command hR.toFollowsMeetings c cmd tx

/-! ## Timers -/

/-- All timers but the flush, for a relation that holds when a peer is blamed and when the tunnels
are looked after. -/
theorem follows_onTimer (hR : FollowsRelays R) (hpunch : FollowsPunches R)
    (hblame : ∀ n id, R n (blame n id)) (htimers : ∀ n timers, R n { n with timers })
    (hkeepalive : ∀ n, R n n.onKeepalive) (c : ShardCtx) {kind : TimerKind}
    (h : kind ≠ .peerstoreFlush) : R c.toShardNet (c.onTimer kind).toShardNet := by
  rcases kind with _ | _ | _ | _ | _
  · exact hkeepalive c.toShardNet
  · exact absurd rfl h
  · exact htimers c.toShardNet _
  · refine hR.trans ?_ (htimers c.onLookupTick.toShardNet _)
    rw [onLookupTick]
    refine hR.trans ?_ (hR.posts (posts_sweepLookups _))
    exact hR.foldl (f := blame) hblame _ _
  · exact hR.onPunchTimer hpunch c.toShardNet

end ShardCtx

end Molia
