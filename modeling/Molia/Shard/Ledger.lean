import Molia.Shard.Draws

/-!
# Requests on file

A pending lookup keeps its requests on file until they are answered or time out, or the lookup is
gone. For every handler of the shard, this module lists its calls of `next_corr`, as
`Molia.Shard.Draws` does for the network side, and shows how they relate to what is on file: the
counter moves on by the calls that are listed, a request has the number of its call, and what is on
file afterwards was on file before or is listed. `Machine.books_step` says so of a step, and
`ShardRun.books_final` of a run.
-/

namespace Molia

open Tickets

/-- The requests in flight of a pending lookup. -/
def PendingLookup.inFlight (p : PendingLookup) : List InFlight := p.lookup.inFlight

variable [Crates]

open Crates

attribute [local irreducible] message

namespace ShardCtx

/-- The requests in flight of all pending lookups. -/
def requests (c : ShardCtx) : List InFlight := HashMap.gather PendingLookup.inFlight c.lookups

/-- The counter and the requests on file. -/
def view (c : ShardCtx) : UInt32 × List InFlight := (c.nextCorrId, c.requests)

theorem books_of_net {ds : List Draw} {c c' : ShardCtx} (hlookups : c'.lookups = c.lookups)
    (h : Books ds (c.nextCorrId, c.requests) (c'.nextCorrId, c.requests)) :
    Books ds c.view c'.view := by
  have hsame : c'.view = (c'.nextCorrId, c.requests) := by rw [view, requests, hlookups, requests]
  rw [hsame]
  exact h

theorem books_of_subperm {c c' : ShardCtx} (hnet : c'.nextCorrId = c.nextCorrId)
    (h : c'.requests.Subperm c.requests) : Books [] c.view c'.view := by
  rw [view, view, hnet]
  exact .of_subperm h

/-! ## Lookups -/

/-- Once its batch has been sent, a lookup is finished or filed; a lookup that was filed under the
same id before is lost. -/
theorem books_file {ds : List Draw} {a : UInt32 × List InFlight} {c : ShardCtx} {l : Lookup}
    (h : Books ds a (c.nextCorrId, l.inFlight ++ c.requests)) (id : UInt32)
    (reply : Option Chan) :
    Books ds a (if l.done then c.finishLookup l reply
      else { c with lookups := c.lookups.insert id ⟨l, reply⟩ }).view := by
  split_ifs
  · have hview : (c.finishLookup l reply).view = (c.nextCorrId, c.requests) := by
      rw [view, requests, lookups_finishLookup, net_finishLookup, requests]
    rw [hview]
    exact h.settle (List.sublist_append_right _ _).subperm
  · rw [view, requests, HashMap.gather_insert]
    exact h.settle ((HashMap.gather_erase_sublist _ _).append_left _).subperm

def startLookupDraws (c : ShardCtx) (kind : LookupKind) (target : Key) : List Draw :=
  let privacy := if c.cfg.queryBlind then PrivacyMode.blind else PrivacyMode.none
  let seeds := c.table.closest target alphaDefault
  c.toShardNet.dispatchLookupBatchDraws (Lookup.new c.now kind target seeds privacy)

theorem books_startLookup (c : ShardCtx) (kind : LookupKind) (target : Key)
    (reply : Option Chan) :
    Books (c.startLookupDraws kind target) c.view (c.startLookup kind target reply).view := by
  rw [startLookupDraws, startLookup]
  dsimp only
  generalize hl : Lookup.new c.now kind target _ _ = l
  have hempty : l.inFlight = [] := by
    rw [← hl]
    rfl
  have hbatch := (c.toShardNet.books_dispatchLookupBatch l).frame c.requests
  rw [hempty, List.nil_append] at hbatch
  generalize c.toShardNet.dispatchLookupBatch l = acc at hbatch ⊢
  exact books_file (c := { c.withNet acc.1 with batches := c.batches ++ [(l, c.now)] }) hbatch _
    reply

def sweepOneDraws (c : ShardCtx) (id : UInt32) : List Draw :=
  match c.lookups.lookup id with
  | none => []
  | some pend => c.toShardNet.dispatchLookupBatchDraws pend.lookup

theorem books_sweepOne (c : ShardCtx) (id : UInt32) :
    Books (c.sweepOneDraws id) c.view (c.sweepOne id).view := by
  rw [sweepOneDraws, sweepOne]
  rcases hpend : c.lookups.lookup id with _ | pend
  · exact .refl _
  dsimp only
  -- its requests come first, and then those of the other lookups
  have hperm : c.requests.Perm
      (pend.lookup.inFlight ++ { c with lookups := c.lookups.erase id }.requests) :=
    HashMap.gather_perm (f := PendingLookup.inFlight) hpend
  have hfront : Books [] c.view (c.nextCorrId,
      pend.lookup.inFlight ++ { c with lookups := c.lookups.erase id }.requests) :=
    .of_subperm hperm.symm.subperm
  have hbatch := hfront.trans ((c.toShardNet.books_dispatchLookupBatch pend.lookup).frame _)
  generalize c.toShardNet.dispatchLookupBatch pend.lookup = acc at hbatch ⊢
  exact books_file (c := { { c with lookups := c.lookups.erase id }.withNet acc.1 with
    batches := c.batches ++ [(pend.lookup, c.now)] }) hbatch id pend.reply

def sweepLookupsDraws (c : ShardCtx) : List Draw := along sweepOne sweepOneDraws c c.lookups.keys

theorem books_sweepLookups (c : ShardCtx) :
    Books c.sweepLookupsDraws c.view c.sweepLookups.view :=
  Tickets.Books.along view books_sweepOne c c.lookups.keys

/-! ## Answers -/

/-- An answer settles requests and makes none. -/
theorem books_updateLookup (c : ShardCtx) (corr : UInt32) {f : Lookup → Lookup}
    (hf : ∀ l, (f l).inFlight.Sublist l.inFlight) :
    Books [] c.view (c.updateLookup corr f).view := by
  refine books_of_subperm (congrArg ShardNet.nextCorrId (net_updateLookup c corr f)) ?_
  rw [requests, updateLookup]
  split
  · exact List.Subperm.refl _
  · exact HashMap.gather_modify_subperm fun p ↦ (hf p.lookup).subperm

omit [Crates] in
theorem inFlight_onCloser_sublist (sender : NodeId) (peers : List PeerInfo) (rttUs : UInt32)
    (l : Lookup) : (l.onCloser sender peers rttUs).inFlight.Sublist l.inFlight := by
  rw [Lookup.inFlight_onCloser]
  exact List.filter_sublist

def completeCloserDraws (c : ShardCtx) (corr : UInt32) (src : SocketAddr)
    (peers : List PeerInfo) : List Draw :=
  let sender := c.senderAt src
  (c.updateLookup corr fun l ↦ l.onCloser sender peers 50000).sweepLookupsDraws

theorem books_completeCloser (c : ShardCtx) (corr : UInt32) (src : SocketAddr)
    (peers : List PeerInfo) :
    Books (c.completeCloserDraws corr src peers) c.view (c.completeCloser corr src peers).view :=
  (c.books_updateLookup corr (inFlight_onCloser_sublist _ peers 50000)).trans
    (books_sweepLookups _)

def onFindNodeRespDraws (c : ShardCtx) (src : SocketAddr) (h : Header) (pkt : Bytes) : List Draw :=
  match decodeBody Crates.findNodeResp pkt with
  | none => []
  | some resp =>
    let peers := peersFromProto resp.peers
    let n := peers.foldl
      (fun n p ↦ ((n.insertPeer p).upsertPeer p).startPunch src p) c.toShardNet
    let n := n.learnAddr src (peers.head?.map PeerInfo.id)
    along (fun n p ↦ ((n.insertPeer p).upsertPeer p).startPunch src p)
        (fun n p ↦ ((n.insertPeer p).upsertPeer p).startPunchDraws p) c.toShardNet peers
      ++ (c.withNet n).completeCloserDraws h.correlation src peers

theorem books_onFindNodeResp (c : ShardCtx) (src : SocketAddr) (h : Header) (pkt : Bytes) :
    Books (c.onFindNodeRespDraws src h pkt) c.view (c.onFindNodeResp src h pkt).view := by
  rw [onFindNodeRespDraws, onFindNodeResp]
  rcases decodeBody Crates.findNodeResp pkt with _ | resp
  · exact .refl _
  dsimp only
  have hmeet := Tickets.Books.along (fun n : ShardNet ↦ (n.nextCorrId, c.requests))
    (fun n p ↦ ((n.insertPeer p).upsertPeer p).books_startPunch c.requests src p) c.toShardNet
    (peersFromProto resp.peers)
  generalize (peersFromProto resp.peers).foldl _ c.toShardNet = n at hmeet ⊢
  have hlearn : (n.learnAddr src ((peersFromProto resp.peers).head?.map PeerInfo.id)).nextCorrId
      = n.nextCorrId := ShardNet.nextCorrId_learnAddr _ _ _
  have hclose := (c.withNet (n.learnAddr src ((peersFromProto resp.peers).head?.map
    PeerInfo.id))).books_completeCloser h.correlation src (peersFromProto resp.peers)
  rw [← hlearn] at hmeet
  exact hmeet.trans hclose

/-- The calls of `takeResult`. -/
def takeResultDraws (c : ShardCtx) (src : SocketAddr) (h : Header) (closer : List PeerInfo) :
    Option Proto.FindValueResult → List Draw
  | some _ => []
  | none => c.completeCloserDraws h.correlation src closer

theorem books_takeResult (c : ShardCtx) (now : UInt64) (src : SocketAddr) (h : Header)
    (closer : List PeerInfo) (r : Option Proto.FindValueResult) :
    Books (c.takeResultDraws src h closer r) c.view (c.takeResult now src h closer r).view := by
  rcases r with _ | bytes | ps
  · exact c.books_completeCloser h.correlation src closer
  · rw [takeResultDraws, takeResult]
    split
    · rename_i rec _
      rw [acceptRecord_eq]
      refine books_updateLookup (c.cacheAnswer now h rec.val) h.correlation fun l ↦ ?_
      exact List.filter_sublist
    · exact .refl _
  · refine c.books_updateLookup h.correlation fun l ↦ ?_
    rw [Lookup.onProviders, Lookup.inFlight_onCloser]
    exact List.filter_sublist.trans List.filter_sublist

def onFindValueRespDraws (c : ShardCtx) (src : SocketAddr) (h : Header) (pkt : Bytes) :
    List Draw :=
  match decodeBody Crates.findValueResp pkt with
  | none => []
  | some resp =>
    let closer := peersFromProto resp.closerPeers
    let c' := c.withNet (closer.foldl (ShardNet.meet src) c.toShardNet)
    along (ShardNet.meet src) (fun n p ↦ (n.insertPeer p).startPunchDraws p) c.toShardNet closer
      ++ (c'.takeResultDraws src h closer resp.result
        ++ (c'.takeResult c.env.unix src h closer resp.result).sweepLookupsDraws)

theorem books_onFindValueResp (c : ShardCtx) (src : SocketAddr) (h : Header) (pkt : Bytes) :
    Books (c.onFindValueRespDraws src h pkt) c.view (c.onFindValueResp src h pkt).view := by
  rw [onFindValueRespDraws]
  rcases hdec : decodeBody Crates.findValueResp pkt with _ | resp
  · simp only [onFindValueResp, hdec]
    exact .refl _
  rw [onFindValueResp_of_decode hdec]
  dsimp only
  have hmeet := Tickets.Books.along (fun n : ShardNet ↦ (n.nextCorrId, c.requests))
    (fun n p ↦ (n.insertPeer p).books_startPunch c.requests src p) c.toShardNet
    (peersFromProto resp.closerPeers)
  have htake := (c.withNet ((peersFromProto resp.closerPeers).foldl (ShardNet.meet src)
    c.toShardNet)).books_takeResult c.env.unix src h (peersFromProto resp.closerPeers) resp.result
  exact hmeet.trans (htake.trans (books_sweepLookups _))

/-! ## Messages -/

theorem allocates_onStore (c : ShardCtx) (src : SocketAddr) (h : Header) (pkt : Bytes) :
    ShardNet.Allocates 0 1 c.toShardNet (c.onStore src h pkt).toShardNet := by
  rw [onStore]
  split
  · exact ShardNet.allocates_of_eq rfl
  · dsimp only
    split
    · exact (ShardNet.Allocates.of_eq rfl).trans (ShardNet.Allocates.sendMessage _ src none _)
    · refine ShardNet.Allocates.trans (.of_eq ?_) (ShardNet.Allocates.sendMessage _ src none _)
      rw [storeVerdict]
      split
      · rfl
      · split
        · rfl
        · rfl

theorem allocates_onAnnounce (c : ShardCtx) (src : SocketAddr) (h : Header) (pkt : Bytes) :
    ShardNet.Allocates 0 1 c.toShardNet (c.onAnnounce src h pkt).toShardNet := by
  rw [onAnnounce]
  split
  · exact ShardNet.allocates_of_eq rfl
  · dsimp only
    split
    · exact ShardNet.allocates_of_eq rfl
    · split
      · exact ShardNet.allocates_of_eq rfl
      · refine ShardNet.Allocates.trans (.of_eq ?_) (ShardNet.Allocates.sendMessage _ src none _)
        split
        · rfl
        · rfl

theorem allocates_handleApp (c : ShardCtx) (src : SocketAddr) {pkt : Bytes} (authenticated : Bool)
    {h : Header} (hdec : Header.decode pkt = some h) (hnode : h.ty ≠ .findNodeResp)
    (hvalue : h.ty ≠ .findValueResp) (hpunch : h.ty ≠ .punch) :
    ShardNet.Allocates 0 1 c.toShardNet (c.handleApp src pkt authenticated).1.toShardNet := by
  have hunsupported := c.toShardNet.allocates_onUnsupported src h authenticated
  rw [handleApp, hdec]
  dsimp only
  rcases hty : h.ty
  · exact ShardNet.allocates_of_eq (ShardNet.nextCorrId_onPing _ src h pkt)
  · exact ShardNet.allocates_of_eq (ShardNet.nextCorrId_onPong _ src pkt)
  · exact ShardNet.Allocates.sendMessage _ _ _ _
  · exact hunsupported
  · exact ShardNet.allocates_onFindNode _ src h pkt
  · exact absurd hty hnode
  · exact ShardNet.allocates_onFindValue _ c.store src h pkt
  · exact absurd hty hvalue
  · exact c.allocates_onStore src h pkt
  · exact hunsupported
  · exact c.allocates_onAnnounce src h pkt
  · exact hunsupported
  · exact absurd hty hpunch
  · exact ShardNet.allocates_onRelay _ src pkt
  · exact hunsupported
  · exact hunsupported
  · exact ShardNet.allocates_of_eq rfl

theorem lookups_handleApp (c : ShardCtx) (src : SocketAddr) {pkt : Bytes} (authenticated : Bool)
    {h : Header} (hdec : Header.decode pkt = some h) (hnode : h.ty ≠ .findNodeResp)
    (hvalue : h.ty ≠ .findValueResp) :
    (c.handleApp src pkt authenticated).1.lookups = c.lookups := by
  have hstore : (c.onStore src h pkt).lookups = c.lookups := by
    obtain ⟨n, store, heq⟩ := c.onStore_eq src h pkt
    rw [heq]
  have hannounce : (c.onAnnounce src h pkt).lookups = c.lookups := by
    obtain ⟨n, store, heq⟩ := c.onAnnounce_eq src h pkt
    rw [heq]
  rw [handleApp, hdec]
  dsimp only
  generalize h.ty = ty at hnode hvalue ⊢
  cases ty with
  | findNodeResp => exact absurd rfl hnode
  | findValueResp => exact absurd rfl hvalue
  | storeReq => exact hstore
  | announceProviderReq => exact hannounce
  | _ => rfl

/-- The calls for one message. All but three kinds of messages make one call at most. -/
def handleAppDraws (c : ShardCtx) (src : SocketAddr) (pkt : Bytes) (authenticated : Bool) :
    List Draw :=
  match Header.decode pkt with
  | none => []
  | some h =>
    match h.ty with
    | .findNodeResp => c.onFindNodeRespDraws src h pkt
    | .findValueResp => c.onFindValueRespDraws src h pkt
    | .punch => c.toShardNet.onPunchDraws src pkt
    | _ => c.toShardNet.drawn (c.handleApp src pkt authenticated).1.toShardNet

theorem books_handleApp (c : ShardCtx) (src : SocketAddr) (pkt : Bytes) (authenticated : Bool) :
    Books (c.handleAppDraws src pkt authenticated) c.view
      (c.handleApp src pkt authenticated).1.view := by
  rw [handleAppDraws]
  rcases hdec : Header.decode pkt with _ | h
  · rw [handleApp, hdec]
    exact .refl _
  dsimp only
  split
  · rename_i hty
    simp only [handleApp, hdec, hty]
    exact c.books_onFindNodeResp src h pkt
  · rename_i hty
    simp only [handleApp, hdec, hty]
    exact c.books_onFindValueResp src h pkt
  · rename_i hty
    simp only [handleApp, hdec, hty]
    exact c.toShardNet.books_onPunch c.requests src pkt
  · rename_i hnode hvalue hpunch
    exact books_of_net (c.lookups_handleApp src authenticated hdec hnode hvalue)
      (ShardNet.books_drawn _ (c.allocates_handleApp src authenticated hdec hnode hvalue hpunch)
        (by decide))

/-! ## Commands -/

theorem books_of_allocates {c c' : ShardCtx} (hlookups : c'.lookups = c.lookups)
    (h : ShardNet.Allocates 0 (kDefault * 2) c.toShardNet c'.toShardNet) :
    Books (c.toShardNet.drawn c'.toShardNet) c.view c'.view :=
  books_of_net hlookups (ShardNet.books_drawn _ h (by decide))

theorem books_of_eq {c c' : ShardCtx} (hlookups : c'.lookups = c.lookups)
    (h : c'.nextCorrId = c.nextCorrId) :
    Books (c.toShardNet.drawn c'.toShardNet) c.view c'.view :=
  books_of_allocates hlookups
    ((ShardNet.Allocates.of_eq h).mono (Nat.le_refl 0) (Nat.zero_le _))

theorem books_handlePut (c : ShardCtx) (value : Bytes) (ttlSecs : UInt64) (tx : Chan) :
    Books (c.toShardNet.drawn (c.handlePut value ttlSecs tx).toShardNet) c.view
      (c.handlePut value ttlSecs tx).view := by
  have hplain : Books (c.toShardNet.drawn (c.putPlain value ttlSecs tx).toShardNet) c.view
      (c.putPlain value ttlSecs tx).view := by
    rw [putPlain]
    split
    · exact books_of_allocates rfl (ShardNet.allocates_sendToClosest _ _ _ _)
    · exact books_of_eq rfl rfl
  rw [handlePut]
  split_ifs
  · split
    · exact books_of_eq rfl rfl
    · exact hplain
  · exact hplain

/-- The calls for one command. A put and an announcement make two calls at most for each of the
closest peers. -/
def handleCmdDraws (c : ShardCtx) (cmd : ShardCmd) (tx : Chan) : List Draw :=
  match cmd with
  | .bootstrap seeds => oneEach seeds
  | .get key =>
    match c.store.get c.env.unix key with
    | some _ => []
    | none => c.startLookupDraws .findValue key
  | .findProviders key =>
    if c.store.liveProviders c.env.unix key maxProvidersPerChunk ≠ [] then []
    else c.startLookupDraws .findValue key
  | _ => c.toShardNet.drawn (c.handleCmd cmd tx).toShardNet

theorem books_handleCmd (c : ShardCtx) (cmd : ShardCmd) (tx : Chan) :
    Books (c.handleCmdDraws cmd tx) c.view (c.handleCmd cmd tx).view := by
  rcases cmd with seeds | ⟨value, ttlSecs⟩ | key | rec | ⟨key, metadata⟩ | key | info | _
  · exact books_of_net rfl (ShardNet.books_pings _ c.toShardNet seeds)
  · exact c.books_handlePut value ttlSecs tx
  · rw [handleCmdDraws, handleCmd, handleGet]
    rcases c.store.get c.env.unix key with _ | r
    · exact c.books_startLookup .findValue key (some tx)
    · exact .refl _
  · change Books (c.toShardNet.drawn (c.handlePutMutable rec tx).toShardNet) c.view
      (c.handlePutMutable rec tx).view
    rw [handlePutMutable]
    split
    · exact books_of_allocates rfl (ShardNet.allocates_sendToClosest _ _ _ _)
    · exact books_of_eq rfl rfl
  · exact books_of_allocates rfl (ShardNet.allocates_sendToClosest _ _ _ _)
  · rw [handleCmdDraws, handleCmd, handleFindProviders]
    split_ifs
    · exact .refl _
    · exact c.books_startLookup .findValue key (some tx)
  · refine books_of_eq rfl ?_
    change (injectPeer c.toShardNet info).nextCorrId = _
    rw [injectPeer]
    rcases info.x25519 with _ | x
    · rfl
    · rcases info.primaryAddr with _ | addr
      · rfl
      · rfl
  · exact books_of_eq rfl rfl

/-! ## Timers and tasks -/

/-- The state in which the lookup timer sweeps the lookups. -/
def timeOut (c : ShardCtx) : ShardCtx :=
  let timed := c.timedOut
  let c := { c with
    lookups := c.lookups.mapValues fun _ p ↦ { p with lookup := (p.lookup.onTimeouts c.now).2 } }
  c.withNet (timed.foldl blame c.toShardNet)

theorem nextCorrId_foldl_blame (ids : List NodeId) (n : ShardNet) :
    (ids.foldl blame n).nextCorrId = n.nextCorrId :=
  List.foldlRecOn (motive := fun n' : ShardNet ↦ n'.nextCorrId = n.nextCorrId) ids blame rfl
    fun _ h _ _ ↦ h

theorem books_timeOut (c : ShardCtx) : Books [] c.view c.timeOut.view := by
  refine books_of_subperm (nextCorrId_foldl_blame _ _) ?_
  refine HashMap.gather_mapValues_subperm fun _ p ↦ ?_
  change (p.lookup.onTimeouts c.now).2.inFlight.Subperm _
  rw [Lookup.inFlight_onTimeouts]
  exact List.filter_sublist.subperm

def onTimerDraws (c : ShardCtx) (kind : TimerKind) : List Draw :=
  match kind with
  | .keepalive => oneEach c.contacts
  | .lookupTick => c.timeOut.sweepLookupsDraws
  | .punch => c.toShardNet.onPunchTimerDraws
  | .peerstoreFlush | .gc => []

theorem books_onTimer (c : ShardCtx) (kind : TimerKind) :
    Books (c.onTimerDraws kind) c.view (c.onTimer kind).view := by
  cases kind with
  | keepalive =>
    have hpings := ShardNet.books_pings c.requests c.toShardNet (c.contacts.map Prod.snd)
    rw [oneEach, List.length_map, ← ShardNet.nextCorrId_onKeepalive] at hpings
    exact books_of_net rfl hpings
  | peerstoreFlush => exact .refl _
  | gc => exact .refl _
  | lookupTick => exact c.books_timeOut.trans c.timeOut.books_sweepLookups
  | punch => exact books_of_net rfl (c.toShardNet.books_onPunchTimer c.requests)

def runTaskDraws (c : ShardCtx) : Task → List Draw
  | .app src pkt authenticated => c.handleAppDraws src pkt authenticated
  | .timer kind => c.onTimerDraws kind
  | .drain _ | .flush _ => []

theorem books_runTask (c : ShardCtx) (t : Task) :
    Books (c.runTaskDraws t) c.view (c.runTask t).1.view := by
  cases t with
  | app src pkt authenticated => exact c.books_handleApp src pkt authenticated
  | drain src =>
    obtain ⟨wg, sent, hdrain⟩ := c.drainTurn_fst src
    change Books [] c.view (c.drainTurn src).1.view
    rw [hdrain]
    exact .refl _
  | flush src =>
    exact books_of_net rfl (ShardNet.books_of_eq _ (ShardNet.nextCorrId_flushPendingWg _ src))
  | timer kind => exact c.books_onTimer kind

end ShardCtx

/-! ## Runs -/

namespace Machine

/-- The calls of one step. -/
def draws (m : Machine) (e : Event) : List Draw :=
  match e.input with
  | .command cmd => if m.Ready then (m.ctxAt e.env).handleCmdDraws cmd m.asked.length else []
  | .work =>
    match m.work with
    | [] => []
    | t :: _ => (m.ctxAt e.env).runTaskDraws t
  | _ => []

/-- **One step.** -/
theorem books_step (m : Machine) (e : Event) :
    Books (m.draws e) m.ctx.view (m.step e).ctx.view := by
  obtain ⟨env, input⟩ := e
  cases input with
  | datagram src pkt =>
    rw [draws, step]
    dsimp only
    split_ifs
    · obtain ⟨wg, sybil, sent, heq⟩ := (m.ctxAt env).handleDatagram_fst src pkt
      change Books [] m.ctx.view ((m.ctxAt env).handleDatagram src pkt).1.view
      rw [heq]
      exact .refl _
    · exact .refl _
  | command cmd =>
    rw [draws, step]
    dsimp only
    split_ifs
    · exact (m.ctxAt env).books_handleCmd cmd m.asked.length
    · exact .refl _
  | tick =>
    rw [draws, step]
    dsimp only
    split_ifs
    · exact .refl _
    · exact .refl _
  | work =>
    rcases hwork : m.work with _ | ⟨t, ts⟩
    · rw [step_work_nil hwork]
      simp only [draws, hwork]
      exact .refl _
    · rw [step_work hwork]
      simp only [draws, hwork]
      exact (m.ctxAt env).books_runTask t
  | reorder r =>
    exact ShardCtx.books_of_subperm rfl (HashMap.gather_reorder r m.ctx.lookups).subperm
  | exit =>
    rw [draws, step]
    dsimp only
    split_ifs
    · exact .refl _
    · exact .refl _

end Machine

namespace ShardRun

/-- The calls of a run. -/
def draws (run : ShardRun) : List Draw :=
  along Machine.step Machine.draws run.start.machine run.events

/-- **A whole run.** A shard starts with the id 1 and nothing on file. -/
theorem books_final (run : ShardRun) : Books run.draws (1, []) run.final.ctx.view :=
  Tickets.Books.along (fun m : Machine ↦ m.ctx.view) Machine.books_step run.start.machine run.events

end ShardRun

end Molia
