import Molia.Net.Reentry
import Molia.Shard.Machine
import Molia.Shard.Sweep

/-!
# Properties of all pending lookups

A pending lookup changes in few ways: it is started, it grows when its batch is sent, it takes an
answer, and its requests time out. A property that all of these keep holds of every pending lookup
in every state of a run; `AllPending.step` is the rule.

The handler of FIND_VALUE answers is cut in two here: its peers are met one by one, and then its
result is taken.
-/

namespace Molia

variable [Crates]

open Crates

attribute [local irreducible] message

/-- What the table has about a peer, or else a peer at the given address. -/
def RoutingTable.known (t : RoutingTable) (id : NodeId) (addr : SocketAddr) : PeerInfo :=
  ((t.get id).map PeerEntry.info).getD (PeerInfo.new id addr)

/-- The id made up for a contact that has not shown one. -/
def contactId (src : SocketAddr) : NodeId := ⟨blake3 (ShardNet.contactBytes src)⟩

/-- The table once the sender of an answer has been entered, under its id or else under an id made
from its address. -/
def RoutingTable.learn (t : RoutingTable) (now : ℕ) (src : SocketAddr) :
    Option NodeId → RoutingTable
  | some id => (t.insert now ((t.known id src).pushAddr src)).2.touchOk now id 80000
  | none => (t.insert now (PeerInfo.new (contactId src) src)).2

namespace ShardNet

/-- A closer peer of a FIND_VALUE answer is entered into the table and punched. -/
def meet (src : SocketAddr) (n : ShardNet) (p : PeerInfo) : ShardNet :=
  (n.insertPeer p).startPunch src p

theorem env_learnAddr (n : ShardNet) (src : SocketAddr) (id : Option NodeId) :
    (n.learnAddr src id).env = n.env := by
  rcases id with _ | id
  · rfl
  · rfl

theorem table_learnAddr (n : ShardNet) (src : SocketAddr) (id : Option NodeId) :
    (n.learnAddr src id).table = n.table.learn n.now src id := by
  rcases id with _ | id
  · rfl
  · rfl

theorem env_foldl {f : ShardNet → PeerInfo → ShardNet} (hf : ∀ n p, (f n p).env = n.env)
    (peers : List PeerInfo) (n : ShardNet) : (peers.foldl f n).env = n.env :=
  List.foldlRecOn (motive := fun n' : ShardNet ↦ n'.env = n.env) peers f rfl
    fun n' h p _ ↦ (hf n' p).trans h

theorem table_foldl_enter {g : ShardNet → PeerInfo → ShardNet}
    (hg : ∀ n p, (g n p).env = n.env ∧ (g n p).table = (n.table.insert n.now p).2)
    (src : SocketAddr) (peers : List PeerInfo) (n : ShardNet) :
    (peers.foldl (fun n p ↦ (g n p).startPunch src p) n).now = n.now ∧
      (peers.foldl (fun n p ↦ (g n p).startPunch src p) n).table = n.table.enter n.now peers := by
  induction peers generalizing n with
  | nil => exact ⟨rfl, rfl⟩
  | cons p peers ih =>
    obtain ⟨henv, htable⟩ := hg n p
    have hpunch := Punches.startPunch src (g n p) p
    have hnow : ((g n p).startPunch src p).now = n.now :=
      congrArg Env.instant (hpunch.env.trans henv)
    obtain ⟨hnow', htable'⟩ := ih ((g n p).startPunch src p)
    rw [hnow, hpunch.table, htable] at htable'
    exact ⟨hnow'.trans hnow, htable'⟩

theorem table_foldl_meet (src : SocketAddr) (peers : List PeerInfo) (n : ShardNet) :
    (peers.foldl (meet src) n).now = n.now ∧
      (peers.foldl (meet src) n).table = n.table.enter n.now peers :=
  table_foldl_enter (g := insertPeer) (fun _ _ ↦ ⟨rfl, rfl⟩) src peers n

theorem table_foldl_upsert (src : SocketAddr) (peers : List PeerInfo) (n : ShardNet) :
    (peers.foldl (fun n p ↦ ((n.insertPeer p).upsertPeer p).startPunch src p) n).now = n.now ∧
      (peers.foldl (fun n p ↦ ((n.insertPeer p).upsertPeer p).startPunch src p) n).table
        = n.table.enter n.now peers :=
  table_foldl_enter (g := fun n p ↦ (n.insertPeer p).upsertPeer p) (fun _ _ ↦ ⟨rfl, rfl⟩) src
    peers n

end ShardNet

/-! ## Taking an answer -/

namespace ShardCtx

variable {c c' : ShardCtx} {P : Lookup → Prop}

/-- What a FIND_VALUE answer does once its peers have been met. -/
def takeResult (c : ShardCtx) (now : UInt64) (src : SocketAddr) (h : Header)
    (closer : List PeerInfo) : Option Proto.FindValueResult → ShardCtx
  | some (.record bytes) =>
    match authenticRecord now bytes with
    | some rec => c.acceptRecord now h rec.val
    | none => c
  | some (.providers ps) =>
    c.updateLookup h.correlation fun l ↦ l.onProviders .zero (ps.filterMap providerOf) closer
  | none => c.completeCloser h.correlation src closer

theorem onFindValueResp_of_decode {src : SocketAddr} {h : Header} {pkt : Bytes}
    {resp : Proto.FindValueResp} (hdec : decodeBody Crates.findValueResp pkt = some resp) :
    c.onFindValueResp src h pkt = ((c.withNet ((peersFromProto resp.closerPeers).foldl
      (ShardNet.meet src) c.toShardNet)).takeResult c.env.unix src h
        (peersFromProto resp.closerPeers) resp.result).sweepLookups := by
  simp only [onFindValueResp, hdec, takeResult]
  rfl

/-- The cache after an authentic record; no lookup notices. -/
def cacheAnswer (c : ShardCtx) (now : UInt64) (h : Header) (rec : StoredRecord) : ShardCtx :=
  { c with store := if h.isProbe then c.store else c.store.cacheHit now rec }

theorem acceptRecord_eq (c : ShardCtx) (now : UInt64) (h : Header) (rec : StoredRecord) :
    c.acceptRecord now h rec = (c.cacheAnswer now h rec).updateLookup h.correlation
      fun l ↦ l.onRecord .zero rec := by
  rw [acceptRecord, cacheAnswer]
  split_ifs
  · rfl
  · rfl

theorem posts_completeCloser (c : ShardCtx) (corr : UInt32) (src : SocketAddr)
    (peers : List PeerInfo) :
    ShardNet.Posts c.toShardNet (c.completeCloser corr src peers).toShardNet := by
  have hposts := posts_sweepLookups (c.updateLookup corr fun l ↦
    l.onCloser (c.senderAt src) peers 50000)
  rw [net_updateLookup] at hposts
  exact hposts

theorem posts_takeResult (c : ShardCtx) (now : UInt64) (src : SocketAddr) (h : Header)
    (closer : List PeerInfo) (r : Option Proto.FindValueResult) :
    ShardNet.Posts c.toShardNet (c.takeResult now src h closer r).toShardNet := by
  rcases r with _ | bytes | ps
  · exact posts_completeCloser c h.correlation src closer
  · rw [takeResult]
    split
    · rw [acceptRecord_eq, net_updateLookup]
      exact .refl
    · exact .refl
  · rw [takeResult, net_updateLookup]

theorem onStore_eq (c : ShardCtx) (src : SocketAddr) (h : Header) (pkt : Bytes) :
    ∃ n store, c.onStore src h pkt = { c with toShardNet := n, store } := by
  rw [onStore]
  split
  · exact ⟨_, _, rfl⟩
  · dsimp only
    split
    · exact ⟨_, _, rfl⟩
    · rw [storeVerdict]
      split
      · exact ⟨_, _, rfl⟩
      · split
        · exact ⟨_, _, rfl⟩
        · exact ⟨_, _, rfl⟩

theorem onAnnounce_eq (c : ShardCtx) (src : SocketAddr) (h : Header) (pkt : Bytes) :
    ∃ n store, c.onAnnounce src h pkt = { c with toShardNet := n, store } := by
  rw [onAnnounce]
  split
  · exact ⟨_, _, rfl⟩
  · dsimp only
    split
    · exact ⟨_, _, rfl⟩
    · split
      · exact ⟨_, _, rfl⟩
      · split
        · exact ⟨_, _, rfl⟩
        · exact ⟨_, _, rfl⟩

/-- What is pending after a lookup has been started: what was pending before, and the new lookup
unless it has ended at once. -/
theorem lookup_startLookup {kind : LookupKind} {target : Key} {reply : Option Chan} {id : UInt32}
    {p : PendingLookup}
    (hp : (c.startLookup kind target reply).lookups.lookup id = some p) :
    c.lookups.lookup id = some p ∨ ∃ privacy,
      let l := Lookup.new c.now kind target (c.table.closest target alphaDefault) privacy
      ¬l.Ends c.now ∧ p.lookup = (c.toShardNet.dispatchLookupBatch l).2 := by
  rw [startLookup] at hp
  dsimp only at hp
  generalize (if c.cfg.queryBlind then PrivacyMode.blind else PrivacyMode.none) = privacy at hp
  generalize hl : Lookup.new c.now kind target _ privacy = l at hp
  split at hp
  · rw [lookups_finishLookup] at hp
    exact .inl hp
  · rename_i hdone
    change (AList.insert _ _ c.lookups).lookup id = some p at hp
    rw [HashMap.lookup_insert_of] at hp
    split_ifs at hp
    · refine .inr ⟨privacy, ?_⟩
      rw [← Option.some.inj hp, hl]
      refine ⟨fun hends ↦ ?_, rfl⟩
      rw [ShardNet.dispatch_of_ends hends] at hdone
      exact absurd rfl hdone
    · exact .inl hp

theorem handleCmd_cases (c : ShardCtx) (cmd : ShardCmd) (tx : Chan) :
    (c.handleCmd cmd tx).lookups = c.lookups ∧ (c.handleCmd cmd tx).batches = c.batches ∨
      ∃ key, c.handleCmd cmd tx = c.startLookup .findValue key (some tx) := by
  have hputPlain : ∀ value ttlSecs, (c.putPlain value ttlSecs tx).lookups = c.lookups ∧
      (c.putPlain value ttlSecs tx).batches = c.batches := by
    intro value ttlSecs
    rw [putPlain]
    split
    · exact ⟨rfl, rfl⟩
    · exact ⟨rfl, rfl⟩
  rcases cmd with _ | ⟨value, ttlSecs⟩ | key | rec | _ | key | _ | _
  · exact .inl ⟨rfl, rfl⟩
  · left
    show (c.handlePut value ttlSecs tx).lookups = _ ∧ (c.handlePut value ttlSecs tx).batches = _
    rw [handlePut]
    split
    · split
      · exact ⟨rfl, rfl⟩
      · exact hputPlain value ttlSecs
    · exact hputPlain value ttlSecs
  · show (c.handleGet key tx).lookups = _ ∧ (c.handleGet key tx).batches = _ ∨
      ∃ key', c.handleGet key tx = _
    rw [handleGet]
    split
    · exact .inl ⟨rfl, rfl⟩
    · exact .inr ⟨key, rfl⟩
  · left
    show (c.handlePutMutable rec tx).lookups = _ ∧ (c.handlePutMutable rec tx).batches = _
    rw [handlePutMutable]
    split
    · exact ⟨rfl, rfl⟩
    · exact ⟨rfl, rfl⟩
  · exact .inl ⟨rfl, rfl⟩
  · show (c.handleFindProviders key tx).lookups = _ ∧ (c.handleFindProviders key tx).batches = _ ∨
      ∃ key', c.handleFindProviders key tx = _
    rw [handleFindProviders]
    split
    · exact .inl ⟨rfl, rfl⟩
    · exact .inr ⟨key, rfl⟩
  · exact .inl ⟨rfl, rfl⟩
  · exact .inl ⟨rfl, rfl⟩

end ShardCtx

/-! ## The rule -/

/-- Whatever happens to a pending lookup at the given time keeps the property. -/
structure Lookup.Stable (now : ℕ) (P : Lookup → Prop) : Prop where
  new : ∀ kind target seeds privacy, P (Lookup.new now kind target seeds privacy)
  grows : ∀ l l', Lookup.Grows now l l' → P l → P l'
  onTimeouts : ∀ l, P l → P (l.onTimeouts now).2
  onCloser : ∀ l sender peers rttUs, P l → P (l.onCloser sender peers rttUs)
  onProviders : ∀ l sender providers closer, P l → P (l.onProviders sender providers closer)
  onRecord : ∀ l sender rec, P l → P (l.onRecord sender rec)

namespace ShardCtx

/-- Every pending lookup has the property. -/
def AllPending (P : Lookup → Prop) (c : ShardCtx) : Prop :=
  ∀ id p, c.lookups.lookup id = some p → P p.lookup

namespace AllPending

variable {c c' : ShardCtx} {P : Lookup → Prop}

theorem of_lookups (h : AllPending P c) (hl : c'.lookups = c.lookups) : AllPending P c' := by
  intro id p hp
  rw [hl] at hp
  exact h id p hp

theorem sweepLookups (hP : Lookup.Stable c.now P) (h : AllPending P c) :
    AllPending P c.sweepLookups := by
  intro id p' hp'
  obtain ⟨n, hsends, hlookup⟩ := lookup_sweepLookups c id
  rw [hlookup] at hp'
  obtain ⟨p, hp, hswept⟩ := Option.bind_eq_some_iff.mp hp'
  have hnow : n.now = c.now := congrArg Env.instant hsends.env
  have hgrows := ShardNet.grows_of_swept hswept
  rw [hnow] at hgrows
  exact hP.grows _ _ hgrows (h id p hp)

theorem updateLookup (h : AllPending P c) (corr : UInt32) {f : Lookup → Lookup}
    (hf : ∀ l, P l → P (f l)) : AllPending P (c.updateLookup corr f) := by
  intro id p' hp'
  rw [lookup_updateLookup] at hp'
  obtain ⟨p, hp, rfl⟩ := Option.map_eq_some_iff.mp hp'
  split_ifs
  · exact hf _ (h id p hp)
  · exact h id p hp

theorem startLookup (hP : Lookup.Stable c.now P) (h : AllPending P c) (kind : LookupKind)
    (target : Key) (reply : Option Chan) : AllPending P (c.startLookup kind target reply) := by
  intro id p hp
  rcases lookup_startLookup hp with hold | ⟨privacy, hends, hnew⟩
  · exact h id p hold
  · rw [hnew]
    exact hP.grows _ _ (ShardNet.grows_dispatch hends) (hP.new kind target _ privacy)

theorem completeCloser (hP : Lookup.Stable c.now P) (h : AllPending P c) (corr : UInt32)
    (src : SocketAddr) (peers : List PeerInfo) :
    AllPending P (c.completeCloser corr src peers) := by
  refine sweepLookups ?_ (h.updateLookup corr fun l hl ↦ hP.onCloser l _ _ _ hl)
  rw [net_updateLookup]
  exact hP

theorem takeResult (hP : Lookup.Stable c.now P) (h : AllPending P c) (now : UInt64)
    (src : SocketAddr) (hdr : Header) (closer : List PeerInfo)
    (r : Option Proto.FindValueResult) : AllPending P (c.takeResult now src hdr closer r) := by
  rcases r with _ | bytes | ps
  · exact h.completeCloser hP _ _ _
  · rw [ShardCtx.takeResult]
    split
    · rename_i rec hrec
      rw [acceptRecord_eq]
      have hcached : AllPending P (c.cacheAnswer now hdr rec.val) := h
      exact hcached.updateLookup _ fun l hl ↦ hP.onRecord l _ _ hl
    · exact h
  · exact h.updateLookup _ fun l hl ↦ hP.onProviders l _ _ _ hl

theorem onFindNodeResp (hP : Lookup.Stable c.now P) (h : AllPending P c) (src : SocketAddr)
    (hdr : Header) (pkt : Bytes) : AllPending P (c.onFindNodeResp src hdr pkt) := by
  rw [ShardCtx.onFindNodeResp]
  split
  · exact h
  · rename_i resp hdec
    have hmet : ∀ n : ShardNet, n.now = c.now → ∀ peers : List PeerInfo,
        AllPending P ((c.withNet n).completeCloser hdr.correlation src peers) := by
      intro n hnow peers
      have hn : AllPending P (c.withNet n) := h
      refine hn.completeCloser ?_ _ _ _
      show Lookup.Stable n.now P
      rw [hnow]
      exact hP
    refine hmet _ (congrArg Env.instant ?_) _
    rw [ShardNet.env_learnAddr]
    exact ShardNet.env_foldl (fun n p ↦
      (ShardNet.Punches.startPunch src ((n.insertPeer p).upsertPeer p) p).env) _ _

theorem onFindValueResp (hP : Lookup.Stable c.now P) (h : AllPending P c) (src : SocketAddr)
    (hdr : Header) (pkt : Bytes) : AllPending P (c.onFindValueResp src hdr pkt) := by
  rcases hdec : decodeBody Crates.findValueResp pkt with _ | resp
  · simp only [ShardCtx.onFindValueResp, hdec]
    exact h
  · rw [onFindValueResp_of_decode hdec]
    generalize hn : (peersFromProto resp.closerPeers).foldl (ShardNet.meet src) c.toShardNet = n
    have henv : n.env = c.env := by
      rw [← hn]
      exact ShardNet.env_foldl (fun n p ↦
        (ShardNet.Punches.startPunch src (n.insertPeer p) p).env) _ _
    have hP' : Lookup.Stable (c.withNet n).now P := by
      show Lookup.Stable n.env.instant P
      rw [henv]
      exact hP
    have hmet : AllPending P (c.withNet n) := h
    refine sweepLookups ?_ (hmet.takeResult hP' _ _ _ _ _)
    have hsends := (posts_takeResult (c.withNet n) c.env.unix src hdr
      (peersFromProto resp.closerPeers) resp.result).sends
    show Lookup.Stable (ShardNet.env _).instant P
    rw [hsends.env]
    exact hP'

theorem handleApp (hP : Lookup.Stable c.now P) (h : AllPending P c) (src : SocketAddr)
    (pkt : Bytes) (authenticated : Bool) :
    AllPending P (c.handleApp src pkt authenticated).1 := by
  rw [ShardCtx.handleApp]
  split
  · exact h
  · dsimp only
    split
    · exact h
    · exact h
    · exact h
    · exact h
    · exact h.onFindNodeResp hP _ _ _
    · exact h
    · exact h.onFindValueResp hP _ _ _
    · obtain ⟨n, store, heq⟩ := c.onStore_eq src _ pkt
      rw [heq]
      exact h
    · obtain ⟨n, store, heq⟩ := c.onAnnounce_eq src _ pkt
      rw [heq]
      exact h
    · exact h
    · exact h
    · exact h
    all_goals exact h

theorem handleCmd (hP : Lookup.Stable c.now P) (h : AllPending P c) (cmd : ShardCmd) (tx : Chan) :
    AllPending P (c.handleCmd cmd tx) := by
  rcases c.handleCmd_cases cmd tx with ⟨hsame, -⟩ | ⟨key, hstart⟩
  · exact h.of_lookups hsame
  · rw [hstart]
    exact h.startLookup hP _ _ _

theorem onLookupTick (hP : Lookup.Stable c.now P) (h : AllPending P c) :
    AllPending P c.onLookupTick := by
  have hmap : AllPending P { c with lookups := c.lookups.mapValues fun _ p ↦
      { p with lookup := (p.lookup.onTimeouts c.now).2 } } := by
    intro id p' hp'
    rw [HashMap.lookup_mapValues] at hp'
    obtain ⟨p, hp, rfl⟩ := Option.map_eq_some_iff.mp hp'
    exact hP.onTimeouts _ (h id p hp)
  have hblame : (c.timedOut.foldl blame c.toShardNet).now = c.now :=
    List.foldlRecOn (motive := fun n : ShardNet ↦ n.now = c.now) _ blame rfl fun n hn _ _ ↦ hn
  rw [ShardCtx.onLookupTick]
  refine sweepLookups ?_ hmap
  show Lookup.Stable (c.timedOut.foldl blame c.toShardNet).now P
  rw [hblame]
  exact hP

theorem onTimer (hP : Lookup.Stable c.now P) (h : AllPending P c) (kind : TimerKind) :
    AllPending P (c.onTimer kind) := by
  rcases kind with _ | _ | _ | _ | _
  · exact h
  · exact h
  · exact h
  · exact h.onLookupTick hP
  · exact h

theorem handleDatagram (h : AllPending P c) (src : SocketAddr) (pkt : Bytes) :
    AllPending P (c.handleDatagram src pkt).1 := by
  obtain ⟨wg, sybil, sent, heq⟩ := c.handleDatagram_fst src pkt
  rw [heq]
  exact h

theorem drainTurn (h : AllPending P c) (src : SocketAddr) : AllPending P (c.drainTurn src).1 := by
  obtain ⟨wg, sent, heq⟩ := c.drainTurn_fst src
  rw [heq]
  exact h

theorem runTask (hP : Lookup.Stable c.now P) (h : AllPending P c) (t : Task) :
    AllPending P (c.runTask t).1 := by
  rcases t with ⟨src, pkt, authenticated⟩ | src | src | kind
  · exact h.handleApp hP src pkt authenticated
  · exact h.drainTurn src
  · exact h
  · exact h.onTimer hP kind

/-- **The rule.** A property that is stable at the time of a step is kept by the step. -/
theorem step {m : Machine} {e : Event} (hP : Lookup.Stable e.env.instant P)
    (h : AllPending P m.ctx) : AllPending P (m.step e).ctx := by
  have hat : AllPending P (m.ctxAt e.env) := h
  have hPat : Lookup.Stable (m.ctxAt e.env).now P := hP
  rcases m.step_cases e with hsame | ⟨src, pkt, -, hctx, -⟩ | ⟨cmd, -, hctx, -⟩ |
    ⟨timers, -, hctx, -⟩ | ⟨t, ts, -, -, hctx, -⟩ | ⟨r, -, hctx, -⟩ | ⟨-, hctx, -⟩
  · rw [hsame]
    exact h
  · rw [hctx]
    exact hat.handleDatagram src pkt
  · rw [hctx]
    exact hat.handleCmd hPat cmd _
  · rw [hctx]
    exact h
  · rw [hctx]
    exact hat.runTask hPat t
  · rw [hctx]
    intro id p hp
    change (m.ctx.lookups.reorder r).lookup id = some p at hp
    rw [HashMap.lookup_reorder] at hp
    exact h id p hp
  · rw [hctx]
    exact h

end AllPending

end ShardCtx

end Molia
