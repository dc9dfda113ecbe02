import Molia.Shard.Send
import Molia.Store.Erasure

/-!
# Message handlers

What a shard does with one message, one command or one timer. A handler that only sends and learns
about peers is a function on `ShardNet`; the others work on the whole state.

The handlers of the source call one another in one place only: a relay frame addressed to this node
makes the handler of relay frames handle the frame's payload, as its last action. Here it returns
that payload, and the caller goes on with it.
-/

namespace Molia

variable [Crates]

open Crates

/-- The provider a message describes, if its id has 32 bytes. -/
def providerOf (p : Proto.Provider) : Option (NodeId × Bytes) :=
  (NodeId.fromBytes p.peerId).map fun id ↦ (id, p.metadata)

namespace ShardNet

/-! ## Learning about peers -/

def insertPeer (n : ShardNet) (info : PeerInfo) : ShardNet :=
  { n with table := (n.table.insert n.now info).2 }

def upsertPeer (n : ShardNet) (info : PeerInfo) : ShardNet :=
  { n with peers := n.peers.upsert info }

/-- Record the keys of a peer whose binding verifies. -/
def notePeerKeys (n : ShardNet) (src : SocketAddr) (x25519 ed25519 sig : Bytes) :
    Option NodeId × ShardNet :=
  match Bytes32.ofBytes x25519 with
  | none => (none, n)
  | some x =>
    if ed25519.length ≠ 32 ∨ sig = [] then (none, n)
    else if verifyBinding ed25519 x25519 sig = false then (none, n)
    else
      let id := nodeIdFromPubkey ed25519
      let n := { n with
        keysByAddr := n.keysByAddr.insert src x
        wg := n.wg.addPeer x (some id) (some src) }
      let info := { PeerInfo.new id src with x25519 := some x }
      (some id, (n.insertPeer info).upsertPeer info)

/-- The 32 bytes a contact without an id is hashed from: its address and its port. -/
def contactBytes (src : SocketAddr) : Bytes :=
  let ip := match src.ip with
    | .v4 a b c d => [a, b, c, d]
    | .v6 octets => octets.take 16
  ip ++ List.replicate (30 - ip.length) 0 ++ u16ToBe src.port.toNat

/-- What an answer from `src` says about the peer `id`, or about an unknown contact. -/
def learnAddr (n : ShardNet) (src : SocketAddr) (id : Option NodeId) : ShardNet :=
  match id with
  | some id =>
    let info := (((n.table.get id).map PeerEntry.info).getD (PeerInfo.new id src)).pushAddr src
    let n := (n.insertPeer info).upsertPeer info
    { n with
      endpoints := n.endpoints.insert id { declared := src, observed := some src, lastOk := n.now }
      sybil := n.sybil.reward id
      table := n.table.touchOk n.now id 80000 }
  | none =>
    let info := PeerInfo.new ⟨blake3 (contactBytes src)⟩ src
    (n.insertPeer info).upsertPeer info

/-! ## Hole punching -/

def ourCandidates (n : ShardNet) : List SocketAddr := natCandidates n.localAddr n.mapped

def sendPunchMsg (n : ShardNet) (hop : SocketAddr) (target : NodeId) (cands : List SocketAddr) :
    ShardNet :=
  let (corr, n) := n.nextCorr
  n.sendControl hop (message Crates.punch (Header.request .punch .control corr)
    { targetId := target.val.val
      fromId := n.identity.nodeId.val.val
      candidates := encodeAddrs cands })

/-- The attempt after one more burst. -/
def nextAttempt (now : ℕ) (p : PunchAttempt) : PunchAttempt :=
  { p with
    burstsDone := if p.burstsDone = 255 then 255 else p.burstsDone + 1
    nextBurst := (punchDeadlines now).1 }

def burstPunch (n : ShardNet) (id : NodeId) : ShardNet :=
  match n.punches.lookup id with
  | none => n
  | some p =>
    let n := p.candidates.foldl sendPing n
    { n with punches := n.punches.modify id (nextAttempt n.now) }

/-- A new attempt towards a peer. -/
def newAttempt (now : ℕ) (peer : NodeId) (candidates : List SocketAddr) (rendezvous : SocketAddr) :
    PunchAttempt where
  peer := peer
  candidates := candidates
  rendezvous := rendezvous
  burstsDone := 0
  nextBurst := now
  relayAt := (punchDeadlines now).2 + 250 * millis
  replied := false

/-- The endpoint of a peer has answered lately. -/
def isFresh (n : ShardNet) (id : NodeId) : Bool :=
  match n.endpoints.lookup id with
  | some e => e.fresh n.now
  | none => false

def schedulePunch (n : ShardNet) (due : ℕ) : ShardNet :=
  { n with timers := n.timers.schedule due .punch }

def startPunch (rendezvous : SocketAddr) (n : ShardNet) (peer : PeerInfo) : ShardNet :=
  if peer.id = n.identity.nodeId then n
  else if n.isFresh peer.id then n
  else if (n.punches.lookup peer.id).isSome ∨ (n.viaRelay.lookup peer.id).isSome then n
  else if peer.addrs = [] then n
  else
    let attempt := newAttempt n.now peer.id peer.addrs rendezvous
    let n := { n with punches := n.punches.insert peer.id attempt }
    let n := n.sendPunchMsg rendezvous peer.id n.ourCandidates
    (n.burstPunch peer.id).schedulePunch (punchDeadlines n.now).1

/-- Answer a punch request addressed to this node. -/
def answerPunch (n : ShardNet) (src : SocketAddr) (sender : NodeId) (cands : List SocketAddr)
    (first : SocketAddr) : ShardNet :=
  let info := ((n.table.get sender).map PeerEntry.info).getD (PeerInfo.new sender first)
  let n := n.insertPeer (cands.foldl PeerInfo.pushAddr info)
  let attempt := (n.punches.lookup sender).getD (newAttempt n.now sender cands src)
  let n := { n with
    punches := n.punches.insert sender
      { attempt with candidates := cands, rendezvous := src, replied := true } }
  let n := if attempt.replied then n else n.sendPunchMsg src sender n.ourCandidates
  (n.burstPunch sender).schedulePunch (punchDeadlines n.now).1

def onPunch (n : ShardNet) (src : SocketAddr) (pkt : Bytes) : ShardNet :=
  match decodeBody Crates.punch pkt with
  | none => n
  | some p =>
    match NodeId.fromBytes p.targetId, NodeId.fromBytes p.fromId with
    | some target, some sender =>
      if target = n.identity.nodeId then
        match p.candidates.filterMap fun a ↦ parseMultiaddr a.multiaddr with
        | [] => n
        | first :: rest => n.answerPunch src sender (first :: rest) first
      else
        match (n.table.get target).bind fun e ↦ e.info.primaryAddr with
        | none => n
        | some dest =>
          -- the body goes on as it came: it has no hop count, and `src` is not looked at
          let (corr, n) := n.nextCorr
          n.sendControl dest (message Crates.punch (Header.request .punch .control corr) p)
    | _, _ => n

/-- The attempt towards `id` when the punch timer fires. The flag says whether to come back. -/
def punchTick (acc : ShardNet × Bool) (id : NodeId) : ShardNet × Bool :=
  let (n, again) := acc
  if n.isFresh id then
    ({ n with punches := n.punches.erase id, viaRelay := n.viaRelay.erase id }, again)
  else
    match n.punches.lookup id with
    | none => (n, again)
    | some p =>
      let due := p.burstsDone < 2 ∧ n.now ≥ p.nextBurst
      let (n, again) := if due then (n.burstPunch id, true) else (n, again)
      match n.punches.lookup id with
      | none => (n, again)
      | some p =>
        if p.burstsDone ≥ 2 ∧ n.now ≥ p.relayAt then
          -- given up: from now on the peer is reached through the rendezvous
          let n := { n with punches := n.punches.erase id }
          if n.relay.enabled ∨ (n.table.get id).isSome then
            ({ n with viaRelay := n.viaRelay.insert id p.rendezvous }, again)
          else (n, again)
        else (n, true)

def onPunchTimer (n : ShardNet) : ShardNet :=
  match n.punches.keys.foldl punchTick (n, false) with
  | (n, true) => n.schedulePunch (n.now + 250 * millis)
  | (n, false) => n

/-! ## Relay frames -/

/-- The second component is the payload of a frame addressed to this node. -/
def onRelay (n : ShardNet) (src : SocketAddr) (pkt : Bytes) : ShardNet × Option Bytes :=
  match decodeBody Crates.relay pkt with
  | none => (n, none)
  | some r =>
    match NodeId.fromBytes r.destId, NodeId.fromBytes r.fromId with
    | some dest, some sender =>
      if dest = n.identity.nodeId then
        -- the payload is handled with `src`, the address of the relay, as its source
        ({ n with viaRelay := n.viaRelay.insert sender src }, some r.payload)
      else
        let (ok, relay) := n.relay.forward r.payload.length false
        let n := { n with relay }
        if ok = false then (n, none)
        else
          match (n.table.get dest).bind fun e ↦ e.info.primaryAddr with
          | none => (n, none)
          | some next =>
            let (corr, n) := n.nextCorr
            (n.sendControl next
              (message Crates.relay (Header.request .relay .coordination corr) r), none)
    | _, _ => (n, none)

/-! ## Greetings and routing queries -/

def onPing (n : ShardNet) (src : SocketAddr) (h : Header) (pkt : Bytes) : ShardNet :=
  let (id, n) :=
    match decodeBody Crates.ping pkt with
    | some p => n.notePeerKeys src p.x25519Pubkey p.ed25519Pubkey p.bindingSig
    | none => (none, n)
  let n := n.learnAddr src id
  n.sendControl src
    (message Crates.pong (Header.response .pong .control h.correlation) (n.introPong src))

def onPong (n : ShardNet) (src : SocketAddr) (pkt : Bytes) : ShardNet :=
  match decodeBody Crates.pong pkt with
  | none => n.learnAddr src none
  | some p =>
    let n :=
      match p.observed.bind fun a ↦ parseMultiaddr a.multiaddr with
      | some obs => { n with mapped := some obs }
      | none => n
    match n.notePeerKeys src p.x25519Pubkey p.ed25519Pubkey p.bindingSig with
    | (some id, n) =>
      let n := n.learnAddr src (some id)
      { n with viaRelay := n.viaRelay.erase id, punches := n.punches.erase id }
    | (none, n) => n.learnAddr src none

def onNegotiate (n : ShardNet) (src : SocketAddr) (h : Header) : ShardNet :=
  n.sendMessage src none
    (message Crates.negotiateResp (Header.response .negotiateResp .control h.correlation)
      ⟨some defaultCapabilities⟩)

def onFindNode (n : ShardNet) (src : SocketAddr) (h : Header) (pkt : Bytes) : ShardNet :=
  match decodeBody Crates.findNodeReq pkt with
  | none => n
  | some req =>
    let target := (Key.fromBytes req.targetId).getD ⟨Bytes32.fill 0⟩
    let limit := min (max req.limit.toNat 1) maxFindNodePeers
    n.replyPeers src h.correlation (n.table.closest target limit)

/-- The answer to a FIND_VALUE: the record if there is one and the query is not a probe, else the
providers, else nothing but closer peers. -/
def findValueAnswer (n : ShardNet) (store : Store) (key : Key) (h : Header)
    (providerLimit : UInt32) : Proto.FindValueResp :=
  let closerPeers := peersToProto (n.table.closest key maxCloserPeers)
  let providers :=
    store.liveProviders n.env.unix key (min providerLimit.toNat maxProvidersPerChunk)
  let fallback : Option Proto.FindValueResult :=
    if providers = [] then none
    else some (.providers (providers.map fun e ↦ ⟨e.peerId.val.val, e.metadata⟩))
  match store.get n.env.unix key with
  | some rec => { result := if h.isProbe then fallback else some (.record rec.encode), closerPeers }
  | none => { result := fallback, closerPeers }

def onFindValue (n : ShardNet) (store : Store) (src : SocketAddr) (h : Header) (pkt : Bytes) :
    ShardNet :=
  match decodeBody Crates.findValueReq pkt with
  | none => n
  | some req =>
    match Key.fromBytes req.key with
    | none => n
    | some key =>
      n.sendMessage src none
        (message Crates.findValueResp
          (Header.response .findValueResp .coordination h.correlation)
          (n.findValueAnswer store key h req.providerLimit))

/-- A wrong message type on an authenticated path is answered with an error. -/
def onUnsupported (n : ShardNet) (src : SocketAddr) (h : Header) (authenticated : Bool) :
    ShardNet :=
  if h.isResponse = false ∧ authenticated = true then
    n.sendError src h.correlation .unsupported "type"
  else n

/-- The keepalive timer: a ping to every contact and, in encrypted mode, the tunnels' keepalives out
of the one buffer they share. -/
def onKeepalive (n : ShardNet) : ShardNet :=
  let n := (n.contacts.map Prod.snd).foldl sendPing n
  let n :=
    if n.cfg.plaintext then n
    else
      let (w, out, pkts) := n.wg.tickKeepalive n.now poolBuffer
      pkts.foldl (fun n p ↦ n.transmit p.2 (out.take p.1) .tunnel) { n with wg := w }
  { n with timers := n.timers.schedule (n.now + keepalive) .keepalive }

end ShardNet

namespace ShardCtx

/-! ## Lookups -/

def finishLookup (c : ShardCtx) (l : Lookup) (reply : Option Chan) : ShardCtx :=
  match reply with
  | none => c
  | some tx =>
    match l.kind with
    | .findNode => c.send tx (.peers l.finishPeers)
    | .findValue =>
      match l.foundRecord with
      | some r => c.send tx (.record (some r))
      | none =>
        if l.providers ≠ [] then c.send tx (.providers l.providers) else c.send tx (.value none)

def startLookup (c : ShardCtx) (kind : LookupKind) (target : Key) (reply : Option Chan) :
    ShardCtx :=
  let privacy := if c.cfg.queryBlind then PrivacyMode.blind else PrivacyMode.none
  let seeds := c.table.closest target alphaDefault
  let l := Lookup.new c.now kind target seeds privacy
  let batches := c.batches ++ [(l, c.now)]
  let (n, l) := c.toShardNet.dispatchLookupBatch l
  let c := { c.withNet n with batches }
  if l.done then c.finishLookup l reply
  else { c with lookups := c.lookups.insert c.nextCorrId ⟨l, reply⟩ }

/-- The first pending lookup, in iteration order, with a request of that correlation in flight. -/
def findLookup (c : ShardCtx) (corr : UInt32) : Option UInt32 :=
  (c.lookups.entries.find? fun e ↦ e.2.lookup.inFlight.any fun f ↦ f.correlation = corr).map
    Sigma.fst

/-- Rewrite the lookup that `findLookup` finds. -/
def updateLookup (c : ShardCtx) (corr : UInt32) (f : Lookup → Lookup) : ShardCtx :=
  match c.findLookup corr with
  | none => c
  | some id =>
    { c with lookups := c.lookups.modify id fun p ↦ { p with lookup := f p.lookup } }

/-- Take one lookup out, send its next batch, and finish it or put it back. -/
def sweepOne (c : ShardCtx) (id : UInt32) : ShardCtx :=
  match c.lookups.lookup id with
  | none => c
  | some pend =>
    let batches := c.batches ++ [(pend.lookup, c.now)]
    let c := { c with lookups := c.lookups.erase id }
    let (n, l) := c.toShardNet.dispatchLookupBatch pend.lookup
    let c := { c.withNet n with batches }
    if l.done then c.finishLookup l pend.reply
    else { c with lookups := c.lookups.insert id { pend with lookup := l } }

def sweepLookups (c : ShardCtx) : ShardCtx := c.lookups.keys.foldl sweepOne c

/-- The id of the contact at `src`, or the zero id. -/
def senderAt (c : ShardCtx) (src : SocketAddr) : NodeId :=
  ((c.table.allPeers.find? fun e ↦ e.info.primaryAddr = some src).map PeerEntry.id).getD .zero

def completeCloser (c : ShardCtx) (corr : UInt32) (src : SocketAddr) (peers : List PeerInfo) :
    ShardCtx :=
  let sender := c.senderAt src
  (c.updateLookup corr fun l ↦ l.onCloser sender peers 50000).sweepLookups

def onFindNodeResp (c : ShardCtx) (src : SocketAddr) (h : Header) (pkt : Bytes) : ShardCtx :=
  match decodeBody Crates.findNodeResp pkt with
  | none => c
  | some resp =>
    let peers := peersFromProto resp.peers
    -- the peers are taken in before the correlation id is looked at
    let n := peers.foldl
      (fun n p ↦ ((n.insertPeer p).upsertPeer p).startPunch src p) c.toShardNet
    let n := n.learnAddr src (peers.head?.map PeerInfo.id)
    (c.withNet n).completeCloser h.correlation src peers

/-- The record in the body of a FIND_VALUE answer, if it decodes and is authentic. -/
def authenticRecord (now : UInt64) (bytes : Bytes) :
    Option { rec : StoredRecord // rec.authentic = true } :=
  match Crates.record.decode bytes with
  | none => none
  | some pr =>
    match recordFromProto now pr with
    | none => none
    | some rec => if h : rec.authentic = true then some ⟨rec, h⟩ else none

/-- Cache the record unless the answer is a probe's, and give it to the lookup that asked. The key
of the record is not compared with the target of the lookup. -/
def acceptRecord (c : ShardCtx) (now : UInt64) (h : Header) (rec : StoredRecord) : ShardCtx :=
  let c := if h.isProbe then c else { c with store := c.store.cacheHit now rec }
  c.updateLookup h.correlation fun l ↦ l.onRecord .zero rec

def onFindValueResp (c : ShardCtx) (src : SocketAddr) (h : Header) (pkt : Bytes) : ShardCtx :=
  match decodeBody Crates.findValueResp pkt with
  | none => c
  | some resp =>
    let now := c.env.unix
    let closer := peersFromProto resp.closerPeers
    let c := c.withNet
      (closer.foldl (fun n p ↦ (n.insertPeer p).startPunch src p) c.toShardNet)
    let c :=
      match resp.result with
      | some (.record bytes) =>
        match authenticRecord now bytes with
        | some rec => c.acceptRecord now h rec.val
        | none => c
      | some (.providers ps) =>
        -- the zero id stands for the peer that answered
        c.updateLookup h.correlation fun l ↦ l.onProviders .zero (ps.filterMap providerOf) closer
      | none => c.completeCloser h.correlation src closer
    c.sweepLookups

/-! ## Records and providers -/

/-- The record of a STORE request, or the reason there is none. -/
def storedRecordOf (now : UInt64) (req : Proto.StoreReq) : Except String StoredRecord :=
  match Crates.record.decode req.record with
  | none => .error "decode"
  | some pr =>
    match recordFromProto now pr with
    | none => .error "record"
    | some rec => .ok rec

/-- The verdict on a STORE request. The source also computes the cost stamp of a record that is not
immutable, and does not look at the result. -/
def storeVerdict (c : ShardCtx) (h : Header) (req : Proto.StoreReq) :
    Proto.StoreResp × ShardCtx :=
  match storedRecordOf c.env.unix req with
  | .error e => (⟨.invalid, e⟩, c)
  | .ok rec =>
    match c.store.putRecord rec h.isProbe with
    | (.ok (), s) => (⟨.ok, ""⟩, { c with store := s })
    | (.error e, s) => (⟨.invalid, e⟩, { c with store := s })

def onStore (c : ShardCtx) (src : SocketAddr) (h : Header) (pkt : Bytes) : ShardCtx :=
  match decodeBody Crates.storeReq pkt with
  | none => c
  | some req =>
    let (ok, sybil) := c.sybil.allowPreHandshake c.now src
    let c := { c with sybil }
    if ok = false then c.withNet (c.toShardNet.sendError src h.correlation .rateLimited "rate")
    else
      -- the record goes into the store of this shard, whichever shard owns its key
      let (resp, c) := c.storeVerdict h req
      c.withNet (c.toShardNet.sendMessage src none
        (message Crates.storeResp (Header.response .storeResp .coordination h.correlation) resp))

def onAnnounce (c : ShardCtx) (src : SocketAddr) (h : Header) (pkt : Bytes) : ShardCtx :=
  match decodeBody Crates.announceProviderReq pkt with
  | none => c
  | some req =>
    let (ok, sybil) := c.sybil.allowPreHandshake c.now src
    let c := { c with sybil }
    if ok = false then c
    else
      match Key.fromBytes req.key with
      | none => c
      | some key =>
        let c :=
          match req.selfDescriptor.bind providerOf with
          | some (id, metadata) =>
            { c with store := c.store.announceProvider c.env.unix key id metadata }
          | none => c
        c.withNet (c.toShardNet.sendMessage src none
          (message Crates.announceProviderResp
            (Header.response .announceProviderResp .coordination h.correlation) ⟨.ok, ""⟩))

/-! ## Dispatch -/

/-- One application message. The second component is a nested message to go on with. -/
def handleApp (c : ShardCtx) (src : SocketAddr) (pkt : Bytes) (authenticated : Bool) :
    ShardCtx × Option Bytes :=
  match Header.decode pkt with
  | none => (c, none)
  | some h =>
    let n := c.toShardNet
    match h.ty with
    | .ping => (c.withNet (n.onPing src h pkt), none)
    | .pong => (c.withNet (n.onPong src pkt), none)
    | .negotiateReq => (c.withNet (n.onNegotiate src h), none)
    | .findNodeReq => (c.withNet (n.onFindNode src h pkt), none)
    | .findNodeResp => (c.onFindNodeResp src h pkt, none)
    | .findValueReq => (c.withNet (n.onFindValue c.store src h pkt), none)
    | .findValueResp => (c.onFindValueResp src h pkt, none)
    | .storeReq => (c.onStore src h pkt, none)
    | .announceProviderReq => (c.onAnnounce src h pkt, none)
    | .punch => (c.withNet (n.onPunch src pkt), none)
    | .relay =>
      let (n, inner) := n.onRelay src pkt
      (c.withNet n, inner)
    | .error => (c, none)
    | .negotiateResp | .storeResp | .announceProviderResp | .traceHint | .cacheHint =>
      (c.withNet (n.onUnsupported src h authenticated), none)

/-! ## Commands -/

/-- The metadata of an erasure-coded value. -/
def erasureMeta (len : ℕ) : Bytes := ("rs-10-4:" ++ toString len).toUTF8.toList

/-- The plain path of a put: store and replicate. -/
def putPlain (c : ShardCtx) (value : Bytes) (ttlSecs : UInt64) (tx : Chan) : ShardCtx :=
  match c.store.putImmutableTtl c.env.unix value ttlSecs with
  | (.ok key, s) =>
    let c := { c with store := s }
    (c.withNet (c.toShardNet.replicateStore value ttlSecs)).send tx (.key key)
  | (.error _, s) => { c with store := s }.send tx (.err "store failed")

def handlePut (c : ShardCtx) (value : Bytes) (ttlSecs : UInt64) (tx : Chan) : ShardCtx :=
  if Erasure.shouldErasure value.length then
    match Erasure.encode value with
    | some _ =>
      -- the shards are dropped: only the announcement remains
      let key := hashValue value
      { c with
        store := c.store.announceProvider c.env.unix key c.identity.nodeId
          (erasureMeta value.length) }.send tx (.key key)
    | none => c.putPlain value ttlSecs tx
  else c.putPlain value ttlSecs tx

def handleGet (c : ShardCtx) (key : Key) (tx : Chan) : ShardCtx :=
  match c.store.get c.env.unix key with
  | some r => c.send tx (.record (some r))
  | none => c.startLookup .findValue key (some tx)

def handlePutMutable (c : ShardCtx) (rec : StoredRecord) (tx : Chan) : ShardCtx :=
  match c.store.putRecord rec false with
  | (.ok (), s) =>
    let c := { c with store := s }
    (c.withNet (c.toShardNet.sendStoreRpc rec)).send tx (.key rec.key)
  | (.error _, s) => { c with store := s }.send tx (.err "mutable rejected")

def handleAnnounce (c : ShardCtx) (key : Key) (metadata : Bytes) (tx : Chan) : ShardCtx :=
  let c := { c with
    store := c.store.announceProvider c.env.unix key c.identity.nodeId metadata }
  (c.withNet (c.toShardNet.announceRpc key metadata)).send tx .ok

def handleFindProviders (c : ShardCtx) (key : Key) (tx : Chan) : ShardCtx :=
  let found := c.store.liveProviders c.env.unix key maxProvidersPerChunk
  if found ≠ [] then c.send tx (.providers (found.map fun e ↦ (e.peerId, e.metadata)))
  else c.startLookup .findValue key (some tx)

def injectPeer (n : ShardNet) (info : PeerInfo) : ShardNet :=
  let n :=
    match info.x25519 with
    | none => n
    | some x =>
      let n := { n with wg := n.wg.addPeer x (some info.id) info.primaryAddr }
      match info.primaryAddr with
      | none => n
      | some addr => { n with keysByAddr := n.keysByAddr.insert addr x }
  (n.insertPeer info).upsertPeer info

/-- One command; `shutdown` is dealt with by the loop. -/
def handleCmd (c : ShardCtx) (cmd : ShardCmd) (tx : Chan) : ShardCtx :=
  match cmd with
  | .bootstrap seeds => c.withNet (seeds.foldl ShardNet.sendPing c.toShardNet)
  | .put value ttlSecs => c.handlePut value ttlSecs tx
  | .get key => c.handleGet key tx
  | .putMutable rec => c.handlePutMutable rec tx
  | .announce key metadata => c.handleAnnounce key metadata tx
  | .findProviders key => c.handleFindProviders key tx
  | .injectPeer info => c.withNet (injectPeer c.toShardNet info)
  | .shutdown => c

/-! ## Timers -/

def schedule (c : ShardCtx) (delay : ℕ) (kind : TimerKind) : ShardCtx :=
  { c with timers := c.timers.schedule (c.now + delay) kind }

/-- Write out what is queued for the log. -/
def flushStore (c : ShardCtx) : ShardCtx :=
  let (s, peers) := c.store.flushWal c.peers
  { c with store := s, peers := (peers.flush c.env.room).2 }

/-- The ids whose requests have timed out, over all lookups in iteration order. -/
def timedOut (c : ShardCtx) : List NodeId :=
  c.lookups.values.flatMap fun p ↦ (p.lookup.onTimeouts c.now).1

/-- A request that timed out counts against its peer. -/
def blame (n : ShardNet) (id : NodeId) : ShardNet :=
  { n with table := n.table.markFail id, sybil := n.sybil.penalize id }

def onLookupTick (c : ShardCtx) : ShardCtx :=
  let timed := c.timedOut
  let c := { c with
    lookups := c.lookups.mapValues fun _ p ↦ { p with lookup := (p.lookup.onTimeouts c.now).2 } }
  (c.withNet (timed.foldl blame c.toShardNet)).sweepLookups

def onTimer (c : ShardCtx) (kind : TimerKind) : ShardCtx :=
  match kind with
  | .keepalive => c.withNet c.toShardNet.onKeepalive
  | .peerstoreFlush => c.flushStore.schedule (100 * millis) .peerstoreFlush
  | .gc => { c with store := c.store.gc c.env.unix }.schedule (30 * second) .gc
  | .lookupTick => c.onLookupTick.schedule (50 * millis) .lookupTick
  | .punch => c.withNet c.toShardNet.onPunchTimer

end ShardCtx

end Molia
