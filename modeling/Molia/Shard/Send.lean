import Molia.Shard.State

/-!
# Sending

How a shard puts datagrams on the wire: in the clear, through a tunnel, or wrapped in a relay frame.
`sendApp` is the one entry point for application messages. It prefers a relay hop if one is recorded
for the peer; otherwise it encrypts when a key is known and the node runs encrypted, and queues the
message if the tunnel has no session yet. `flushPendingWg` empties that queue.
-/

namespace Molia

variable [Crates]

open Crates

/-- The datagram is a WireGuard handshake initiation. -/
def isInitiation (pkt : Bytes) : Bool :=
  match parseWgHeader pkt with
  | some h => h.ty = wgTypeInitiation
  | none => false

/-- The text of an address on the wire, `udp://` and the address. -/
def multiaddr (a : SocketAddr) : Bytes := [117, 100, 112, 58, 47, 47] ++ addrDisplay a

/-- The address in a text, with or without the scheme. -/
def parseMultiaddr (raw : Bytes) : Option SocketAddr :=
  if [117, 100, 112, 58, 47, 47].isPrefixOf raw then addrParse (raw.drop 6) else addrParse raw

def encodeAddrs (addrs : List SocketAddr) : List Proto.Addr := addrs.map fun a ↦ ⟨multiaddr a⟩

def peersToProto (peers : List PeerInfo) : List Proto.Peer :=
  (peers.take maxFindNodePeers).map fun p ↦
    { peerId := p.id.val.val
      addrs := encodeAddrs p.addrs
      rttMs := p.rttMs
      x25519Pubkey := (p.x25519.map Bytes32.val).getD [] }

/-- The peer a message describes: an id of 32 bytes and at least one address that parses. -/
def peerFromProto (p : Proto.Peer) : Option PeerInfo := do
  let id ← NodeId.fromBytes p.peerId
  match p.addrs.filterMap fun a ↦ parseMultiaddr a.multiaddr with
  | [] => none
  | addr :: rest =>
    let info := rest.foldl PeerInfo.pushAddr (PeerInfo.new id addr)
    some { info with x25519 := Bytes32.ofBytes p.x25519Pubkey }

def peersFromProto (peers : List Proto.Peer) : List PeerInfo := peers.filterMap peerFromProto

namespace ShardNet

/-! ## The socket -/

/-- Hand a datagram to the socket. Errors of the socket are ignored. -/
def transmit (n : ShardNet) (dest : SocketAddr) (bytes : Bytes) (form : Form) : ShardNet :=
  { n with sent := n.sent ++ [⟨dest, bytes, form⟩] }

/-- The next correlation id; zero is skipped. -/
def nextCorr (n : ShardNet) : UInt32 × ShardNet :=
  let next := n.nextCorrId + 1
  (n.nextCorrId, { n with nextCorrId := if next = 0 then 1 else next })

def sendPlain (n : ShardNet) (dest : SocketAddr) (app : Bytes) (call : Option ℕ) : ShardNet :=
  n.transmit dest app (.clear call)

/-- Send a message of the control plane in the clear, if it encodes. -/
def sendControl (n : ShardNet) (dest : SocketAddr) (pkt : Option Bytes) : ShardNet :=
  match pkt with
  | some p => n.sendPlain dest p none
  | none => n

/-! ## Application messages -/

def peerIdFor (n : ShardNet) (dest : SocketAddr) : Option NodeId :=
  (n.table.allPeers.find? fun e ↦ e.info.addrs.any (· = dest)).map PeerEntry.id

/-- The peers of the table with their primary addresses. -/
def contacts (n : ShardNet) : List (NodeId × SocketAddr) :=
  n.table.allPeers.filterMap fun e ↦ e.info.primaryAddr.map fun a ↦ (e.id, a)

/-- The frame that asks a hop to pass `app` on to `dest`. -/
def relayFrame (n : ShardNet) (corr : UInt32) (dest : NodeId) (app : Bytes) : Option Bytes :=
  message Crates.relay (Header.request .relay .coordination corr)
    { destId := dest.val.val, fromId := n.identity.nodeId.val.val, payload := app }

def sendRelayFrame (n : ShardNet) (hop : SocketAddr) (dest : NodeId) (app : Bytes) (call : ℕ) :
    ShardNet :=
  if hop = n.localAddr then n
  else
    -- the hop on record serves only where no contact is picked
    let hop := (pickRelay n.identity.nodeId dest n.contacts).getD hop
    let (corr, n) := n.nextCorr
    match n.relayFrame corr dest app with
    | some frame => n.sendPlain hop frame (some call)
    | none => n

/-- The key a message to `dest` is encrypted for: the one passed along, else the one on record. -/
def keyFor (n : ShardNet) (dest : SocketAddr) (x25519 : Option Bytes32) : Option Bytes32 :=
  x25519 <|> n.keysByAddr.lookup dest

/-- The relay hop recorded for the peer at `dest`. -/
def hopFor (n : ShardNet) (dest : SocketAddr) : Option (NodeId × SocketAddr) :=
  (n.peerIdFor dest).bind fun id ↦ (n.viaRelay.lookup id).map fun hop ↦ (id, hop)

/-- Queue a message until the handshake with `dest` is done. -/
def enqueue (n : ShardNet) (dest : SocketAddr) (q : Queued) : ShardNet :=
  { n with
    pendingWg := n.pendingWg.insert dest ((n.pendingWg.lookup dest).getD [] ++ [q]) }

/-- A packet for `dest` through the tunnel of `pk`. -/
def encapsulateTo (n : ShardNet) (dest : SocketAddr) (pk : Bytes32) (plaintext : Bytes) :
    Option Bytes × ShardNet :=
  let (pkt, w) := n.wg.encapsulateTo n.now dest pk none plaintext
  (pkt, { n with wg := w })

/-- The encrypted path of `sendApp`. -/
def sendSealed (n : ShardNet) (dest : SocketAddr) (pk : Bytes32) (q : Queued) : ShardNet :=
  match n.encapsulateTo dest pk (wrapRpc q.app) with
  | (some pkt, n) =>
    -- a handshake packet does not carry the message, which then waits
    let n := if isInitiation pkt then n.enqueue dest q else n
    n.transmit dest pkt .tunnel
  | (none, n) =>
    match (n.enqueue dest q).encapsulateTo dest pk [] with
    | (some pkt, n) => n.transmit dest pkt .tunnel
    | (none, n) => n

/-- The body of `sendApp`, under the number of the call. -/
def deliver (n : ShardNet) (dest : SocketAddr) (x25519 : Option Bytes32) (q : Queued) : ShardNet :=
  if q.app.length > pmtuFloor then n
  else
    match n.hopFor dest with
    | some (id, hop) => n.sendRelayFrame hop id q.app q.call
    | none =>
      let n := { n with
        relay := { n.relay with
          budget := n.relay.budget.onEgress (UInt64.ofNat q.app.length) } }
      match n.keyFor dest x25519 with
      | none => n.sendPlain dest q.app (some q.call)
      | some pk =>
        if n.cfg.plaintext then n.sendPlain dest q.app (some q.call) else n.sendSealed dest pk q

/-- Enter a call of `sendApp` into the history. -/
def logCall (n : ShardNet) (dest : SocketAddr) (x25519 : Option Bytes32) (app : Bytes) : ShardNet :=
  { n with
    calls := n.calls ++
      [{ dest, x25519, app, key := n.keyFor dest x25519, hop := (n.hopFor dest).map Prod.snd }] }

def sendApp (n : ShardNet) (dest : SocketAddr) (x25519 : Option Bytes32) (app : Bytes) : ShardNet :=
  (n.logCall dest x25519 app).deliver dest x25519 ⟨app, n.calls.length⟩

/-- Send an application message, if it encodes. -/
def sendMessage (n : ShardNet) (dest : SocketAddr) (x25519 : Option Bytes32)
    (pkt : Option Bytes) : ShardNet :=
  match pkt with
  | some p => n.sendApp dest x25519 p
  | none => n

/-! ## The queue of a destination -/

/-- The loop of `flush_pending_wg`: what is still to be queued after it. -/
def flushLoop (dest : SocketAddr) (pk : Bytes32) :
    List Queued → ShardNet → ShardNet × List Queued
  | [], n => (n, [])
  | q :: qs, n =>
    match n.encapsulateTo dest pk (wrapRpc q.app) with
    | (some pkt, n) =>
      if isInitiation pkt then (n.transmit dest pkt .tunnel, q :: qs)
      else flushLoop dest pk qs (n.transmit dest pkt .tunnel)
    | (none, n) => (n, q :: qs)

/-- With no key on record for the destination, the whole queue goes out in the clear. -/
def flushPendingWg (n : ShardNet) (dest : SocketAddr) : ShardNet :=
  match n.pendingWg.lookup dest with
  | none => n
  | some queue =>
    let n := { n with pendingWg := n.pendingWg.erase dest }
    match n.keysByAddr.lookup dest with
    | none => queue.foldl (fun n q ↦ n.sendPlain dest q.app (some q.call)) n
    | some pk =>
      match flushLoop dest pk queue n with
      | (n, []) => n
      | (n, leftover) =>
        { n with
          pendingWg := n.pendingWg.insert dest ((n.pendingWg.lookup dest).getD [] ++ leftover) }

/-! ## Control messages -/

def introPing (n : ShardNet) : Proto.Ping where
  nowUnixMs := n.env.unixMs
  x25519Pubkey := n.identity.wgPublic.val
  ed25519Pubkey := n.identity.verifyingKey.val
  bindingSig := n.identity.bindingSignature

def introPong (n : ShardNet) (src : SocketAddr) : Proto.Pong where
  nowUnixMs := n.env.unixMs
  x25519Pubkey := n.identity.wgPublic.val
  ed25519Pubkey := n.identity.verifyingKey.val
  bindingSig := n.identity.bindingSignature
  observed := some ⟨multiaddr src⟩

def sendPing (n : ShardNet) (dest : SocketAddr) : ShardNet :=
  let (corr, n) := n.nextCorr
  n.sendControl dest (message Crates.ping (Header.request .ping .control corr) n.introPing)

def sendError (n : ShardNet) (dest : SocketAddr) (corr : UInt32) (code : Proto.ErrorCode)
    (reason : String) : ShardNet :=
  n.sendMessage dest none
    (message Crates.error (Header.response .error .control corr)
      { code, reason, retryAfterMs := 50 })

def replyPeers (n : ShardNet) (dest : SocketAddr) (corr : UInt32) (peers : List PeerInfo) :
    ShardNet :=
  n.sendMessage dest none
    (message Crates.findNodeResp (Header.response .findNodeResp .coordination corr)
      ⟨peersToProto peers⟩)

/-- A request to each of the given peers that has an address, each with its own correlation id. -/
def sendToAll (n : ShardNet) (peers : List PeerInfo) (pkt : UInt32 → Option Bytes) : ShardNet :=
  peers.foldl
    (fun n p ↦
      match p.primaryAddr with
      | none => n
      | some dest =>
        let (corr, n) := n.nextCorr
        n.sendMessage dest p.x25519 (pkt corr))
    n

def sendStoreRpc (n : ShardNet) (r : StoredRecord) : ShardNet :=
  n.sendToAll (n.table.closest r.key kDefault) fun corr ↦
    message Crates.storeReq (Header.request .storeReq .coordination corr)
      { record := r.encode, admissionToken := [], costStamp := [] }

def announceRpc (n : ShardNet) (key : Key) (metadata : Bytes) : ShardNet :=
  n.sendToAll (n.table.closest key kDefault) fun corr ↦
    message Crates.announceProviderReq (Header.request .announceProviderReq .coordination corr)
      { key := key.val.val
        selfDescriptor := some { peerId := n.identity.nodeId.val.val, metadata }
        record := []
        admissionToken := []
        costStamp := [] }

def replicateStore (n : ShardNet) (value : Bytes) (ttlSecs : UInt64) : ShardNet :=
  n.sendStoreRpc (Store.immutableRecord n.env.unix value ttlSecs)

/-! ## Lookup requests -/

/-- The request of a lookup to one peer. -/
def lookupRequest (l : Lookup) (corr : UInt32) : Option Bytes :=
  match l.kind with
  | .findNode =>
    message Crates.findNodeReq (Header.request .findNodeReq .coordination corr)
      { targetId := l.target.val.val, limit := UInt32.ofNat kDefault }
  | .findValue =>
    message Crates.findValueReq (Header.request .findValueReq .coordination corr)
      { key := l.target.val.val, providerLimit := 16 }

/-- A blinding probe. -/
def sendProbe (dest : SocketAddr) (x25519 : Option Bytes32) (n : ShardNet) (probe : Key) :
    ShardNet :=
  let (corr, n) := n.nextCorr
  let h := Header.request .findValueReq .hints corr
  n.sendMessage dest x25519
    (message Crates.findValueReq { h with flags := h.flags ||| flagProbe }
      { key := probe.val.val, providerLimit := 1 })

/-- Send the request of a lookup to one peer of the batch, and the probes that blind it. -/
def dispatchTo (acc : ShardNet × Lookup) (p : PeerInfo) : ShardNet × Lookup :=
  let (n, l) := acc
  -- a peer without an address uses up a correlation id too
  let (corr, n) := n.nextCorr
  match p.primaryAddr with
  | none => (n, l)
  | some dest =>
    let (n, l) :=
      match lookupRequest l corr with
      | some pkt => (n.sendApp dest p.x25519 pkt, l.noteSent n.now p.id corr)
      | none => (n, l)
    if l.privacy = .blind then (l.probeTargets.foldl (sendProbe dest p.x25519) n, l) else (n, l)

def dispatchLookupBatch (n : ShardNet) (l : Lookup) : ShardNet × Lookup :=
  let (batch, l) := l.nextBatch n.now
  batch.foldl dispatchTo (n, l)

end ShardNet

end Molia
