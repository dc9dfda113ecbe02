import Molia.Shard.Conveyance
import Molia.Shard.Machine

/-!
# Answers to lookup requests

A FIND_NODE is answered with up to sixteen peers, a FIND_VALUE with a record, or with up to
thirty-two providers, and up to eight closer peers. The answer has to fit in one datagram, and
nothing cuts it down: if it does not fit, `encode_message` gives nothing and no answer is sent. An
answer that fits is then subject to what `Molia.Shard.Conveyance` says of every message.

Whether an answer fits is a matter of arithmetic on what the shard holds. `peersSize` and
`ShardNet.findValueSize` are the lengths the wire format prescribes, counted from the addresses and
keys of the peers, the metadata of the providers and the fields of the record; the crate's codec
enters only through the assumption that its encodings have these lengths.
-/

namespace Molia

section

variable [Crates]

open Crates Protobuf

attribute [local irreducible] message

/-- The crate's encodings have the lengths of the wire format. -/
structure Proto3Lengths : Prop where
  record : Crates.record.SameLength Proto.recordWire
  findNodeResp : Crates.findNodeResp.SameLength Proto.findNodeRespWire
  findValueResp : Crates.findValueResp.SameLength Proto.findValueRespWire
  relay : Crates.relay.SameLength Proto.relayWire

/-! ## Sizes -/

/-- The size of a number that is left out at zero. -/
def uintSize (n : ℕ) : ℕ := if n = 0 then 0 else 1 + (varint n).length

/-- The size of a byte string that is left out if empty. -/
def bytesSize (b : Bytes) : ℕ := if b = [] then 0 else fieldLen b.length

/-- The size of a peer: its id, its addresses with their scheme, its round trip time, its key. -/
def peerSize (p : PeerInfo) : ℕ :=
  fieldLen 32 + (p.addrs.map fun a ↦ fieldLen (fieldLen (6 + (addrDisplay a).length))).sum
    + uintSize p.rttMs.toNat + if p.x25519.isSome then fieldLen 32 else 0

/-- The size of a list of peers, of which at most sixteen are sent. -/
def peersSize (peers : List PeerInfo) : ℕ :=
  ((peers.take maxFindNodePeers).map fun p ↦ fieldLen (peerSize p)).sum

/-- The size of the providers of a key. -/
def providersSize (providers : List ProviderEntry) : ℕ :=
  if providers = [] then 0
  else fieldLen (providers.map fun e ↦ fieldLen (fieldLen 32 + bytesSize e.metadata)).sum

/-- The size of the answer to a FIND_VALUE. -/
def ShardNet.findValueSize (n : ShardNet) (store : Store) (key : Key) (probe : Bool)
    (providerLimit : UInt32) : ℕ :=
  let providers := providersSize
    (store.liveProviders n.env.unix key (min providerLimit.toNat maxProvidersPerChunk))
  let result :=
    match store.get n.env.unix key with
    | some rec =>
      if probe then providers else fieldLen (Proto.recordWire.encode rec.toProto).length
    | none => providers
  result + peersSize (n.table.closest key maxCloserPeers)

theorem length_addrWire (a : SocketAddr) : (Proto.addrWire.encode ⟨multiaddr a⟩).length
    = fieldLen (6 + (addrDisplay a).length) := by
  have hne : multiaddr a ≠ [] := List.cons_ne_nil _ _
  have hlen : (multiaddr a).length = 6 + (addrDisplay a).length := by
    rw [multiaddr, List.length_append]
    rfl
  show (Protobuf.encode (bytesField 1 (multiaddr a))).length = _
  rw [length_encode_bytesField (by decide), if_neg hne, hlen]

theorem length_peerWire (p : PeerInfo) :
    (Proto.peerWire.encode
      { peerId := p.id.val.val
        addrs := encodeAddrs p.addrs
        rttMs := p.rttMs
        x25519Pubkey := (p.x25519.map Bytes32.val).getD [] }).length = peerSize p := by
  have hkey : (Protobuf.encode (bytesField 4 ((p.x25519.map Bytes32.val).getD []))).length
      = if p.x25519.isSome then fieldLen 32 else 0 := by
    rcases p.x25519 with _ | x
    · rfl
    · exact length_encode_bytes32 (by decide) x
  have hid : (Protobuf.encode (bytesField 1 p.id.val.val)).length = fieldLen 32 :=
    length_encode_bytes32 (by decide) p.id.val
  have hrtt : (Protobuf.encode (uintField 3 p.rttMs.toNat)).length = uintSize p.rttMs.toNat :=
    length_encode_uintField (by decide) _
  have hmaps : ((encodeAddrs p.addrs).map fun m ↦ fieldLen (Proto.addrWire.encode m).length)
      = p.addrs.map fun a ↦ fieldLen (fieldLen (6 + (addrDisplay a).length)) := by
    simp only [encodeAddrs, List.map_map, Function.comp_def, length_addrWire]
  show (Protobuf.encode (bytesField 1 p.id.val.val
    ++ repeatedField 2 Proto.addrWire (encodeAddrs p.addrs) ++ uintField 3 p.rttMs.toNat
    ++ bytesField 4 ((p.x25519.map Bytes32.val).getD []))).length = _
  rw [encode_append, encode_append, encode_append, List.length_append, List.length_append,
    List.length_append, hid, length_encode_repeatedField (by decide), hmaps, hrtt, hkey, peerSize]

theorem sum_fieldLen_peersToProto (peers : List PeerInfo) :
    ((peersToProto peers).map fun m ↦ fieldLen (Proto.peerWire.encode m).length).sum
      = peersSize peers := by
  simp only [peersToProto, List.map_map, Function.comp_def, length_peerWire, peersSize]

theorem length_findNodeRespWire (peers : List PeerInfo) :
    (Proto.findNodeRespWire.encode ⟨peersToProto peers⟩).length = peersSize peers := by
  show (Protobuf.encode (repeatedField 1 Proto.peerWire (peersToProto peers))).length = _
  rw [length_encode_repeatedField (by decide), sum_fieldLen_peersToProto]

omit [Crates] in
theorem length_providersWire (providers : List ProviderEntry) :
    (Proto.providersWire.encode
      (providers.map fun e ↦ ⟨e.peerId.val.val, e.metadata⟩)).length
      = (providers.map fun e ↦ fieldLen (fieldLen 32 + bytesSize e.metadata)).sum := by
  have hprovider : ∀ e : ProviderEntry,
      (Proto.providerWire.encode ⟨e.peerId.val.val, e.metadata⟩).length
        = fieldLen 32 + bytesSize e.metadata := by
    intro e
    show (Protobuf.encode (bytesField 1 e.peerId.val.val ++ bytesField 2 e.metadata)).length = _
    rw [encode_append, List.length_append, length_encode_bytes32 (by decide),
      length_encode_bytesField (by decide)]
    rfl
  show (Protobuf.encode (repeatedField 1 Proto.providerWire _)).length = _
  rw [length_encode_repeatedField (by decide), List.map_map]
  simp only [Function.comp_def, hprovider]

theorem length_findValueRespWire (result : Option Proto.FindValueResult) (peers : List PeerInfo) :
    (Proto.findValueRespWire.encode ⟨result, peersToProto peers⟩).length
      = (Protobuf.encode (Proto.resultFields result)).length + peersSize peers := by
  show (Protobuf.encode (Proto.resultFields result
    ++ repeatedField 3 Proto.peerWire (peersToProto peers))).length = _
  rw [encode_append, List.length_append, length_encode_repeatedField (by decide),
    sum_fieldLen_peersToProto]

theorem length_findValueAnswer (hlen : Proto3Lengths) (n : ShardNet) (store : Store) (key : Key)
    (h : Header) (providerLimit : UInt32) :
    (Crates.findValueResp.encode (n.findValueAnswer store key h providerLimit)).length
      = n.findValueSize store key h.isProbe providerLimit := by
  have hrecord : ∀ rec : StoredRecord,
      (Protobuf.encode (Proto.resultFields (some (.record rec.encode)))).length
        = fieldLen (Proto.recordWire.encode rec.toProto).length := by
    intro rec
    rw [← hlen.record rec.toProto]
    exact (congrArg List.length (List.flatMap_singleton _ _)).trans
      (Field.length_encode_bytes (by decide) _)
  have hproviders : ∀ ps : List ProviderEntry,
      (Protobuf.encode (Proto.resultFields (if ps = [] then none
        else some (.providers (ps.map fun e ↦ ⟨e.peerId.val.val, e.metadata⟩))))).length
        = providersSize ps := by
    intro ps
    rw [providersSize]
    split
    · rfl
    · rw [← length_providersWire]
      exact (congrArg List.length (List.flatMap_singleton _ _)).trans
        (Field.length_encode_bytes (by decide) _)
  rw [hlen.findValueResp, ShardNet.findValueAnswer, ShardNet.findValueSize]
  rcases store.get n.env.unix key with _ | rec
  · rw [length_findValueRespWire, hproviders]
  · cases h.isProbe with
    | true =>
      simp only [if_true]
      rw [length_findValueRespWire, hproviders]
    | false =>
      simp only [Bool.false_eq_true, if_false]
      rw [length_findValueRespWire, hrecord]

/-! ## Being answered -/

namespace ShardCtx

/-- Handling `pkt` has one effect: a response of the given type, under the given correlation id and
no longer than a datagram may be, is sent to `src`, in one datagram. -/
def Answered (law : Ciphers) (c : ShardCtx) (src : SocketAddr) (pkt : Bytes)
    (authenticated : Bool) (ty : MessageType) (corr : UInt32) : Prop :=
  ∃ resp,
    c.handleApp src pkt authenticated
      = (c.withNet (c.toShardNet.sendApp src none resp), none) ∧
    Header.decode resp = some (Header.response ty .coordination corr) ∧
    resp.length ≤ pmtuFloor ∧
    c.Conveyed law src none resp

/-- A handler that sends one message and does nothing else answers if and only if the message
fits, and the tunnel, if there is one, has a session. -/
theorem answered_iff (hrelay : Crates.relay.SameLength Proto.relayWire) {law : Ciphers} {M : Type}
    {codec : Prost M} {body : M} {c : ShardCtx} {src : SocketAddr} {pkt : Bytes}
    {authenticated : Bool} {ty : MessageType} {corr : UInt32}
    (h : c.handleApp src pkt authenticated = (c.withNet (c.toShardNet.sendMessage src none
      (message codec (Header.response ty .coordination corr) body)), none)) :
    c.Answered law src pkt authenticated ty corr ↔
      c.Fits src (headerLen + (codec.encode body).length) ∧
        c.Seals src none ((Header.response ty .coordination corr).bytes ++ codec.encode body) := by
  by_cases hfit : headerLen + (codec.encode body).length ≤ pmtuFloor
  · have hmsg : message codec (Header.response ty .coordination corr) body
        = some ((Header.response ty .coordination corr).bytes ++ codec.encode body) :=
      message_eq_some_iff.mpr ⟨hfit, rfl⟩
    have hlen : ((Header.response ty .coordination corr).bytes ++ codec.encode body).length
        = headerLen + (codec.encode body).length := by
      rw [List.length_append, Header.length_bytes]
    rw [hmsg] at h
    rw [← hlen, ← ShardNet.conveyed_iff hrelay]
    constructor
    · rintro ⟨resp, hresp, -, -, hconveyed⟩
      rw [h] at hresp
      obtain rfl := Option.some.inj
        (ShardNet.eq_some_of_sendMessage (congrArg (fun r ↦ r.1.toShardNet) hresp))
      exact hconveyed
    · intro hconveyed
      exact ⟨_, h, decode_of_message rfl hmsg, length_le_of_message hmsg, hconveyed⟩
  · rw [message_eq, if_neg hfit] at h
    refine iff_of_false ?_ fun hand ↦ hfit hand.1.datagram
    rintro ⟨resp, hresp, -⟩
    rw [h] at hresp
    have hnet : c.toShardNet.sendMessage src none none = c.toShardNet.sendApp src none resp :=
      congrArg (fun r ↦ r.1.toShardNet) hresp
    cases ShardNet.eq_some_of_sendMessage hnet

/-- The peers that answer a FIND_NODE. -/
def nearest (c : ShardCtx) (req : Proto.FindNodeReq) : List PeerInfo :=
  c.table.closest ((Key.fromBytes req.targetId).getD ⟨Bytes32.fill 0⟩)
    (min (max req.limit.toNat 1) maxFindNodePeers)

theorem answered_findNode_iff (hlen : Proto3Lengths) {law : Ciphers} {c : ShardCtx}
    {src : SocketAddr} {pkt : Bytes} (authenticated : Bool) {h : Header} {req : Proto.FindNodeReq}
    (hdec : Header.decode pkt = some h)
    (hty : h.ty = .findNodeReq) (hreq : decodeBody Crates.findNodeReq pkt = some req) :
    c.Answered law src pkt authenticated .findNodeResp h.correlation ↔
      c.Fits src (headerLen + peersSize (c.nearest req)) ∧
        c.Seals src none ((Header.response .findNodeResp .coordination h.correlation).bytes
          ++ Crates.findNodeResp.encode ⟨peersToProto (c.nearest req)⟩) := by
  have happ : c.handleApp src pkt authenticated = (c.withNet (c.toShardNet.sendMessage src none
      (message Crates.findNodeResp (Header.response .findNodeResp .coordination h.correlation)
        ⟨peersToProto (c.nearest req)⟩)), none) := by
    simp only [handleApp, hdec, hty, ShardNet.onFindNode, hreq]
    rfl
  rw [answered_iff hlen.relay happ, hlen.findNodeResp, length_findNodeRespWire]

theorem handleApp_findValue (c : ShardCtx) (src : SocketAddr) (authenticated : Bool) {pkt : Bytes}
    {h : Header} {req : Proto.FindValueReq} {key : Key} (hdec : Header.decode pkt = some h)
    (hty : h.ty = .findValueReq) (hreq : decodeBody Crates.findValueReq pkt = some req)
    (hkey : Key.fromBytes req.key = some key) :
    c.handleApp src pkt authenticated = (c.withNet (c.toShardNet.sendMessage src none
      (message Crates.findValueResp (Header.response .findValueResp .coordination h.correlation)
        (c.findValueAnswer c.store key h req.providerLimit))), none) := by
  simp only [handleApp, hdec, hty, ShardNet.onFindValue, hreq, hkey]

theorem answered_findValue_iff (hlen : Proto3Lengths) (law : Ciphers) {c : ShardCtx}
    {src : SocketAddr} {pkt : Bytes} (authenticated : Bool) {h : Header} {req : Proto.FindValueReq}
    {key : Key} (hdec : Header.decode pkt = some h) (hty : h.ty = .findValueReq)
    (hreq : decodeBody Crates.findValueReq pkt = some req)
    (hkey : Key.fromBytes req.key = some key) :
    c.Answered law src pkt authenticated .findValueResp h.correlation ↔
      c.Fits src (headerLen + c.findValueSize c.store key h.isProbe req.providerLimit) ∧
        c.Seals src none ((Header.response .findValueResp .coordination h.correlation).bytes
          ++ Crates.findValueResp.encode
            (c.findValueAnswer c.store key h req.providerLimit)) := by
  rw [answered_iff hlen.relay (handleApp_findValue c src authenticated hdec hty hreq hkey),
    length_findValueAnswer hlen]

end ShardCtx

end

/-! ## A full table -/

section

open Sample

attribute [local instance] wireCrates

private theorem sampleLengths : Proto3Lengths :=
  ⟨fun _ ↦ rfl, fun _ ↦ rfl, fun _ ↦ rfl, fun _ ↦ rfl⟩

/-- The sample tunnels never make a packet. -/
def Sample.silentLaw : Ciphers where
  carries _ := none
  data h := by cases h
  encapsulate h := by cases h

/-- A peer with four addresses and a key. -/
private def widePeer (i : UInt8) : PeerInfo where
  id := ⟨Bytes32.fill i⟩
  addrs := [.ofV4 203 113 101 i 40001, .ofV4 203 113 102 i 40001, .ofV4 203 113 103 i 40001,
    .ofV4 203 113 104 i 40001]
  rttMs := 0
  x25519 := some (Bytes32.fill i)

/-- A plaintext node that has been given some peers. -/
private def tableRun (ids : List UInt8) : ShardRun where
  start := shardStart ⟨true, false, false⟩
  events := ids.map fun i ↦ ⟨noon, .command (.injectPeer (widePeer i))⟩

private def asker : SocketAddr := .ofV4 10 0 0 2 9000

private def nodeHeader : Header := Header.request .findNodeReq .coordination 5

private def nodeReq : Proto.FindNodeReq := ⟨List.replicate 32 9, 20⟩

private def nodeRequest : Bytes := nodeHeader.bytes ++ Proto.findNodeReqWire.encode nodeReq

end

end Molia
