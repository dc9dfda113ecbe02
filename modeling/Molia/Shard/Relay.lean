import Molia.Shard.Conveyance
import Molia.Shard.Machine

/-!
# The relay path

A message for a peer that cannot be reached directly is wrapped in a relay frame and sent to a hop,
which passes the frame on to the peer. The frame adds a header, two ids and the length of the
payload, and has to fit in a datagram itself: a message that could be sent directly may be too long
to be relayed. And the hop that was recorded for the peer is used only if the table holds no contact
in another bucket.

`Relayed` follows a datagram over the whole path: out of the sender, through the hop, and into the
hands of the peer.
-/

namespace Molia

section

variable [Crates]

open Crates Protobuf

attribute [local irreducible] message

/-- What the code relies on from the codec of relay frames: it decodes what it encodes, and its
encodings have the length of the wire format. -/
structure RelayCodec : Prop where
  roundTrips : Crates.relay.RoundTrips
  sameLength : Crates.relay.SameLength Proto.relayWire

namespace ShardNet

variable {n r : ShardNet}

/-! ## The hop and the peer -/

/-- A frame for another node is passed on to that node as it is, if the hop relays, has the budget
and knows the node. -/
theorem sent_onRelay (hcodec : RelayCodec) {src next : SocketAddr} {corr : UInt32} {x : NodeId}
    {sender : NodeId} {app : Bytes} (hlen : app.length ≤ relayPayloadMax)
    (hx : r.identity.nodeId ≠ x) (hforward : (r.relay.forward app.length false).1 = true)
    (hnext : (r.table.get x).bind (fun e ↦ e.info.primaryAddr) = some next) :
    (r.onRelay src ((Header.request .relay .coordination corr).bytes
      ++ Crates.relay.encode ⟨x.val.val, sender.val.val, app⟩)).1.sent
      = r.sent ++ [⟨next, (Header.request .relay .coordination r.nextCorrId).bytes
        ++ Crates.relay.encode ⟨x.val.val, sender.val.val, app⟩, .clear none⟩] := by
  have hmax : relayPayloadMax ≤ pmtuFloor := by decide
  have hfit : headerLen + (Crates.relay.encode ⟨x.val.val, sender.val.val, app⟩).length
      ≤ pmtuFloor := by
    rw [hcodec.sameLength]
    exact (relayWire_fits_iff x sender (le_trans hlen hmax)).mpr hlen
  have hmsg : message Crates.relay (Header.request .relay .coordination r.nextCorrId)
      ⟨x.val.val, sender.val.val, app⟩ = some ((Header.request .relay .coordination
        r.nextCorrId).bytes ++ Crates.relay.encode ⟨x.val.val, sender.val.val, app⟩) :=
    message_eq_some_iff.mpr ⟨hfit, rfl⟩
  have hx' : x ≠ r.identity.nodeId := Ne.symm hx
  rw [onRelay, decodeBody_bytes_encode _ hcodec.roundTrips]
  simp only [NodeId.fromBytes_val]
  rw [if_neg hx']
  rcases hfw : r.relay.forward app.length false with ⟨ok, relay⟩
  rw [hfw] at hforward
  have hok : ok = true := hforward
  simp only [hok, Bool.true_eq_false, if_false, hnext]
  show ((({ r with relay } : ShardNet).nextCorr.2).sendControl next
    (message Crates.relay (Header.request .relay .coordination r.nextCorrId) _)).sent = _
  rw [hmsg]
  rfl

theorem onRelay_self (hcodec : RelayCodec) {src : SocketAddr} {corr : UInt32} {x sender : NodeId}
    {app : Bytes} (hx : n.identity.nodeId = x) :
    n.onRelay src ((Header.request .relay .coordination corr).bytes
      ++ Crates.relay.encode ⟨x.val.val, sender.val.val, app⟩)
      = ({ n with viaRelay := n.viaRelay.insert sender src }, some app) := by
  rw [onRelay, decodeBody_bytes_encode _ hcodec.roundTrips]
  simp only [NodeId.fromBytes_val, hx, if_true]

/-! ## The whole path -/

/-- `sendApp` to `dest` puts one frame for `x` on the wire, addressed to `hop`; the node `r` at
`hop` passes one frame on to `next`; and the node `x` finds in that frame the datagram `app`. -/
def Relayed (n r : ShardNet) (dest : SocketAddr) (x25519 : Option Bytes32) (app : Bytes)
    (x : NodeId) (hop next : SocketAddr) : Prop :=
  ∃ corr frame, n.relayFrame corr x app = some frame ∧
    (n.sendApp dest x25519 app).sent = n.sent ++ [⟨hop, frame, .clear (some n.calls.length)⟩] ∧
    ∃ frame', (∀ src, (r.onRelay src frame).1.sent = r.sent ++ [⟨next, frame', .clear none⟩]) ∧
      (∃ h, Header.decode frame' = some h ∧ h.ty = .relay) ∧
      ∀ m : ShardNet, m.identity.nodeId = x → ∀ src, (m.onRelay src frame').2 = some app

theorem length_lt_of_relayFrame (hcodec : RelayCodec) {corr : UInt32} {dest : NodeId}
    {app frame : Bytes} (h : n.relayFrame corr dest app = some frame) :
    app.length < frame.length := by
  obtain ⟨-, rfl⟩ := message_eq_some_iff.mp h
  have hpayload : (Protobuf.encode (bytesField 3 app)).length ≥ app.length := by
    rw [length_encode_bytesField (by decide)]
    split
    · rename_i hnil
      rw [hnil]
      exact Nat.zero_le _
    · rw [fieldLen]
      omega
  have hbody : (Crates.relay.encode ⟨dest.val.val, n.identity.nodeId.val.val, app⟩).length
      ≥ app.length := by
    rw [hcodec.sameLength]
    show (Protobuf.encode (bytesField 1 _ ++ bytesField 2 _ ++ bytesField 3 app)).length ≥ _
    rw [encode_append, encode_append, List.length_append, List.length_append]
    omega
  have hhead : headerLen = 12 := rfl
  rw [List.length_append, Header.length_bytes]
  omega

theorem relayFrame_inj (hcodec : RelayCodec) {corr corr' : UInt32} {x y : NodeId}
    {app frame : Bytes} (hx : n.relayFrame corr x app = some frame)
    (hy : n.relayFrame corr' y app = some frame) : x = y := by
  have heq := (decodeBody_of_message hcodec.roundTrips hx).symm.trans
    (decodeBody_of_message hcodec.roundTrips hy)
  rw [Option.some.injEq, Proto.Relay.mk.injEq] at heq
  have hval : NodeId.fromBytes x.val.val = NodeId.fromBytes y.val.val := by
    rw [heq.1]
  rw [NodeId.fromBytes_val, NodeId.fromBytes_val] at hval
  exact Option.some.inj hval

theorem hopFor_eq_some_iff {dest hop : SocketAddr} {id : NodeId} :
    n.hopFor dest = some (id, hop) ↔
      n.peerIdFor dest = some id ∧ n.viaRelay.lookup id = some hop := by
  rw [hopFor, Option.bind_eq_some_iff]
  constructor
  · rintro ⟨id', hpeer, hmap⟩
    obtain ⟨hop', hlookup, heq⟩ := Option.map_eq_some_iff.mp hmap
    obtain ⟨rfl, rfl⟩ := Prod.mk.inj heq
    exact ⟨hpeer, hlookup⟩
  · rintro ⟨hpeer, hlookup⟩
    exact ⟨id, hpeer, by rw [hlookup]; rfl⟩

/-- A relay frame for `x` that carries the message is sent only on a hop for `x`, and to the contact
that is picked in place of the hop. -/
theorem hop_of_frame_sent (hcodec : RelayCodec) {dest : SocketAddr} {x25519 : Option Bytes32}
    {app : Bytes} (hlen : app.length ≤ pmtuFloor) {corr : UInt32} {x : NodeId} {s : Sent}
    (hs : s ∈ (n.sendApp dest x25519 app).sent.drop n.sent.length) (hform : s.form ≠ .tunnel)
    (hframe : n.relayFrame corr x app = some s.bytes) :
    ∃ hop, n.hopFor dest = some (x, hop) ∧ hop ≠ n.localAddr ∧
      s.dest = (pickRelay n.identity.nodeId x n.contacts).getD hop := by
  rcases hhop : n.hopFor dest with _ | ⟨id, hop⟩
  · -- a direct datagram is made by a tunnel or is the message itself, which is shorter
    obtain ⟨l, hl, -, hdirect⟩ := sent_sendApp_direct x25519 hlen hhop
    rw [hl, List.drop_left] at hs
    have hbytes : s.bytes = app := (hdirect s hs).resolve_left hform
    have hlt := length_lt_of_relayFrame hcodec hframe
    rw [hbytes] at hlt
    exact absurd hlt (lt_irrefl _)
  · rw [sent_sendApp_hop x25519 hlen hhop, List.drop_left] at hs
    split_ifs at hs with hlocal
    · cases hs
    · obtain ⟨frame, hframe', rfl⟩ := Option.map_eq_some_iff.mp (Option.mem_toList.mp hs)
      obtain rfl := relayFrame_inj hcodec hframe hframe'
      exact ⟨hop, rfl, hlocal, rfl⟩

/-- **When a datagram gets through.** Where the peer `x` has the hop `hop` on record, and the node
there relays, has the budget and knows the address of `x`, a datagram sent to `dest` reaches `x`
through that node if and only if `dest` is an address the sender holds for `x`, the hop is not the
sender itself, the datagram leaves room for the frame, and no contact of another bucket is picked in
place of the hop. -/
theorem relayed_iff (hcodec : RelayCodec) {dest : SocketAddr} {x25519 : Option Bytes32}
    {app : Bytes} {x : NodeId} {hop next : SocketAddr} (hlen : app.length ≤ pmtuFloor)
    (hvia : n.viaRelay.lookup x = some hop) (hx : r.identity.nodeId ≠ x)
    (hforward : (r.relay.forward app.length false).1 = true)
    (hnext : (r.table.get x).bind (fun e ↦ e.info.primaryAddr) = some next) :
    Relayed n r dest x25519 app x hop next ↔
      n.peerIdFor dest = some x ∧ hop ≠ n.localAddr ∧ app.length ≤ relayPayloadMax ∧
        (pickRelay n.identity.nodeId x n.contacts).getD hop = hop := by
  constructor
  · rintro ⟨corr, frame, hframe, hsent, -⟩
    have hshort := ((relayFrame_eq_some_iff hcodec.sameLength hlen).mp hframe).1
    have hnew : (⟨hop, frame, .clear (some n.calls.length)⟩ : Sent)
        ∈ (n.sendApp dest x25519 app).sent.drop n.sent.length := by
      rw [hsent, List.drop_left]
      exact List.mem_singleton_self _
    obtain ⟨hop', hhop, hlocal, hto⟩ := hop_of_frame_sent hcodec hlen hnew Form.noConfusion hframe
    obtain ⟨hpeer, hlookup⟩ := hopFor_eq_some_iff.mp hhop
    obtain rfl : hop = hop' := Option.some.inj (hvia.symm.trans hlookup)
    exact ⟨hpeer, hlocal, hshort, hto.symm⟩
  · rintro ⟨hpeer, hlocal, hshort, hpick⟩
    have hframe : n.relayFrame n.nextCorrId x app
        = some ((Header.request .relay .coordination n.nextCorrId).bytes
          ++ Crates.relay.encode ⟨x.val.val, n.identity.nodeId.val.val, app⟩) :=
      (relayFrame_eq_some_iff hcodec.sameLength hlen).mpr ⟨hshort, rfl⟩
    refine ⟨n.nextCorrId, _, hframe, ?_, (Header.request .relay .coordination r.nextCorrId).bytes
      ++ Crates.relay.encode ⟨x.val.val, n.identity.nodeId.val.val, app⟩, ?_, ?_, ?_⟩
    · rw [sent_sendApp_hop x25519 hlen (hopFor_eq_some_iff.mpr ⟨hpeer, hvia⟩), if_neg hlocal,
        hframe, hpick]
      rfl
    · intro src
      exact sent_onRelay hcodec hshort hx hforward hnext
    · exact ⟨_, Header.decode_bytes_append rfl _, rfl⟩
    · intro m hm src
      rw [onRelay_self hcodec hm]

end ShardNet

end

/-! ## Three nodes -/

section

open Sample

attribute [local instance] wireCrates

private theorem sampleRelay : RelayCodec := ⟨Proto.roundTrips_relayWire, fun _ ↦ rfl⟩

private def hopAddr : SocketAddr := .ofV4 10 0 0 66 9000

private def hiddenAddr : SocketAddr := .ofV4 10 0 0 9 9000

/-- The peer behind the hop. -/
private def hidden : PeerInfo := .new (identity .third).nodeId hiddenAddr

/-- A frame from the peer, with nothing in it, that came through the hop. -/
private def hiddenFrame : Bytes :=
  (Header.request .relay .coordination 1).bytes
    ++ Proto.relayWire.encode ⟨(identity .first).nodeId.val.val, hidden.id.val.val, []⟩

/-- A node that knows the peer and has heard from it through the hop. -/
private def relayedRun : ShardRun where
  start := shardStart ⟨true, false, false⟩
  events := [⟨noon, .command (.injectPeer hidden)⟩, ⟨noon, .datagram hopAddr hiddenFrame⟩,
    ⟨noon, .work⟩, ⟨noon, .work⟩]

/-- The node at the hop: it relays, knows the peer and has sent enough of its own. -/
private def hopNode : ShardNet :=
  let start := ShardNet.start 0 (identity .second) ⟨true, false, true⟩ hopAddr noon Peerstore.memory
  { start.insertPeer hidden with relay := ⟨true, ⟨100000, 0⟩, true⟩ }

/-- A short datagram gets through. -/
theorem ShardNet.relayed_short :
    ShardNet.Relayed relayedRun.final.ctx.toShardNet hopNode hiddenAddr none [1, 2, 3]
      hidden.id hopAddr hiddenAddr :=
  (ShardNet.relayed_iff sampleRelay (by decide) (by decide +kernel) (by decide +kernel)
    (by decide +kernel) (by decide +kernel)).mpr (by decide +kernel)

/-- A datagram of 1118 bytes does not, although it could be sent directly. -/
theorem ShardNet.relayed_fails :
    ¬∀ (_ : Crates), RelayCodec → ∀ (run : ShardRun) (r : ShardNet) (dest : SocketAddr)
      (x25519 : Option Bytes32) (app : Bytes) (x : NodeId) (hop next : SocketAddr),
      app.length ≤ pmtuFloor → run.final.ctx.peerIdFor dest = some x →
      run.final.ctx.viaRelay.lookup x = some hop → hop ≠ run.final.ctx.localAddr →
      r.identity.nodeId ≠ x → (r.relay.forward app.length false).1 = true →
      (r.table.get x).bind (fun e ↦ e.info.primaryAddr) = some next →
      ShardNet.Relayed run.final.ctx.toShardNet r dest x25519 app x hop next := by
  intro hall
  have hlen : (List.replicate 1118 (0 : UInt8)).length ≤ pmtuFloor := by
    rw [List.length_replicate]
    decide
  have hforward : (hopNode.relay.forward (List.replicate 1118 (0 : UInt8)).length false).1
      = true := by
    rw [List.length_replicate]
    decide +kernel
  obtain ⟨corr, frame, hframe, -⟩ := hall wireCrates sampleRelay relayedRun hopNode hiddenAddr none
    (List.replicate 1118 0) hidden.id hopAddr hiddenAddr hlen (by decide +kernel)
    (by decide +kernel) (by decide +kernel) (by decide +kernel) hforward (by decide +kernel)
  have hshort := ((ShardNet.relayFrame_eq_some_iff sampleRelay.sameLength hlen).mp hframe).1
  rw [List.length_replicate] at hshort
  revert hshort
  decide

end

end Molia
