import Molia.Shard.Answers
import Molia.Shard.Relay

/-!
# Who a relayed request is from

A relay frame for this node names the node it comes from, and its payload is handled as if it had
come in directly, from the address of the relay. The handlers know nothing of the frame: they answer
to that address. The answer takes the way back through the relay only if the table happens to hold
the origin under the address of the relay. A PING is worse: its answer goes to the relay in the
clear, and the keys of the origin are recorded for the relay's address.

`attributed_iff` says exactly when a relayed request is attributed to its origin.
-/

namespace Molia

/-- The message asks for a response. -/
def MessageType.isRequest : MessageType → Bool
  | .ping | .negotiateReq | .findNodeReq | .findValueReq | .storeReq | .announceProviderReq => true
  | _ => false

section

variable [Crates]

open Crates

attribute [local irreducible] message

/-! ## The response to a request -/

namespace ShardCtx

variable {c : ShardCtx} {src : SocketAddr} {h : Header} {pkt : Bytes}

/-- The response to a request that is not a PING, if there is one and it fits in a datagram. -/
def responseTo (c : ShardCtx) (src : SocketAddr) (h : Header) (pkt : Bytes) : Option Bytes :=
  match h.ty with
  | .negotiateReq =>
    message Crates.negotiateResp (Header.response .negotiateResp .control h.correlation)
      ⟨some defaultCapabilities⟩
  | .findNodeReq => (decodeBody Crates.findNodeReq pkt).bind fun req ↦
      message Crates.findNodeResp (Header.response .findNodeResp .coordination h.correlation)
        ⟨peersToProto (c.nearest req)⟩
  | .findValueReq => (decodeBody Crates.findValueReq pkt).bind fun req ↦
      (Key.fromBytes req.key).bind fun key ↦
        message Crates.findValueResp (Header.response .findValueResp .coordination h.correlation)
          (c.findValueAnswer c.store key h req.providerLimit)
  | .storeReq => (decodeBody Crates.storeReq pkt).bind fun req ↦
      if (c.sybil.allowPreHandshake c.now src).1 = false then
        message Crates.error (Header.response .error .control h.correlation)
          { code := .rateLimited, reason := "rate", retryAfterMs := 50 }
      else
        message Crates.storeResp (Header.response .storeResp .coordination h.correlation)
          (c.storeVerdict h req).1
  | .announceProviderReq => (decodeBody Crates.announceProviderReq pkt).bind fun req ↦
      if (c.sybil.allowPreHandshake c.now src).1 = false then none
      else (Key.fromBytes req.key).bind fun _ ↦
        message Crates.announceProviderResp
          (Header.response .announceProviderResp .coordination h.correlation) ⟨.ok, ""⟩
  | _ => none

/-- The verdict on a STORE depends on the network side for the time only, and leaves it alone. -/
theorem storeVerdict_withNet (c : ShardCtx) {n : ShardNet} (henv : n.env = c.env) (h : Header)
    (req : Proto.StoreReq) :
    ((c.withNet n).storeVerdict h req).1 = (c.storeVerdict h req).1 ∧
      ((c.withNet n).storeVerdict h req).2.toShardNet = n := by
  have hunix : (c.withNet n).env.unix = c.env.unix := congrArg Env.unix henv
  have hstore : (c.withNet n).store = c.store := rfl
  rw [storeVerdict, storeVerdict, hunix, hstore]
  rcases storedRecordOf c.env.unix req with e | rec
  · exact ⟨rfl, rfl⟩
  · dsimp only
    rcases c.store.putRecord rec h.isProbe with ⟨_ | _, s⟩
    · exact ⟨rfl, rfl⟩
    · exact ⟨rfl, rfl⟩

theorem net_onStore (hty : h.ty = .storeReq) : ∃ sybil, (c.onStore src h pkt).toShardNet =
    ({ c.toShardNet with sybil } : ShardNet).sendMessage src none (c.responseTo src h pkt) := by
  simp only [onStore, responseTo, hty]
  rcases decodeBody Crates.storeReq pkt with _ | req
  · exact ⟨c.sybil, rfl⟩
  · refine ⟨(c.sybil.allowPreHandshake c.now src).2, ?_⟩
    simp only [Option.bind_some]
    by_cases hok : (c.sybil.allowPreHandshake c.now src).1 = false
    · rw [if_pos hok, if_pos hok]
      rfl
    · rw [if_neg hok, if_neg hok]
      obtain ⟨hverdict, hnet⟩ := storeVerdict_withNet c
        (n := { c.toShardNet with sybil := (c.sybil.allowPreHandshake c.now src).2 }) rfl h req
      exact congrArg₂ (fun (n : ShardNet) resp ↦ n.sendMessage src none
        (message Crates.storeResp (Header.response .storeResp .coordination h.correlation) resp))
        hnet hverdict

theorem net_onAnnounce (hty : h.ty = .announceProviderReq) :
    ∃ sybil, (c.onAnnounce src h pkt).toShardNet =
      ({ c.toShardNet with sybil } : ShardNet).sendMessage src none (c.responseTo src h pkt) := by
  simp only [onAnnounce, responseTo, hty]
  rcases decodeBody Crates.announceProviderReq pkt with _ | req
  · exact ⟨c.sybil, rfl⟩
  · refine ⟨(c.sybil.allowPreHandshake c.now src).2, ?_⟩
    simp only [Option.bind_some]
    by_cases hok : (c.sybil.allowPreHandshake c.now src).1 = false
    · rw [if_pos hok, if_pos hok]
      rfl
    · rw [if_neg hok, if_neg hok]
      rcases Key.fromBytes req.key with _ | key
      · rfl
      · dsimp only
        split
        · rfl
        · rfl

/-- A request that is not a PING is answered, and but for that it leaves the network side alone. -/
theorem net_handleApp_of_request (c : ShardCtx) (src : SocketAddr) (authenticated : Bool)
    (hdec : Header.decode pkt = some h) (hreq : h.ty.isRequest = true) (hping : h.ty ≠ .ping) :
    ∃ sybil, (c.handleApp src pkt authenticated).1.toShardNet =
      ({ c.toShardNet with sybil } : ShardNet).sendMessage src none (c.responseTo src h pkt) := by
  simp only [handleApp, hdec]
  rcases hty : h.ty
  case ping => exact absurd hty hping
  case negotiateReq =>
    refine ⟨c.sybil, ?_⟩
    simp only [responseTo, hty]
    rfl
  case findNodeReq =>
    refine ⟨c.sybil, ?_⟩
    show c.toShardNet.onFindNode src h pkt = _
    simp only [ShardNet.onFindNode, responseTo, hty]
    rcases decodeBody Crates.findNodeReq pkt with _ | req
    · rfl
    · rfl
  case findValueReq =>
    refine ⟨c.sybil, ?_⟩
    show c.toShardNet.onFindValue c.store src h pkt = _
    simp only [ShardNet.onFindValue, responseTo, hty]
    rcases decodeBody Crates.findValueReq pkt with _ | req
    · rfl
    · simp only [Option.bind_some]
      rcases Key.fromBytes req.key with _ | key
      · rfl
      · rfl
  case storeReq => exact net_onStore hty
  case announceProviderReq => exact net_onAnnounce hty
  all_goals
    rw [hty] at hreq
    cases hreq

theorem responseTo_viaRelay (c : ShardCtx) (viaRelay : HashMap NodeId SocketAddr)
    (src : SocketAddr) (h : Header) (pkt : Bytes) :
    responseTo { c with viaRelay } src h pkt = c.responseTo src h pkt := by
  have hverdict : ∀ req, (storeVerdict { c with viaRelay } h req).1 = (c.storeVerdict h req).1 :=
    fun req ↦ (storeVerdict_withNet c (n := { c.toShardNet with viaRelay }) rfl h req).1
  simp only [responseTo, hverdict]
  rfl

theorem length_le_of_responseTo {resp : Bytes} (hresp : c.responseTo src h pkt = some resp) :
    resp.length ≤ pmtuFloor := by
  rw [responseTo] at hresp
  split at hresp
  · exact length_le_of_message hresp
  · obtain ⟨req, -, hmsg⟩ := Option.bind_eq_some_iff.mp hresp
    exact length_le_of_message hmsg
  · obtain ⟨req, -, hkey⟩ := Option.bind_eq_some_iff.mp hresp
    obtain ⟨key, -, hmsg⟩ := Option.bind_eq_some_iff.mp hkey
    exact length_le_of_message hmsg
  · obtain ⟨req, -, hmsg⟩ := Option.bind_eq_some_iff.mp hresp
    split_ifs at hmsg
    · exact length_le_of_message hmsg
    · exact length_le_of_message hmsg
  · obtain ⟨req, -, hallowed⟩ := Option.bind_eq_some_iff.mp hresp
    split_ifs at hallowed
    obtain ⟨key, -, hmsg⟩ := Option.bind_eq_some_iff.mp hallowed
    exact length_le_of_message hmsg
  · cases hresp

end ShardCtx

/-! ## The way of a response -/

namespace ShardNet

variable {n n' : ShardNet} {src : SocketAddr} {origin : NodeId} {app : Bytes}

/-- From `n` to `n'`, every datagram that is sent is a relay frame for `origin`, and there is one
for every message given to `sendApp`. -/
structure RepliesTo (n n' : ShardNet) (origin : NodeId) : Prop where
  frames : ∀ s ∈ n'.sent.drop n.sent.length, (∃ i, s.form = .clear i) ∧
    ∃ corr app, n.relayFrame corr origin app = some s.bytes
  calls : ∀ call ∈ n'.calls.drop n.calls.length, ∃ s ∈ n'.sent.drop n.sent.length,
    ∃ corr, n.relayFrame corr origin call.app = some s.bytes

theorem RepliesTo.refl (n : ShardNet) (origin : NodeId) : n.RepliesTo n origin := by
  refine ⟨?_, ?_⟩
  · rw [List.drop_length]
    exact fun s hs ↦ by cases hs
  · rw [List.drop_length]
    exact fun call hcall ↦ by cases hcall

/-- **The way back.** A message to the address of the relay goes to the origin if and only if the
table has the origin under that address, the relay is not this node, and the frame fits. -/
theorem repliesTo_sendApp_iff (hcodec : RelayCodec) (hlen : app.length ≤ pmtuFloor)
    (hvia : n.viaRelay.lookup origin = some src) :
    n.RepliesTo (n.sendApp src none app) origin ↔
      n.peerIdFor src = some origin ∧ src ≠ n.localAddr ∧ app.length ≤ relayPayloadMax := by
  constructor
  · intro h
    have hnew := h.calls
    rw [calls_sendApp, List.drop_left, List.forall_mem_singleton] at hnew
    obtain ⟨s, hs, corr, hframe⟩ := hnew
    have hshort := ((relayFrame_eq_some_iff hcodec.sameLength hlen).mp hframe).1
    obtain ⟨⟨i, hclear⟩, -⟩ := h.frames s hs
    have hform : s.form ≠ .tunnel := by
      rw [hclear]
      exact Form.noConfusion
    obtain ⟨hop, hhop, hlocal, -⟩ := hop_of_frame_sent hcodec hlen hs hform hframe
    obtain ⟨hpeer, hlookup⟩ := hopFor_eq_some_iff.mp hhop
    obtain rfl : hop = src := Option.some.inj (hlookup.symm.trans hvia)
    exact ⟨hpeer, hlocal, hshort⟩
  · rintro ⟨hpeer, hlocal, hshort⟩
    have hhop : n.hopFor src = some (origin, src) := hopFor_eq_some_iff.mpr ⟨hpeer, hvia⟩
    have hframe : n.relayFrame n.nextCorrId origin app = some _ :=
      (relayFrame_eq_some_iff hcodec.sameLength hlen).mpr ⟨hshort, rfl⟩
    have hsent := sent_sendApp_hop none hlen hhop
    rw [if_neg hlocal, hframe, Option.map_some, Option.toList_some] at hsent
    refine ⟨?_, ?_⟩
    · rw [hsent, List.drop_left]
      intro s hs
      rw [List.mem_singleton.mp hs]
      exact ⟨⟨_, rfl⟩, _, _, hframe⟩
    · rw [calls_sendApp, hsent, List.drop_left, List.drop_left]
      intro call hcall
      rw [List.mem_singleton.mp hcall]
      exact ⟨_, List.mem_singleton_self _, _, hframe⟩

/-! ## A PING -/

theorem sent_onPing {h : Header} {pkt pong : Bytes} (hpong : message Crates.pong
    (Header.response .pong .control h.correlation) (n.introPong src) = some pong) :
    (n.onPing src h pkt).sent = n.sent ++ [⟨src, pong, .clear none⟩] := by
  have hgreet : ∀ (n' : ShardNet) (id : Option NodeId), n'.sent = n.sent → n'.env = n.env →
      n'.identity = n.identity →
      ((n'.learnAddr src id).sendControl src (message Crates.pong
        (Header.response .pong .control h.correlation)
        ((n'.learnAddr src id).introPong src))).sent = n.sent ++ [⟨src, pong, .clear none⟩] := by
    intro n' id hsent henv hidentity
    have hintro : (n'.learnAddr src id).introPong src = n.introPong src := by
      rcases id with _ | id
      · simp only [introPong, learnAddr, insertPeer, upsertPeer, henv, hidentity]
      · simp only [introPong, learnAddr, insertPeer, upsertPeer, henv, hidentity]
    rw [hintro, hpong]
    rcases id with _ | id
    · exact congrArg (· ++ [_]) hsent
    · exact congrArg (· ++ [_]) hsent
  rw [onPing]
  rcases decodeBody Crates.ping pkt with _ | p
  · exact hgreet n none rfl rfl rfl
  · have hnote : (n.notePeerKeys src p.x25519Pubkey p.ed25519Pubkey p.bindingSig).2.sent = n.sent ∧
        (n.notePeerKeys src p.x25519Pubkey p.ed25519Pubkey p.bindingSig).2.env = n.env ∧
        (n.notePeerKeys src p.x25519Pubkey p.ed25519Pubkey p.bindingSig).2.identity
          = n.identity := by
      rw [notePeerKeys]
      split
      · exact ⟨rfl, rfl, rfl⟩
      · split_ifs
        · exact ⟨rfl, rfl, rfl⟩
        · exact ⟨rfl, rfl, rfl⟩
        · exact ⟨rfl, rfl, rfl⟩
    exact hgreet _ _ hnote.1 hnote.2.1 hnote.2.2

theorem relayFrame_ne_pong {corr corr' : UInt32} {body : Proto.Pong} {pong : Bytes}
    (hpong : message Crates.pong (Header.response .pong .control corr) body = some pong) :
    n.relayFrame corr' origin app ≠ some pong := by
  intro hframe
  have hboth := (decode_of_message rfl hpong).symm.trans (decode_of_message rfl hframe)
  have hpongTy := congrArg (fun o : Option Header ↦ o.map Header.ty) hboth
  cases hpongTy

end ShardNet

/-! ## Relayed requests -/

namespace ShardCtx

variable {c : ShardCtx} {src : SocketAddr} {relay origin : NodeId} {payload : Bytes} {h : Header}

/-- The payload of a frame that `relay` passed on for `origin` is handled as a message of `origin`:
all responses go back to it as relay frames, the key on record for the address of the relay stays,
and no peer but the relay gets that address. -/
structure Attributed (c : ShardCtx) (src : SocketAddr) (relay origin : NodeId) (payload : Bytes) :
    Prop where
  responses : c.toShardNet.RepliesTo (c.handleApp src payload false).1.toShardNet origin
  key : (c.handleApp src payload false).1.keysByAddr.lookup src = c.keysByAddr.lookup src
  addrs : ∀ e ∈ (c.handleApp src payload false).1.table.allPeers, src ∈ e.info.addrs →
    e.id = relay ∨ ∃ e' ∈ c.table.allPeers, e'.id = e.id ∧ src ∈ e'.info.addrs

theorem not_attributed_ping (hdec : Header.decode payload = some h) (hty : h.ty = .ping)
    (hpong : (message Crates.pong (Header.response .pong .control h.correlation)
      (c.introPong src)).isSome) : ¬c.Attributed src relay origin payload := by
  intro hatt
  obtain ⟨pong, hpong⟩ := Option.isSome_iff_exists.mp hpong
  have happ : (c.handleApp src payload false).1.toShardNet = c.toShardNet.onPing src h payload := by
    simp only [handleApp, hdec, hty]
    rfl
  have hframes := hatt.responses.frames
  rw [happ, ShardNet.sent_onPing hpong, List.drop_left] at hframes
  obtain ⟨-, corr, app, hframe⟩ := hframes _ (List.mem_singleton_self _)
  exact ShardNet.relayFrame_ne_pong hpong hframe

/-- A message that is only answered is attributed as its answer is. -/
theorem attributed_iff_repliesTo {n : ShardNet} {sybil : Sybil} {resp : Option Bytes}
    (hn : n = { c.toShardNet with sybil })
    (hnet : (c.handleApp src payload false).1.toShardNet = n.sendMessage src none resp) :
    c.Attributed src relay origin payload ↔
      n.RepliesTo (n.sendMessage src none resp) origin := by
  have hsends := ShardNet.Sends.sendMessage n src none resp
  constructor
  · intro hatt
    have hresp := hatt.responses
    rw [hnet] at hresp
    rw [hn] at hresp ⊢
    exact ⟨hresp.frames, hresp.calls⟩
  · intro hrep
    refine ⟨?_, ?_, ?_⟩
    · rw [hnet]
      rw [hn] at hrep ⊢
      exact ⟨hrep.frames, hrep.calls⟩
    · rw [hnet]
      have hkeys := congrArg ShardNet.Knowledge.keysByAddr hsends.knowledge
      rw [hn] at hkeys ⊢
      exact congrArg (fun m : HashMap SocketAddr Bytes32 ↦ m.lookup src) hkeys
    · intro e he hmem
      have htable := hsends.table
      rw [hnet, htable, hn] at he
      exact Or.inr ⟨e, he, rfl, hmem⟩

theorem attributed_iff_of_request (hcodec : RelayCodec) (hdec : Header.decode payload = some h)
    (hreq : h.ty.isRequest = true) (hping : h.ty ≠ .ping)
    (hvia : c.viaRelay.lookup origin = some src) :
    c.Attributed src relay origin payload ↔ ∀ resp, c.responseTo src h payload = some resp →
      c.peerIdFor src = some origin ∧ src ≠ c.localAddr ∧ resp.length ≤ relayPayloadMax := by
  obtain ⟨sybil, hnet⟩ := c.net_handleApp_of_request src false hdec hreq hping
  generalize hn : ({ c.toShardNet with sybil } : ShardNet) = n at hnet
  rw [attributed_iff_repliesTo hn.symm hnet]
  rcases hresp : c.responseTo src h payload with _ | resp
  · exact iff_of_true (ShardNet.RepliesTo.refl n origin) fun resp hnone ↦ by cases hnone
  · have hvia' : n.viaRelay.lookup origin = some src := by
      rw [← hn]
      exact hvia
    refine (ShardNet.repliesTo_sendApp_iff hcodec (length_le_of_responseTo hresp) hvia').trans ?_
    rw [← hn]
    constructor
    · rintro hcond resp' ⟨⟩
      exact hcond
    · intro hall
      exact hall resp rfl

end ShardCtx

/-- **When a relayed request is attributed to its origin.** A relay frame for this node, with a
request of `origin` in it, has come from the address `src`. The request is attributed to `origin` if
and only if it is not a PING and there is nothing to answer, or the table has `origin` under the
address of the relay, which is not this node's, and the answer fits in a relay frame. -/
theorem attributed_iff (hcodec : RelayCodec) (c : ShardCtx) (src : SocketAddr) (pkt : Bytes)
    (authenticated : Bool) (hd h : Header) (r : Proto.Relay) (relay origin : NodeId)
    (hframe : Header.decode pkt = some hd) (hrelay : hd.ty = .relay)
    (hbody : decodeBody Crates.relay pkt = some r)
    (hdest : NodeId.fromBytes r.destId = some c.identity.nodeId)
    (hfrom : NodeId.fromBytes r.fromId = some origin) (hdec : Header.decode r.payload = some h)
    (hreq : h.ty.isRequest = true)
    (hpong : (message Crates.pong (Header.response .pong .control h.correlation)
      (c.introPong src)).isSome) :
    (c.handleApp src pkt authenticated).1.Attributed src relay origin r.payload ↔
      h.ty ≠ .ping ∧ ∀ resp, c.responseTo src h r.payload = some resp →
        c.peerIdFor src = some origin ∧ src ≠ c.localAddr ∧ resp.length ≤ relayPayloadMax := by
  have hc : (c.handleApp src pkt authenticated).1
      = { c with viaRelay := c.viaRelay.insert origin src } := by
    simp only [ShardCtx.handleApp, hframe, hrelay, ShardNet.onRelay, hbody, hdest, hfrom, if_true]
    rfl
  rw [hc]
  by_cases hping : h.ty = .ping
  · refine iff_of_false (ShardCtx.not_attributed_ping hdec hping ?_) fun hand ↦ hand.1 hping
    exact hpong
  · have hvia : (c.viaRelay.insert origin src).lookup origin = some src := AList.lookup_insert _
    rw [ShardCtx.attributed_iff_of_request hcodec hdec hreq hping hvia,
      ShardCtx.responseTo_viaRelay]
    exact (and_iff_right hping).symm

end

/-! ## A ping through a relay -/

section

open Sample

attribute [local instance] wireCrates

private theorem relayCodec : RelayCodec := ⟨Proto.roundTrips_relayWire, fun _ ↦ rfl⟩

private def relayAddr : SocketAddr := .ofV4 10 0 0 66 9000

private def relayNode : NodeId := (identity .third).nodeId

private def originNode : NodeId := (identity .second).nodeId

private def wrapHeader : Header := Header.request .relay .coordination 9

private def wrapBody (payload : Bytes) : Proto.Relay :=
  ⟨(identity .first).nodeId.val.val, originNode.val.val, payload⟩

/-- A frame the relay passes on for the origin. -/
private def wrapped (payload : Bytes) : Bytes :=
  wrapHeader.bytes ++ Proto.relayWire.encode (wrapBody payload)

/-- A shard that has a peer at the address of the relay. -/
private def behind (peer : NodeId) : ShardRun where
  start := shardStart ⟨true, false, false⟩
  events := [⟨noon, .command (.injectPeer (.new peer relayAddr))⟩]

private def queryHeader : Header := Header.request .findNodeReq .coordination 5

private def query : Bytes :=
  queryHeader.bytes ++ Proto.findNodeReqWire.encode ⟨List.replicate 32 9, 20⟩

/-- A query of an origin that the table has under the address of the relay. -/
theorem attributed_known :
    ((behind originNode).final.ctx.handleApp relayAddr (wrapped query) false).1.Attributed relayAddr
      relayNode originNode query := by
  refine (attributed_iff relayCodec (behind originNode).final.ctx relayAddr (wrapped query) false
    wrapHeader queryHeader (wrapBody query) relayNode originNode (by decide +kernel) rfl
    (by decide +kernel) (by decide +kernel) (by decide +kernel) (by decide +kernel) rfl
    (by decide +kernel)).mpr ⟨by decide, ?_⟩
  show ∀ resp ∈ (behind originNode).final.ctx.responseTo relayAddr queryHeader query, _
  decide +kernel

private def greetingHeader : Header := Header.request .ping .control 5

/-- The ping of the origin, with its keys. -/
private def greeting : Bytes :=
  greetingHeader.bytes ++ Proto.pingWire.encode
    ⟨0, (keyData .second).x25519.val, (keyData .second).publicKey.val, (keyData .second).binding⟩

/-- A ping through the relay puts the key of the origin on record for the address of the relay. -/
theorem attributed_fails :
    ¬∀ (_ : Crates) (run : ShardRun) (src : SocketAddr) (pkt : Bytes) (authenticated : Bool)
      (hd h : Header) (r : Proto.Relay) (relay origin : NodeId),
      Header.decode pkt = some hd → hd.ty = .relay → decodeBody Crates.relay pkt = some r →
      NodeId.fromBytes r.destId = some run.final.ctx.identity.nodeId →
      NodeId.fromBytes r.fromId = some origin → Header.decode r.payload = some h →
      h.ty.isRequest = true →
      (run.final.ctx.handleApp src pkt authenticated).1.Attributed src relay origin r.payload := by
  intro hall
  have hatt := hall wireCrates (behind relayNode) relayAddr (wrapped greeting) false wrapHeader
    greetingHeader (wrapBody greeting) relayNode originNode (by decide +kernel) rfl
    (by decide +kernel) (by decide +kernel) (by decide +kernel) (by decide +kernel) rfl
  have hkey := hatt.key
  revert hkey
  decide +kernel

end

end Molia
