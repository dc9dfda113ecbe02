import Molia.Node.ReadBack
import Molia.Shard.Answers
import Molia.Store.Names

/-!
# Replicas of a value

A put stores its value at this shard and sends it to the twenty peers closest to its key, each in
one STORE request. The client is told the key and nothing of the requests, so it matters when there
are any.

Four things stand between an accepted value and its replicas. A value of a mebibyte or more takes
the erasure path, on which nothing is sent. A request has to fit in one datagram; if it does not,
`encode_message` gives nothing and the loop goes on to the next peer, for which it does not fit
either. A peer without an address is passed over. And a request that was made may still be lost or
held up on its way to the wire, as `Molia.Shard.Conveyance` has it. `replicated_iff` says that there
is nothing else: a put replicates its value to all of the closest peers exactly if none of the four
happens.

The size of a request is `storeReqSize`, a matter of arithmetic on the value and the time to live.
With a time to live of a day, a value of 1144 bytes is the longest that fits; values from there to
76800 bytes are accepted and never replicated.
-/

namespace Molia

section

variable [Crates]

open Crates Protobuf

attribute [local irreducible] message

/-- What is assumed of the crate's codecs of STORE requests and records: they read back what they
write, and write as much as the wire format prescribes. -/
structure StoreCodec : Prop where
  storeReq : Crates.storeReq.RoundTrips
  record : Crates.record.RoundTrips
  storeReqLength : Crates.storeReq.SameLength Proto.storeReqWire
  recordLength : Crates.record.SameLength Proto.recordWire
  relayLength : Crates.relay.SameLength Proto.relayWire

/-! ## Sizes -/

/-- The size of a STORE request for a value: its key, the value and the time to live, as a field. -/
def storeReqSize (value : Bytes) (ttlSecs : UInt64) : ℕ :=
  fieldLen (34 + bytesSize value + uintSize ttlSecs.toNat)

/-- The request for a record. -/
def storeReqOf (r : StoredRecord) : Proto.StoreReq where
  record := r.encode
  admissionToken := []
  costStamp := []

theorem length_recordWire_immutable (now : UInt64) (value : Bytes) (ttlSecs : UInt64) :
    (Proto.recordWire.encode (Store.immutableRecord now value ttlSecs).toProto).length
      = 34 + bytesSize value + uintSize ttlSecs.toNat := by
  show (Protobuf.encode (bytesField 1 (hashValue value).val.val ++ bytesField 2 value
    ++ uintField 3 0 ++ uintField 4 ttlSecs.toNat ++ uintField 5 0 ++ bytesField 6 []
    ++ bytesField 7 [] ++ bytesField 8 [] ++ uintField 9 0 ++ bytesField 10 []
    ++ bytesField 11 [])).length = _
  simp only [encode_append, List.length_append, length_encode_bytes32 (show 1 < 16 by decide),
    length_encode_bytesField (show 2 < 16 by decide),
    length_encode_uintField (show 4 < 16 by decide)]
  rfl

theorem length_storeReq (hcodec : StoreCodec) (now : UInt64) (value : Bytes) (ttlSecs : UInt64) :
    (Crates.storeReq.encode (storeReqOf (Store.immutableRecord now value ttlSecs))).length
      = storeReqSize value ttlSecs := by
  set r := Store.immutableRecord now value ttlSecs with hr
  have hlen : r.encode.length = 34 + bytesSize value + uintSize ttlSecs.toNat := by
    rw [StoredRecord.encode, hcodec.recordLength, hr, length_recordWire_immutable]
  have hne : r.encode ≠ [] := by
    intro hnil
    rw [hnil, List.length_nil] at hlen
    omega
  rw [hcodec.storeReqLength]
  show (Protobuf.encode (bytesField 1 r.encode ++ bytesField 2 [] ++ bytesField 3 [])).length = _
  rw [encode_append, encode_append, List.length_append, List.length_append,
    length_encode_bytesField (show 1 < 16 by decide), if_neg hne, hlen]
  rfl

omit [Crates] in
theorem length_le_of_storeReqSize {value : Bytes} {ttlSecs : UInt64}
    (h : headerLen + storeReqSize value ttlSecs ≤ pmtuFloor) : value.length ≤ pmtuFloor := by
  have hvalue : value.length ≤ bytesSize value := by
    rw [bytesSize]
    split_ifs with hnil
    · rw [hnil, List.length_nil]
    · rw [fieldLen]
      omega
  rw [storeReqSize, fieldLen] at h
  omega

/-! ## The loop over the peers -/

namespace ShardNet

variable {pkt : UInt32 → Option Bytes}

/-- The call hands over the packet of some correlation id, to the peer's address and under its
key. -/
def HandedTo (pkt : UInt32 → Option Bytes) (p : PeerInfo) (call : SendCall) : Prop :=
  p.primaryAddr = some call.dest ∧ call.x25519 = p.x25519 ∧ ∃ corr, pkt corr = some call.app

theorem sendToAll_cons_of_noAddr {p : PeerInfo} (h : p.primaryAddr = none) (peers : List PeerInfo)
    (n : ShardNet) : n.sendToAll (p :: peers) pkt = n.sendToAll peers pkt := by
  rw [sendToAll, List.foldl_cons, h]
  rfl

theorem sendToAll_cons {p : PeerInfo} {dest : SocketAddr} (h : p.primaryAddr = some dest)
    (peers : List PeerInfo) (n : ShardNet) :
    n.sendToAll (p :: peers) pkt =
      (n.nextCorr.2.sendMessage dest p.x25519 (pkt n.nextCorr.1)).sendToAll peers pkt := by
  rw [sendToAll, List.foldl_cons, h]
  rfl

theorem sendToAll_cons_of_some {p : PeerInfo} {dest : SocketAddr} {n : ShardNet} {app : Bytes}
    (h : p.primaryAddr = some dest) (happ : pkt n.nextCorr.1 = some app) (peers : List PeerInfo) :
    n.sendToAll (p :: peers) pkt
      = (n.nextCorr.2.sendApp dest p.x25519 app).sendToAll peers pkt := by
  rw [sendToAll_cons h, happ, sendMessage]

theorem sendToAll_of_none (h : ∀ corr, pkt corr = none) (peers : List PeerInfo) (n : ShardNet) :
    (n.sendToAll peers pkt).calls = n.calls ∧ (n.sendToAll peers pkt).sent = n.sent := by
  induction peers generalizing n with
  | nil => exact ⟨rfl, rfl⟩
  | cons p peers ih =>
    rcases hdest : p.primaryAddr with _ | dest
    · rw [sendToAll_cons_of_noAddr hdest]
      exact ih n
    · rw [sendToAll_cons hdest, h, sendMessage]
      exact ih n.nextCorr.2

theorem sent_sendToAll_le (pkt : UInt32 → Option Bytes) (peers : List PeerInfo) (n : ShardNet) :
    ∃ out, (n.sendToAll peers pkt).sent = n.sent ++ out ∧ out.length ≤ peers.length := by
  induction peers generalizing n with
  | nil => exact ⟨[], (List.append_nil _).symm, le_rfl⟩
  | cons p peers ih =>
    rcases hdest : p.primaryAddr with _ | dest
    · obtain ⟨out, hout, hle⟩ := ih n
      rw [sendToAll_cons_of_noAddr hdest]
      exact ⟨out, hout, Nat.le_succ_of_le hle⟩
    rw [sendToAll_cons hdest]
    rcases pkt n.nextCorr.1 with _ | app
    · obtain ⟨out, hout, hle⟩ := ih n.nextCorr.2
      exact ⟨out, hout, Nat.le_succ_of_le hle⟩
    · obtain ⟨l, hl, hone⟩ := sent_sendApp_le_one n.nextCorr.2 dest p.x25519 app
      obtain ⟨out, hout, hle⟩ := ih (n.nextCorr.2.sendApp dest p.x25519 app)
      refine ⟨l ++ out, ?_, ?_⟩
      · rw [sendMessage, hout, hl, List.append_assoc]
        rfl
      · rw [List.length_append, List.length_cons]
        omega

/-- The way to the `j`-th peer is open when the loop comes to it. -/
def Reached (n : ShardNet) (pkt : UInt32 → Option Bytes) (len : ℕ) (peers : List PeerInfo) (j : ℕ)
    (p : PeerInfo) : Prop :=
  ∃ dest, p.primaryAddr = some dest ∧ n.Fits dest len ∧
    ∀ app, pkt (n.sendToAll (peers.take j) pkt).nextCorrId = some app →
      (n.sendToAll (peers.take j) pkt).Seals dest p.x25519 app

section

variable {law : Ciphers} {app : UInt32 → Bytes} {len : ℕ}

/-- A packet that is always made goes out once for each peer if the way to each of them is
open. -/
theorem sendToAll_of_reached (law : Ciphers) (hrelay : Crates.relay.SameLength Proto.relayWire)
    (happ : ∀ corr, pkt corr = some (app corr)) (hlen : ∀ corr, (app corr).length = len)
    {peers : List PeerInfo} {n : ShardNet}
    (h : ∀ j p, peers[j]? = some p → n.Reached pkt len peers j p) :
    ∃ new out, (n.sendToAll peers pkt).calls = n.calls ++ new ∧
      (n.sendToAll peers pkt).sent = n.sent ++ out ∧
      List.Forall₂ (HandedTo pkt) peers new ∧ List.Forall₂ (law.Conveys n) new out := by
  induction peers generalizing n with
  | nil =>
    exact ⟨[], [], (List.append_nil _).symm, (List.append_nil _).symm, .nil, .nil⟩
  | cons p peers ih =>
    obtain ⟨dest, hdest, hfits, hseals⟩ := h 0 p rfl
    set n' := n.nextCorr.2.sendApp dest p.x25519 (app n.nextCorr.1) with hn'
    have hsends : Sends n n' := (Sends.nextCorr n).trans (Sends.sendApp _ _ _ _)
    have hcons (ps : List PeerInfo) : n.sendToAll (p :: ps) pkt = n'.sendToAll ps pkt :=
      sendToAll_cons_of_some hdest (happ _) ps
    have hconveyed : n.nextCorr.2.Conveyed law dest p.x25519 (app n.nextCorr.1) := by
      rw [conveyed_iff hrelay, hlen]
      exact ⟨hfits.of_knowledge rfl, hseals _ (happ _)⟩
    obtain ⟨s, hs, hconveys⟩ := hconveyed
    obtain ⟨new, out, hcalls, hout, hnew, hall⟩ := ih (n := n') fun j q hq ↦ by
      obtain ⟨dest', hdest', hfits', hseals'⟩ := h (j + 1) q hq
      refine ⟨dest', hdest', hfits'.of_knowledge hsends.knowledge, ?_⟩
      rw [← hcons]
      exact hseals'
    refine ⟨n.nextCorr.2.callEntry dest p.x25519 (app n.nextCorr.1) :: new, s :: out, ?_, ?_,
      .cons ⟨hdest, rfl, n.nextCorr.1, happ _⟩ hnew,
      .cons (hconveys.of_knowledge rfl)
        (hall.imp fun _ _ hc ↦ hc.of_knowledge hsends.knowledge.symm)⟩
    · rw [hcons, hcalls, hn', calls_sendApp, List.append_assoc]
      rfl
    · rw [hcons, hout, hn', hs, List.append_assoc]
      rfl

theorem calls_of_sendToAll {n : ShardNet} {dest : SocketAddr} {x25519 : Option Bytes32}
    {app : Bytes} {peers : List PeerInfo} {call : SendCall} {new : List SendCall}
    (h : ((n.sendApp dest x25519 app).sendToAll peers pkt).calls = n.calls ++ call :: new) :
    n.callEntry dest x25519 app = call ∧
      ((n.sendApp dest x25519 app).sendToAll peers pkt).calls
        = (n.sendApp dest x25519 app).calls ++ new := by
  obtain ⟨rest, hrest⟩ := (Sends.sendToAll (n.sendApp dest x25519 app) peers pkt).calls
  have hentry : n.callEntry dest x25519 app :: rest = call :: new := by
    rw [← hrest, calls_sendApp, List.append_assoc] at h
    exact List.append_cancel_left h
  obtain ⟨hcall, rfl⟩ := List.cons.inj hentry
  exact ⟨hcall, hrest.symm⟩

-- A call puts at most one datagram on the wire, so with one for each peer the first call has put
-- one there.
theorem sent_of_sendToAll {n : ShardNet} {dest : SocketAddr} {x25519 : Option Bytes32}
    {app : Bytes} {peers : List PeerInfo} {s : Sent} {out : List Sent}
    (h : ((n.sendApp dest x25519 app).sendToAll peers pkt).sent = n.sent ++ s :: out)
    (hlength : peers.length = out.length) :
    (n.sendApp dest x25519 app).sent = n.sent ++ [s] ∧
      ((n.sendApp dest x25519 app).sendToAll peers pkt).sent
        = (n.sendApp dest x25519 app).sent ++ out := by
  obtain ⟨first, hfirst, hone⟩ := sent_sendApp_le_one n dest x25519 app
  obtain ⟨later, hlater, hle⟩ := sent_sendToAll_le pkt peers (n.sendApp dest x25519 app)
  have hsplit : first ++ later = s :: out := by
    rw [hlater, hfirst, List.append_assoc] at h
    exact List.append_cancel_left h
  obtain ⟨rfl, rfl⟩ : first = [s] ∧ later = out := by
    have hsum := congrArg List.length hsplit
    rw [List.length_append, List.length_cons] at hsum
    refine List.append_inj (hsplit.trans (List.singleton_append).symm) ?_
    rw [List.length_singleton]
    omega
  exact ⟨hfirst, hlater⟩

theorem reached_of_sendToAll (hrelay : Crates.relay.SameLength Proto.relayWire)
    (happ : ∀ corr, pkt corr = some (app corr)) (hlen : ∀ corr, (app corr).length = len)
    {R : PeerInfo → SendCall → Prop} (hR : ∀ p call, R p call → p.primaryAddr = some call.dest)
    {peers : List PeerInfo} {n : ShardNet} {new : List SendCall} {out : List Sent}
    (hcalls : (n.sendToAll peers pkt).calls = n.calls ++ new)
    (hout : (n.sendToAll peers pkt).sent = n.sent ++ out)
    (hnew : List.Forall₂ R peers new) (hall : List.Forall₂ (law.Conveys n) new out) :
    ∀ j p, peers[j]? = some p → n.Reached pkt len peers j p := by
  induction hnew generalizing n out with
  | nil =>
    intro j p hp
    cases hp
  | cons hp hrest ih =>
    rename_i p call peers new
    obtain ⟨s, out, hconveys, hothers, rfl⟩ := List.forall₂_cons_left_iff.mp hall
    have hdest := hR p call hp
    set n' := n.nextCorr.2.sendApp call.dest p.x25519 (app n.nextCorr.1) with hn'
    have hsends : Sends n n' := (Sends.nextCorr n).trans (Sends.sendApp _ _ _ _)
    have hcons (ps : List PeerInfo) : n.sendToAll (p :: ps) pkt = n'.sendToAll ps pkt :=
      sendToAll_cons_of_some hdest (happ _) ps
    rw [hcons] at hcalls hout
    obtain ⟨hcall, hcalls'⟩ := calls_of_sendToAll (n := n.nextCorr.2) hcalls
    obtain ⟨hfirst, hlater⟩ := sent_of_sendToAll (n := n.nextCorr.2) hout
      (hrest.length_eq.trans hothers.length_eq)
    have hconveyed : n.nextCorr.2.Conveyed law call.dest p.x25519 (app n.nextCorr.1) := by
      refine ⟨s, hfirst, ?_⟩
      rw [hcall]
      exact hconveys.of_knowledge rfl
    rw [conveyed_iff hrelay, hlen] at hconveyed
    intro j q hq
    rcases j with _ | j
    · obtain rfl : p = q := Option.some.inj hq
      refine ⟨call.dest, hdest, hconveyed.1.of_knowledge rfl, fun a ha ↦ ?_⟩
      obtain rfl := Option.some.inj ((happ _).symm.trans ha)
      exact hconveyed.2
    · obtain ⟨dest', hdest', hfits', hseals'⟩ := ih hcalls' hlater
        (hothers.imp fun _ _ hc ↦ hc.of_knowledge hsends.knowledge) j q hq
      refine ⟨dest', hdest', hfits'.of_knowledge hsends.knowledge.symm, ?_⟩
      rw [List.take_succ_cons, hcons]
      exact hseals'

end

end ShardNet

/-! ## Requests that are taken -/

/-- The call hands over a STORE request for the value that fits in a datagram, to the peer's address
and under its key. Whatever a store holds, it takes the record that the request is decoded to. -/
structure Replica (value : Bytes) (p : PeerInfo) (call : SendCall) : Prop where
  dest : p.primaryAddr = some call.dest
  key : call.x25519 = p.x25519
  request : ∃ corr, Header.decode call.app = some (Header.request .storeReq .coordination corr)
  short : call.app.length ≤ pmtuFloor
  taken : ∃ req, decodeBody Crates.storeReq call.app = some req ∧
    ∀ now, ∃ rec, ShardCtx.storedRecordOf now req = .ok rec ∧ rec.value = value ∧
      ∀ s : Store, (s.putRecord rec false).1 = .ok ()

/-- The packet of a STORE request. -/
def storeReqPacket (r : StoredRecord) (corr : UInt32) : Option Bytes :=
  message Crates.storeReq (Header.request .storeReq .coordination corr) (storeReqOf r)

theorem storedRecordOf_storeReqOf (hcodec : StoreCodec) (r : StoredRecord) (now : UInt64) :
    ShardCtx.storedRecordOf now (storeReqOf r) = .ok { r.received now with
      ttlSecs := if r.ttlSecs = 0 then mutableTtlSecs else r.ttlSecs } := by
  have hdecode : Crates.record.decode (storeReqOf r).record = some r.toProto :=
    hcodec.record r.toProto
  rw [ShardCtx.storedRecordOf, hdecode]
  simp only
  rw [recordFromProto_toProto]
  rfl

theorem replica_of_handedTo (hcodec : StoreCodec) {now : UInt64} {value : Bytes} {ttlSecs : UInt64}
    (hlen : value.length ≤ 64 * 1024) {p : PeerInfo} {call : SendCall}
    (h : ShardNet.HandedTo (storeReqPacket (Store.immutableRecord now value ttlSecs)) p call) :
    Replica value p call := by
  obtain ⟨hdest, hkey, corr, hpkt⟩ := h
  refine ⟨hdest, hkey, ⟨corr, decode_of_message rfl hpkt⟩, length_le_of_message hpkt, _,
    decodeBody_of_message hcodec.storeReq hpkt, fun now' ↦
      ⟨_, storedRecordOf_storeReqOf hcodec _ now', rfl, fun s ↦ ?_⟩⟩
  rw [Store.putRecord_fst]
  exact Store.validate_eq_ok_iff.mpr ⟨hlen, Or.inl ⟨rfl, rfl⟩⟩

/-! ## Puts -/

namespace ShardCtx

variable {c : ShardCtx} {value : Bytes} {ttlSecs : UInt64} {tx : Chan}

/-- Between `c` and `c'` one replica of the value is handed over for each of the peers closest to
its key, each of them goes out in one datagram, and nothing else does. -/
def Replicated (law : Ciphers) (c c' : ShardCtx) (value : Bytes) : Prop :=
  ∃ new out, c'.calls = c.calls ++ new ∧ c'.sent = c.sent ++ out ∧
    List.Forall₂ (Replica value) (c.table.closest (hashValue value) kDefault) new ∧
    List.Forall₂ (law.Conveys c.toShardNet) new out

/-- A put that hands over nothing replicates its value only where there are no peers. -/
theorem replicated_iff_of_quiet {law : Ciphers} {c' : ShardCtx} (hcalls : c'.calls = c.calls)
    (hsent : c'.sent = c.sent) {q : ℕ → PeerInfo → Prop} (hq : ∀ j p, ¬q j p) :
    c.Replicated law c' value ↔
      ∀ j p, (c.table.closest (hashValue value) kDefault)[j]? = some p → q j p := by
  constructor
  · rintro ⟨new, out, hnew, -, hpeers, -⟩ j p hp
    rw [hcalls, List.self_eq_append_right] at hnew
    rw [hnew, List.forall₂_nil_right_iff] at hpeers
    rw [hpeers] at hp
    cases hp
  · intro h
    have hnone : c.table.closest (hashValue value) kDefault = [] := by
      rcases hpeers : c.table.closest (hashValue value) kDefault with _ | ⟨p, ps⟩
      · rfl
      · exact absurd (h 0 p (by rw [hpeers]; rfl)) (hq 0 p)
    rw [Replicated, hnone]
    exact ⟨[], [], by rw [hcalls, List.append_nil], by rw [hsent, List.append_nil], .nil, .nil⟩

theorem storeReqPacket_eq (hcodec : StoreCodec) (now : UInt64) (value : Bytes) (ttlSecs : UInt64)
    (corr : UInt32) :
    storeReqPacket (Store.immutableRecord now value ttlSecs) corr =
      if headerLen + storeReqSize value ttlSecs ≤ pmtuFloor then
        some ((Header.request .storeReq .coordination corr).bytes
          ++ Crates.storeReq.encode (storeReqOf (Store.immutableRecord now value ttlSecs)))
      else none := by
  rw [storeReqPacket, message_eq, length_storeReq hcodec]

theorem replicated_iff_of_fits (hcodec : StoreCodec) {law : Ciphers} {c' : ShardCtx}
    (hnet : c'.toShardNet = c.toShardNet.sendToAll (c.table.closest (hashValue value) kDefault)
      (storeReqPacket (Store.immutableRecord c.env.unix value ttlSecs)))
    (hfits : headerLen + storeReqSize value ttlSecs ≤ pmtuFloor) :
    c.Replicated law c' value ↔
      ∀ j p, (c.table.closest (hashValue value) kDefault)[j]? = some p →
        c.Reached (storeReqPacket (Store.immutableRecord c.env.unix value ttlSecs))
          (headerLen + storeReqSize value ttlSecs) (c.table.closest (hashValue value) kDefault)
          j p := by
  have hpacket : ∀ corr, storeReqPacket (Store.immutableRecord c.env.unix value ttlSecs) corr
      = some ((Header.request .storeReq .coordination corr).bytes
        ++ Crates.storeReq.encode
          (storeReqOf (Store.immutableRecord c.env.unix value ttlSecs))) := by
    intro corr
    rw [storeReqPacket_eq hcodec, if_pos hfits]
  have hlen : ∀ corr, ((Header.request .storeReq .coordination corr).bytes
      ++ Crates.storeReq.encode
        (storeReqOf (Store.immutableRecord c.env.unix value ttlSecs))).length
      = headerLen + storeReqSize value ttlSecs := by
    intro corr
    rw [List.length_append, Header.length_bytes, length_storeReq hcodec]
  rw [Replicated, hnet]
  constructor
  · rintro ⟨new, out, hcalls, hout, hnew, hall⟩
    exact ShardNet.reached_of_sendToAll hcodec.relayLength hpacket hlen
      (fun _ _ hr ↦ hr.dest) hcalls hout hnew hall
  · intro h
    have hvalue : value.length ≤ 64 * 1024 :=
      (length_le_of_storeReqSize hfits).trans (by decide)
    obtain ⟨new, out, hcalls, hout, hnew, hall⟩ :=
      ShardNet.sendToAll_of_reached law hcodec.relayLength hpacket hlen h
    exact ⟨new, out, hcalls, hout, hnew.imp fun _ _ ↦ replica_of_handedTo hcodec hvalue, hall⟩

theorem net_handlePut_of_splits (c : ShardCtx) (ttlSecs : UInt64) (tx : Chan)
    (h : Erasure.Splits value) :
    (c.handlePut value ttlSecs tx).toShardNet = c.toShardNet := by
  rw [handlePut_of_splits h]
  rfl

theorem net_handlePut_of_large (c : ShardCtx) (ttlSecs : UInt64) (tx : Chan)
    (h : ¬Erasure.Splits value) (hlen : value.length > pmtuFloor * 64) :
    (c.handlePut value ttlSecs tx).toShardNet = c.toShardNet := by
  rw [handlePut_of_not_splits h, putPlain, Store.putImmutableTtl, if_pos hlen]
  rfl

theorem net_handlePut (c : ShardCtx) (ttlSecs : UInt64) (tx : Chan)
    (h : ¬Erasure.Splits value) (hlen : ¬value.length > pmtuFloor * 64) :
    (c.handlePut value ttlSecs tx).toShardNet =
      c.toShardNet.sendToAll (c.table.closest (hashValue value) kDefault)
        (storeReqPacket (Store.immutableRecord c.env.unix value ttlSecs)) := by
  rw [handlePut_of_not_splits h, putPlain, Store.putImmutableTtl, if_neg hlen]
  rfl

theorem replicated_handlePut_iff (hcodec : StoreCodec) {law : Ciphers} :
    c.Replicated law (c.handlePut value ttlSecs tx) value ↔
      ∀ j p, (c.table.closest (hashValue value) kDefault)[j]? = some p → ¬Erasure.Splits value ∧
        c.Reached (storeReqPacket (Store.immutableRecord c.env.unix value ttlSecs))
          (headerLen + storeReqSize value ttlSecs) (c.table.closest (hashValue value) kDefault)
          j p := by
  have hfits : ∀ {j p}, c.Reached (storeReqPacket (Store.immutableRecord c.env.unix value ttlSecs))
      (headerLen + storeReqSize value ttlSecs) (c.table.closest (hashValue value) kDefault) j p →
      headerLen + storeReqSize value ttlSecs ≤ pmtuFloor := fun ⟨_, _, hfits, _⟩ ↦ hfits.datagram
  by_cases hsplits : Erasure.Splits value
  · have hnet := net_handlePut_of_splits c ttlSecs tx hsplits
    exact replicated_iff_of_quiet (congrArg ShardNet.calls hnet) (congrArg ShardNet.sent hnet)
      fun _ _ h ↦ h.1 hsplits
  by_cases hlarge : value.length > pmtuFloor * 64
  · have hnet := net_handlePut_of_large c ttlSecs tx hsplits hlarge
    refine replicated_iff_of_quiet (congrArg ShardNet.calls hnet) (congrArg ShardNet.sent hnet)
      fun _ _ h ↦ ?_
    have hle := length_le_of_storeReqSize (hfits h.2)
    omega
  have hnet := net_handlePut c ttlSecs tx hsplits hlarge
  by_cases hfit : headerLen + storeReqSize value ttlSecs ≤ pmtuFloor
  · rw [replicated_iff_of_fits hcodec hnet hfit]
    simp only [hsplits, not_false_eq_true, true_and]
  · have hnone : ∀ corr,
        storeReqPacket (Store.immutableRecord c.env.unix value ttlSecs) corr = none := by
      intro corr
      rw [storeReqPacket_eq hcodec, if_neg hfit]
    obtain ⟨hcalls, hsent⟩ := ShardNet.sendToAll_of_none hnone
      (c.table.closest (hashValue value) kDefault) c.toShardNet
    rw [← hnet] at hcalls hsent
    exact replicated_iff_of_quiet hcalls hsent fun _ _ h ↦ hfit (hfits h.2)

end ShardCtx

omit [Crates] in
theorem RoutingTable.length_closest (t : RoutingTable) (target : Key) :
    (t.closest target kDefault).length = min 20 t.allPeers.length := by
  rw [closest, List.length_take, List.length_insertionSort, List.length_map]
  rfl

end

section

open Sample

attribute [local instance] wireCrates

private theorem sampleStoreCodec : StoreCodec :=
  ⟨Proto.roundTrips_storeReqWire, Proto.roundTrips_recordWire, fun _ ↦ rfl, fun _ ↦ rfl,
    fun _ ↦ rfl⟩

/-- A shard that knows one peer. -/
private def pairedRun : ShardRun where
  start := shardStart ⟨true, false, false⟩
  events := [⟨noon, .command (.injectPeer (.new ⟨Bytes32.fill 5⟩ (.ofV4 10 0 0 9 9000)))⟩]

private def paired : ShardCtx := pairedRun.final.ctxAt noon

end

end Molia
