import Molia.Core.Crypto

/-!
# The WireGuard engine of a shard

A table of tunnels, found by the peer's X25519 key or by a session index whose high byte is the
shard. The tunnel itself is foreign: `Tunn` and its methods come from `Crates`. A packet that the
source writes into a scratch buffer is returned here as the bytes written; only the keepalive tick
keeps the buffer, because there one buffer serves all sessions.
-/

namespace Molia

/-! ## Packet forms -/

def wgTypeInitiation : UInt32 := 1
def wgTypeResponse : UInt32 := 2
def wgTypeCookie : UInt32 := 3
def wgTypeData : UInt32 := 4

structure WgHeader where
  ty : UInt32
  receiverIndex : UInt32
deriving DecidableEq

def parseWgHeader (buf : Bytes) : Option WgHeader :=
  if buf.length < 8 then none
  else
    let ty := u32FromLe buf
    if 1 ≤ ty ∧ ty ≤ 4 then some ⟨ty, u32FromLe (buf.drop 4)⟩ else none

def looksLikeWg (buf : Bytes) : Bool := (parseWgHeader buf).isSome

/-- The big-endian bytes of a length cast to `u16`. -/
def u16ToBe (n : ℕ) : Bytes := [UInt8.ofNat (n / 256), UInt8.ofNat n]

/-- An IPv4 and a UDP header around a message: the tunnel only carries IP packets. -/
def wrapRpc (rpc : Bytes) : Bytes :=
  let ip := [0x45, 0] ++ u16ToBe (20 + 8 + rpc.length) ++ [0, 0, 0, 0, 64, 17, 0, 0]
    ++ [10, 0, 0, 1] ++ [10, 0, 0, 2]
  let udp := u16ToBe 1 ++ u16ToBe 1 ++ u16ToBe (8 + rpc.length) ++ [0, 0]
  ip ++ udp ++ rpc

def unwrapRpc (inner : Bytes) : Bytes :=
  if inner.length ≥ 28 ∧ inner.headD 0 = 0x45 then inner.drop 28 else inner

theorem length_wrapRpc (rpc : Bytes) : (wrapRpc rpc).length = 28 + rpc.length := by
  rw [wrapRpc, List.length_append]
  rfl

@[simp] theorem unwrapRpc_wrapRpc (rpc : Bytes) : unwrapRpc (wrapRpc rpc) = rpc := by
  have hlen : (wrapRpc rpc).length ≥ 28 := by
    rw [length_wrapRpc]
    exact Nat.le_add_right 28 _
  exact if_pos ⟨hlen, rfl⟩

theorem wrapRpc_injective : Function.Injective wrapRpc :=
  Function.LeftInverse.injective unwrapRpc_wrapRpc

theorem wrapRpc_ne_nil (rpc : Bytes) : wrapRpc rpc ≠ [] := by
  simp [wrapRpc]

/-- The high 8 bits of a session index are the shard. -/
def encodeReceiverIndex (shardId : UInt8) (idx : UInt32) : UInt32 :=
  (shardId.toUInt32 <<< 24) ||| (idx &&& 0x00FFFFFF)

def shardFromReceiverIndex (index : UInt32) : UInt8 := (index >>> 24).toUInt8

/-- The shard a datagram belongs to: that of its receiver index for a data packet, else one chosen
from the source address. -/
def demuxShard (buf : Bytes) (src : SocketAddr) (shardCount : UInt32) : UInt32 :=
  let bySource :=
    let ip := match src.ip with
      | .v4 a b c d => u32FromBe [a, b, c, d]
      | .v6 _ => src.port.toUInt32
    (ip ^^^ src.port.toUInt32) % shardCount
  if shardCount ≤ 1 then 0
  else
    match parseWgHeader buf with
    | some h =>
      if h.ty = wgTypeData then (shardFromReceiverIndex h.receiverIndex).toUInt32 % shardCount
      else bySource
    | none => bySource

/-! ## Sessions -/

variable [Crates]

open Crates

structure Session where
  tunn : Tunn
  peerId : Option NodeId
  endpoint : Option SocketAddr
  x25519 : Bytes32

structure WgEngine where
  secret : Bytes32
  shardId : UInt8
  nextLocal : UInt32
  sessions : HashMap UInt32 Session
  byX25519 : HashMap Bytes32 UInt32
  powNonce : Bytes
  powBits : UInt8

/-- What a received packet turned out to be. -/
inductive Decap where
  | plaintext (inner : Bytes)
  | network (pkt : Bytes)
  | cookie (c : Bytes)
  | drop
deriving DecidableEq

def driveDecap (tunn : Tunn) (now : ℕ) (src : IpAddr) (datagram : Bytes) : Decap × Tunn :=
  match tunnDecapsulate tunn now src datagram with
  | (.writeToNetwork pkt, t) => (.network pkt, t)
  | (.writeToTunnelV4 inner, t) => (.plaintext inner, t)
  | (.writeToTunnelV6 inner, t) => (.plaintext inner, t)
  | (.done, t) => (.drop, t)
  | (.err, t) => (.drop, t)

namespace WgEngine

def new (secret : Bytes32) (shardId : UInt8) : WgEngine where
  secret := secret
  shardId := shardId
  nextLocal := 1
  sessions := ∅
  byX25519 := ∅
  powNonce := List.replicate 16 0x11
  powBits := 0

def addPeer (w : WgEngine) (peer : Bytes32) (peerId : Option NodeId)
    (endpoint : Option SocketAddr) : WgEngine :=
  match w.byX25519.lookup peer with
  | some _ => w
  | none =>
    let index := encodeReceiverIndex w.shardId w.nextLocal
    { w with
      nextLocal := w.nextLocal + 1
      byX25519 := w.byX25519.insert peer index
      sessions := w.sessions.insert index
        { tunn := tunnNew w.secret peer index, peerId, endpoint, x25519 := peer } }

def setSession (w : WgEngine) (idx : UInt32) (f : Session → Session) : WgEngine :=
  { w with sessions := w.sessions.modify idx f }

/-- Initiation: type, sender index, ephemeral key. -/
def checkInitiationPow (w : WgEngine) (datagram : Bytes) : Bool :=
  if w.powBits = 0 then true
  else
    match Bytes32.ofBytes ((datagram.drop 8).take 32) with
    | none => false
    | some e => verifyEphemeralPow e w.powNonce w.powBits

/-- The nonce and the difficulty, for the client to solve. -/
def cookieReply (w : WgEngine) : Bytes := w.powNonce ++ [w.powBits]

/-- Offer a packet to the sessions in turn until one does not drop it; `move` says whether that
session's endpoint moves to the source. -/
def offer (now : ℕ) (src : SocketAddr) (datagram : Bytes) (accepts : Session → Bool) (move : Bool) :
    List UInt32 → WgEngine → Decap × WgEngine
  | [], w => (.drop, w)
  | idx :: rest, w =>
    match w.sessions.lookup idx with
    | none => offer now src datagram accepts move rest w
    | some sess =>
      if accepts sess then
        let (r, t) := driveDecap sess.tunn now src.ip datagram
        let w := w.setSession idx fun s ↦ { s with tunn := t }
        if r = .drop then offer now src datagram accepts move rest w
        else (r, if move then w.setSession idx fun s ↦ { s with endpoint := some src } else w)
      else offer now src datagram accepts move rest w

/-- What an idle tunnel towards `src` still has to send or deliver. -/
def drainSession (w : WgEngine) (now : ℕ) (src : SocketAddr) : Decap × WgEngine :=
  offer now src [] (fun s ↦ s.endpoint = some src) false w.sessions.keys w

def decapsulate (w : WgEngine) (now : ℕ) (src : SocketAddr) (datagram : Bytes) :
    Decap × WgEngine :=
  if datagram = [] then w.drainSession now src
  else
    match parseWgHeader datagram with
    | none => (.drop, w)
    | some hdr =>
      if hdr.ty = wgTypeInitiation ∧ w.checkInitiationPow datagram = false then
        (.cookie w.cookieReply, w)
      else
        let direct := hdr.ty = wgTypeData ∨ hdr.ty = wgTypeResponse ∨ hdr.ty = wgTypeCookie
        match (if direct then w.sessions.lookup hdr.receiverIndex else none) with
        | some sess =>
          let (r, t) := driveDecap sess.tunn now src.ip datagram
          (r, w.setSession hdr.receiverIndex fun s ↦ { s with tunn := t, endpoint := some src })
        | none => offer now src datagram (fun _ ↦ true) true w.sessions.keys w

/-- The packet for `dest`, through the tunnel of `peer`, which is made if there is none. -/
def encapsulateTo (w : WgEngine) (now : ℕ) (dest : SocketAddr) (peer : Bytes32)
    (peerId : Option NodeId) (plaintext : Bytes) : Option Bytes × WgEngine :=
  let w := w.addPeer peer peerId (some dest)
  match w.byX25519.lookup peer with
  | none => (none, w)
  | some idx =>
    match w.sessions.lookup idx with
    | none => (none, w)
    | some sess =>
      let (r, t) := tunnEncapsulate sess.tunn now plaintext
      let w := w.setSession idx fun s ↦ { s with tunn := t, endpoint := some dest }
      match r with
      | .writeToNetwork pkt => (some pkt, w)
      | _ => (none, w)

/-- Write a packet at the start of a buffer. -/
def overwrite (pkt out : Bytes) : Bytes := pkt ++ out.drop pkt.length

/-- The timers of the sessions in turn, all writing into the one buffer. -/
def tickSessions (now : ℕ) :
    List UInt32 → WgEngine × Bytes × List (ℕ × SocketAddr) →
      WgEngine × Bytes × List (ℕ × SocketAddr)
  | [], acc => acc
  | idx :: rest, (w, out, pkts) =>
    match w.sessions.lookup idx with
    | none => tickSessions now rest (w, out, pkts)
    | some sess =>
      match sess.endpoint with
      | none => tickSessions now rest (w, out, pkts)
      | some dest =>
        let (r, t) := tunnUpdateTimers sess.tunn now
        let w := w.setSession idx fun s ↦ { s with tunn := t }
        match r with
        | .writeToNetwork pkt =>
          tickSessions now rest (w, overwrite pkt out, pkts ++ [(pkt.length, dest)])
        | _ => tickSessions now rest (w, out, pkts)

/-- The lengths and destinations of the keepalives, and the buffer they were written into. -/
def tickKeepalive (w : WgEngine) (now : ℕ) (out : Bytes) :
    WgEngine × Bytes × List (ℕ × SocketAddr) :=
  tickSessions now w.sessions.keys (w, out, [])

end WgEngine

end Molia
