import Mathlib.Data.List.Basic
import Molia.General.HashMap

/-!
# Identifiers, addresses and shard selection

The 256-bit identifier space: node ids and record keys are 32-byte arrays, compared as big-endian
integers after an exclusive or. The byte array carries its length, so that a value of `NodeId` or
`Key` of any other length cannot be built; `fromBytes` is the only way in from the wire.

Fixed-capacity vectors are lists whose `tryPush` drops the element when the vector is full.
-/

namespace Molia

/-- A byte string. -/
abbrev Bytes := List UInt8

/-! ## Constants -/

def kDefault : ℕ := 20
def kMax : ℕ := 32
def alphaDefault : ℕ := 4
def alphaMin : ℕ := 3
def alphaMax : ℕ := 8
def protocolVersion : UInt8 := 1
def pmtuFloor : ℕ := 1200
def headerLen : ℕ := 12
def maxFindNodePeers : ℕ := 16
def maxProvidersPerChunk : ℕ := 32
def maxCloserPeers : ℕ := 8

/-! ## Byte arrays of fixed length -/

/-- A `[u8; 32]`. -/
structure Bytes32 where
  /-- The bytes, most significant first. -/
  val : Bytes
  /-- The length of the array. -/
  length_val : val.length = 32
deriving DecidableEq

namespace Bytes32

/-- The `try_into` of a slice into an array. -/
def ofBytes (b : Bytes) : Option Bytes32 :=
  if h : b.length = 32 then some ⟨b, h⟩ else none

/-- The array that repeats one byte, as in `[0; 32]`. -/
def fill (b : UInt8) : Bytes32 := ⟨List.replicate 32 b, List.length_replicate⟩

instance : Inhabited Bytes32 := ⟨fill 0⟩

theorem ofBytes_eq_some_iff {b : Bytes} {a : Bytes32} : ofBytes b = some a ↔ b = a.val := by
  rw [ofBytes]
  constructor
  · intro h
    split at h
    · cases h
      rfl
    · cases h
  · rintro rfl
    rw [dif_pos a.length_val]

@[simp] theorem ofBytes_val (a : Bytes32) : ofBytes a.val = some a :=
  ofBytes_eq_some_iff.mpr rfl

end Bytes32

/-- A node identifier. -/
structure NodeId where
  val : Bytes32
deriving DecidableEq

/-- A record key. -/
structure Key where
  val : Bytes32
deriving DecidableEq

namespace NodeId

def fromBytes (b : Bytes) : Option NodeId := (Bytes32.ofBytes b).map NodeId.mk

/-- The all-zero id the handlers use for an unknown sender. -/
def zero : NodeId := ⟨Bytes32.fill 0⟩

@[simp] theorem fromBytes_val (id : NodeId) : fromBytes id.val.val = some id := by
  rw [fromBytes, Bytes32.ofBytes_val]
  rfl

end NodeId

namespace Key

def fromBytes (b : Bytes) : Option Key := (Bytes32.ofBytes b).map Key.mk

@[simp] theorem fromBytes_val (k : Key) : fromBytes k.val.val = some k := by
  rw [fromBytes, Bytes32.ofBytes_val]
  rfl

end Key

/-! ## The XOR metric -/

/-- The distance `a ⊕ b`, read as a 256-bit big-endian integer by the byte order on lists. -/
def xorDistance (a b : Bytes32) : Bytes32 where
  val := List.zipWith (· ^^^ ·) a.val b.val
  length_val := by rw [List.length_zipWith, a.length_val, b.length_val, min_self]

/-- The leading zero bits of one byte. -/
def leadingZeros8 (b : UInt8) : ℕ := if b = 0 then 8 else 7 - Nat.log2 b.toNat

/-- The loop of `leading_zeros_256`: whole zero bytes, then the zeros of the first other byte. -/
def leadingZerosLoop : Bytes → ℕ → ℕ
  | [], n => n
  | b :: bs, n => if b = 0 then leadingZerosLoop bs (n + 8) else n + leadingZeros8 b

def leadingZeros256 (d : Bytes32) : ℕ := min (leadingZerosLoop d.val 0) 256

/-- The bucket of `other` in the table of `self`: the position of the highest differing bit. -/
def bucketIndex (selfId other : NodeId) : ℕ :=
  let lz := leadingZeros256 (xorDistance selfId.val other.val)
  if lz ≥ 256 then 0 else 255 - lz

/-- A `u32::from_be_bytes` over the first four bytes of a slice. -/
def u32FromBe : Bytes → UInt32
  | a :: b :: c :: d :: _ =>
    (a.toUInt32 <<< 24) ||| (b.toUInt32 <<< 16) ||| (c.toUInt32 <<< 8) ||| d.toUInt32
  | _ => 0

/-- A `u32::from_le_bytes` over the first four bytes of a slice. -/
def u32FromLe : Bytes → UInt32
  | a :: b :: c :: d :: _ => u32FromBe [d, c, b, a]
  | _ => 0

/-- The big-endian bytes of a `u32`. -/
def u32ToBe (n : UInt32) : Bytes :=
  [(n >>> 24).toUInt8, (n >>> 16).toUInt8, (n >>> 8).toUInt8, n.toUInt8]

/-- The little-endian bytes of a `u32`. -/
def u32ToLe (n : UInt32) : Bytes := (u32ToBe n).reverse

/-- The big-endian bytes of a `u64`. -/
def u64ToBe (n : UInt64) : Bytes :=
  [(n >>> 56).toUInt8, (n >>> 48).toUInt8, (n >>> 40).toUInt8, (n >>> 32).toUInt8,
    (n >>> 24).toUInt8, (n >>> 16).toUInt8, (n >>> 8).toUInt8, n.toUInt8]

@[simp] theorem length_u64ToBe (n : UInt64) : (u64ToBe n).length = 8 := rfl

/-- The leading zero bits of a `u32`. -/
def leadingZeros32 (n : UInt32) : ℕ := if n = 0 then 32 else 31 - Nat.log2 n.toNat

/-- The shard that owns `key`: the `⌈log₂ S⌉` high bits of `self XOR key`, reduced modulo `S` when
`S` is not a power of two. -/
def shardId (selfId : NodeId) (key : Key) (shardCount : UInt32) : UInt32 :=
  if shardCount ≤ 1 then 0
  else
    let k := 32 - leadingZeros32 (shardCount - 1)
    let d := xorDistance selfId.val key.val
    let top := u32FromBe d.val
    let raw := if k = 0 then 0 else top >>> (UInt32.ofNat (32 - k))
    -- `is_power_of_two`: a single bit is set
    if shardCount &&& (shardCount - 1) = 0 then raw else raw % shardCount

/-! ## Addresses -/

/-- An IP address: four octets, or the sixteen octets of an IPv6 address as a list. -/
inductive IpAddr where
  | v4 (a b c d : UInt8)
  | v6 (octets : Bytes)
deriving DecidableEq

/-- A socket address. An IPv6 address also carries its flow label and scope. -/
structure SocketAddr where
  ip : IpAddr
  port : UInt16
  flowinfo : UInt32
  scopeId : UInt32
deriving DecidableEq

namespace SocketAddr

/-- An IPv4 socket address. -/
def ofV4 (a b c d : UInt8) (port : UInt16) : SocketAddr := ⟨.v4 a b c d, port, 0, 0⟩

end SocketAddr

/-! ## Peers -/

/-- The `try_push` of an `ArrayVec` of capacity `cap`, which drops the element when full. -/
def tryPush {α : Type*} (cap : ℕ) (l : List α) (x : α) : List α :=
  if l.length < cap then l ++ [x] else l

/-- What a node knows about a peer. -/
structure PeerInfo where
  id : NodeId
  addrs : List SocketAddr
  rttMs : UInt32
  x25519 : Option Bytes32
deriving DecidableEq

namespace PeerInfo

/-- The capacity of `addrs`. -/
def addrsCap : ℕ := 4

def new (id : NodeId) (addr : SocketAddr) : PeerInfo :=
  { id, addrs := tryPush addrsCap [] addr, rttMs := 0, x25519 := none }

def primaryAddr (p : PeerInfo) : Option SocketAddr := p.addrs.head?

def pushAddr (p : PeerInfo) (addr : SocketAddr) : PeerInfo :=
  if p.addrs.any (· == addr) then p
  else { p with addrs := tryPush addrsCap p.addrs addr }

end PeerInfo

end Molia
