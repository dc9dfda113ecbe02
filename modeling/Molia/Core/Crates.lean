import Molia.Core.Types

/-!
# Messages and foreign code

The Protobuf messages of the wire protocol, as the schema declares them, and the functions the
program takes from crates that are not part of the repository: BLAKE3, Ed25519, CRC-32, the
Protobuf codec, the textual form of socket addresses, Reed–Solomon coding and the WireGuard
tunnel. They are gathered in one class, `Crates`, and every definition that uses one of them is
relative to an instance. No law is part of the class: a result that relies on one, such as the
round trip of the Protobuf codec, names it as a hypothesis.

Fields of type `bytes` are byte strings of any length. Nothing here checks a length; that is the
business of the handlers.
-/

namespace Molia

/-! ## Protobuf messages -/

namespace Proto

structure Addr where
  multiaddr : Bytes
deriving DecidableEq

structure Ping where
  nowUnixMs : UInt64
  x25519Pubkey : Bytes
  ed25519Pubkey : Bytes
  bindingSig : Bytes
deriving DecidableEq

structure Pong where
  nowUnixMs : UInt64
  x25519Pubkey : Bytes
  ed25519Pubkey : Bytes
  bindingSig : Bytes
  observed : Option Addr
deriving DecidableEq

structure Capabilities where
  version : UInt32
  bitmap : UInt64
  maxMsgBytes : UInt32
deriving DecidableEq

structure NegotiateResp where
  agreed : Option Capabilities
deriving DecidableEq

structure FindNodeReq where
  targetId : Bytes
  limit : UInt32
deriving DecidableEq

structure Peer where
  peerId : Bytes
  addrs : List Addr
  rttMs : UInt32
  x25519Pubkey : Bytes
deriving DecidableEq

structure FindNodeResp where
  peers : List Peer
deriving DecidableEq

structure FindValueReq where
  key : Bytes
  providerLimit : UInt32
deriving DecidableEq

structure Provider where
  peerId : Bytes
  metadata : Bytes
deriving DecidableEq

/-- The `oneof` of a `FindValueResp`. -/
inductive FindValueResult where
  | record (bytes : Bytes)
  | providers (providers : List Provider)
deriving DecidableEq

structure FindValueResp where
  result : Option FindValueResult
  closerPeers : List Peer
deriving DecidableEq

structure StoreReq where
  record : Bytes
  admissionToken : Bytes
  costStamp : Bytes
deriving DecidableEq

inductive StoreCode where
  | ok
  | rejected
  | tooLarge
  | invalid
deriving DecidableEq

structure StoreResp where
  code : StoreCode
  reason : String
deriving DecidableEq

structure AnnounceProviderReq where
  key : Bytes
  selfDescriptor : Option Provider
  record : Bytes
  admissionToken : Bytes
  costStamp : Bytes
deriving DecidableEq

inductive AnnounceCode where
  | ok
  | rejected
  | rateLimited
  | invalid
deriving DecidableEq

structure AnnounceProviderResp where
  code : AnnounceCode
  reason : String
deriving DecidableEq

inductive ErrorCode where
  | unspecified
  | notFound
  | busy
  | rateLimited
  | invalid
  | tooLarge
  | unsupported
  | unauthorized
  | internal
deriving DecidableEq

structure Error where
  code : ErrorCode
  reason : String
  retryAfterMs : UInt32
deriving DecidableEq

structure Record where
  key : Bytes
  value : Bytes
  sequence : UInt64
  ttlSecs : UInt64
  notBeforeUnix : UInt64
  ownerPubkey : Bytes
  signature : Bytes
  validators : Bytes
  kind : UInt32
  ns : Bytes
  salt : Bytes
deriving DecidableEq

/-- Rendezvous: punch toward the candidates of `fromId` if `targetId` is us, else forward. -/
structure Punch where
  targetId : Bytes
  fromId : Bytes
  candidates : List Addr
deriving DecidableEq

/-- Two-hop delivery of one datagram to `destId`. -/
structure Relay where
  destId : Bytes
  fromId : Bytes
  payload : Bytes
deriving DecidableEq

end Proto

/-! ## Foreign code -/

/-- The Protobuf codec of one message type: `encode_to_vec` and `decode`. -/
structure Prost (M : Type) where
  encode : M → Bytes
  decode : Bytes → Option M

/-- Decoding undoes encoding. -/
def Prost.RoundTrips {M : Type} (p : Prost M) : Prop := ∀ m, p.decode (p.encode m) = some m

/-- What a WireGuard tunnel asks its caller to do. -/
inductive TunnResult where
  | done
  | err
  | writeToNetwork (pkt : Bytes)
  | writeToTunnelV4 (inner : Bytes)
  | writeToTunnelV6 (inner : Bytes)
deriving DecidableEq

/-- The foreign functions. -/
class Crates where
  /-- The BLAKE3 hash; hashing in several `update` calls hashes the concatenation. -/
  blake3 : Bytes → Bytes32
  /-- A decoded Ed25519 public key. -/
  PublicKey : Type
  /-- A decoded Ed25519 signature. -/
  Signature : Type
  /-- An Ed25519 key pair. -/
  Keypair : Type
  publicKeyFromBytes : Bytes32 → Option PublicKey
  signatureFromBytes : Bytes → Option Signature
  verify : PublicKey → Bytes → Signature → Bool
  /-- The bytes of the public half. -/
  keypairPublic : Keypair → Bytes32
  sign : Keypair → Bytes → Bytes
  /-- The X25519 public key of a secret. -/
  x25519Public : Bytes32 → Bytes32
  crc32 : Bytes → UInt32
  /-- The `Display` form of a socket address. -/
  addrDisplay : SocketAddr → Bytes
  /-- The `FromStr` of a socket address on the UTF-8 bytes of the text. -/
  addrParse : Bytes → Option SocketAddr
  record : Prost Proto.Record
  ping : Prost Proto.Ping
  pong : Prost Proto.Pong
  negotiateResp : Prost Proto.NegotiateResp
  findNodeReq : Prost Proto.FindNodeReq
  findNodeResp : Prost Proto.FindNodeResp
  findValueReq : Prost Proto.FindValueReq
  findValueResp : Prost Proto.FindValueResp
  storeReq : Prost Proto.StoreReq
  storeResp : Prost Proto.StoreResp
  announceProviderReq : Prost Proto.AnnounceProviderReq
  announceProviderResp : Prost Proto.AnnounceProviderResp
  error : Prost Proto.Error
  punch : Prost Proto.Punch
  relay : Prost Proto.Relay
  /-- Reed–Solomon parity over the given data and parity shards. -/
  rsEncode : (dataShards parityShards : ℕ) → List Bytes → Option (List Bytes)
  /-- One WireGuard tunnel, with its queue, its timers and its randomness. -/
  Tunn : Type
  /-- A tunnel from our secret to a peer key, under a local session index. -/
  tunnNew : (secret peer : Bytes32) → (index : UInt32) → Tunn
  tunnEncapsulate : Tunn → (now : ℕ) → Bytes → TunnResult × Tunn
  tunnDecapsulate : Tunn → (now : ℕ) → (src : IpAddr) → Bytes → TunnResult × Tunn
  tunnUpdateTimers : Tunn → (now : ℕ) → TunnResult × Tunn

end Molia
