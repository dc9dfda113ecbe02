import Molia.Net.Admission
import Molia.Net.Codec
import Molia.Net.Wg
import Molia.Store.Peerstore

/-!
# The state of a shard

The source keeps one record, `ShardCtx`. Here it is built in two layers: `ShardNet` holds what the
sending side works on (tables, tunnels, budgets, punching attempts, timers), and `ShardCtx` adds the
record store, the pending lookups and the replies. A function that only sends has a type that says
so, and cannot touch the second layer.

Two fields are histories that the source does not keep, `sent` and `calls`: every datagram handed to
the socket, and every call of `send_app`. A message that waits in `pendingWg` remembers the call it
came from, and a datagram that carries a message in the clear says which call it serves.

The buffer pool and the metrics are left out: a buffer from the pool is always zeroed, and nothing
reads the metrics back.
-/

namespace Molia

/-- The options of a node that a shard reads. -/
structure NodeConfig where
  plaintext : Bool
  queryBlind : Bool
  twoHopRelay : Bool
deriving DecidableEq

/-- What a step reads from its surroundings: the wall clock in seconds and milliseconds, the
monotonic clock in nanoseconds, and how many bytes the disk still takes. -/
structure Env where
  unix : UInt64
  unixMs : UInt64
  instant : ℕ
  room : Option ℕ
deriving DecidableEq

/-- The number of a reply channel. Each command is sent with a channel of its own. -/
abbrev Chan := ℕ

inductive Reply where
  | key (k : Key)
  | value (v : Option Bytes)
  | record (r : Option StoredRecord)
  | providers (l : List (NodeId × Bytes))
  | peers (l : List PeerInfo)
  | ok
  | err (e : String)
deriving DecidableEq

/-- A client command. The reply channel is passed beside it. -/
inductive ShardCmd where
  | bootstrap (seeds : List SocketAddr)
  | put (value : Bytes) (ttlSecs : UInt64)
  | get (key : Key)
  | putMutable (r : StoredRecord)
  | announce (key : Key) (metadata : Bytes)
  | findProviders (key : Key)
  | injectPeer (info : PeerInfo)
  | shutdown
deriving DecidableEq

/-! ## Histories -/

/-- How a datagram carries what it carries: made by a tunnel, or in the clear and possibly for the
message of a `send_app` call. -/
inductive Form where
  | tunnel
  | clear (call : Option ℕ)
deriving DecidableEq

/-- A datagram handed to the socket. -/
structure Sent where
  dest : SocketAddr
  bytes : Bytes
  form : Form
deriving DecidableEq

/-- A call of `send_app`: its arguments, the key found for the peer, and the relay hop recorded for
the peer at that moment. -/
structure SendCall where
  dest : SocketAddr
  x25519 : Option Bytes32
  app : Bytes
  key : Option Bytes32
  hop : Option SocketAddr
deriving DecidableEq

/-- A message that waits for a handshake, with the number of the call it was given to. -/
structure Queued where
  app : Bytes
  call : ℕ
deriving DecidableEq

/-! ## The two layers -/

variable [Crates]

/-- The sending side of a shard. -/
structure ShardNet where
  identity : Identity
  cfg : NodeConfig
  localAddr : SocketAddr
  env : Env
  table : RoutingTable
  peers : Peerstore
  wg : WgEngine
  sybil : Sybil
  relay : RelayState
  nextCorrId : UInt32
  endpoints : HashMap NodeId EndpointHint
  timers : TimingWheel
  keysByAddr : HashMap SocketAddr Bytes32
  pendingWg : HashMap SocketAddr (List Queued)
  mapped : Option SocketAddr
  punches : HashMap NodeId PunchAttempt
  viaRelay : HashMap NodeId SocketAddr
  sent : List Sent
  calls : List SendCall

structure PendingLookup where
  lookup : Lookup
  reply : Option Chan
deriving DecidableEq

/-- The state of a shard, with the replies sent so far on the channels of the commands, and the
calls of `next_batch` so far, each a lookup and a time. -/
structure ShardCtx extends ShardNet where
  store : Store
  lookups : HashMap UInt32 PendingLookup
  replies : List (Chan × Reply)
  batches : List (Lookup × ℕ)

namespace ShardNet

/-- The monotonic clock. -/
def now (n : ShardNet) : ℕ := n.env.instant

/-- The timers a shard starts with. -/
def initialTimers (now : ℕ) : TimingWheel :=
  (((TimingWheel.new.schedule (now + keepalive) .keepalive).schedule (now + 100 * millis)
    .peerstoreFlush).schedule (now + 30 * second) .gc).schedule (now + 50 * millis) .lookupTick

/-- The sending side of a shard that starts with the given peer index. -/
def start (id : UInt32) (identity : Identity) (cfg : NodeConfig) (localAddr : SocketAddr)
    (env : Env) (peers : Peerstore) : ShardNet where
  identity := identity
  cfg := cfg
  localAddr := localAddr
  env := env
  table := RoutingTable.new identity.nodeId
  peers := peers
  wg := WgEngine.new identity.wgSecret id.toUInt8
  sybil := Sybil.new
  relay := RelayState.new cfg.twoHopRelay
  nextCorrId := 1
  endpoints := ∅
  timers := initialTimers env.instant
  keysByAddr := ∅
  pendingWg := ∅
  mapped := none
  punches := ∅
  viaRelay := ∅
  sent := []
  calls := []

end ShardNet

namespace ShardCtx

def start (id : UInt32) (identity : Identity) (cfg : NodeConfig) (localAddr : SocketAddr)
    (env : Env) (peers : Peerstore) (store : Store) : ShardCtx where
  toShardNet := ShardNet.start id identity cfg localAddr env peers
  store := store
  lookups := ∅
  replies := []
  batches := []

/-- Run a function of the sending side. -/
def withNet (c : ShardCtx) (n : ShardNet) : ShardCtx := { c with toShardNet := n }

/-- Answer on a channel. -/
def send (c : ShardCtx) (tx : Chan) (r : Reply) : ShardCtx :=
  { c with replies := c.replies ++ [(tx, r)] }

end ShardCtx

end Molia
