import Molia.Shard.History

/-!
# Nodes

A node is a list of shards that share an identity. A client call goes to the shard that owns the key
and waits for the first reply on a channel of its own, for two seconds. The shard may answer in the
step that takes the command, or later, when a lookup has ended; `call` is therefore given what
happens at the node while it waits.
-/

namespace Molia

variable [Crates]

structure Node where
  identity : Identity
  shards : List Machine

namespace Node

def owner (node : Node) (key : Key) : ℕ :=
  (shardId node.identity.nodeId key (UInt32.ofNat node.shards.length)).toNat

/-- An event at shard `i`. -/
def step (node : Node) (e : ℕ × Event) : Node :=
  { node with shards := node.shards.modify e.1 fun m ↦ m.step e.2 }

/-- How long a client waits for a reply. -/
def callTimeout : ℕ := 2 * second

/-- The first reply of shard `i` on a channel, after the given number of replies. -/
def received (node : Node) (i : ℕ) (tx : Chan) (seen : ℕ) : Option Reply := do
  let m ← node.shards[i]?
  let a ← (m.ctx.replies.drop seen).find? fun a ↦ a.1 = tx
  return a.2

/-- The `recv_timeout` of a channel, while the node goes on. What happens after the reply or the
deadline is left to later. -/
def recvTimeout (i : ℕ) (tx : Chan) (seen deadline : ℕ) (node : Node) :
    List (ℕ × Event) → Except String Reply × Node
  | [] => ((node.received i tx seen).elim (.error "timeout") .ok, node)
  | e :: wait =>
    match node.received i tx seen with
    | some r => (.ok r, node)
    | none =>
      if e.2.env.instant ≤ deadline then recvTimeout i tx seen deadline (node.step e) wait
      else (.error "timeout", node)

/-- Send a command to shard `i` and wait for its reply. The channel of a shard that has exited is
closed. A shard that is at work does not take the command now; the call is then one on a later
state of the node. -/
def call (node : Node) (env : Env) (i : ℕ) (cmd : ShardCmd) (wait : List (ℕ × Event)) :
    Except String Reply × Node :=
  match node.shards[i]? with
  | none => (.error "shard gone", node)
  | some m =>
    if m.phase = .exited then (.error "shard gone", node)
    else if m.Ready then
      -- the channel of a command is the number of commands that were taken before
      recvTimeout i m.asked.length m.ctx.replies.length (env.instant + callTimeout)
        (node.step (i, ⟨env, .command cmd⟩)) wait
    else (.error "timeout", node)

/-- How `put_ttl` reads a reply. -/
def putResult : Reply → Except String Key
  | .key k => .ok k
  | .err e => .error e
  | _ => .error "unexpected"

def putTtl (node : Node) (env : Env) (value : Bytes) (ttlSecs : UInt64)
    (wait : List (ℕ × Event)) : Except String Key × Node :=
  let (r, node) := node.call env (node.owner (hashValue value)) (.put value ttlSecs) wait
  (r.bind putResult, node)

/-- How `get` reads a reply. -/
def getResult : Reply → Except String (Option Bytes)
  | .record r => .ok (r.map StoredRecord.value)
  | .value v => .ok v
  | .err e => .error e
  | _ => .error "unexpected"

def get (node : Node) (env : Env) (key : Key) (wait : List (ℕ × Event)) :
    Except String (Option Bytes) × Node :=
  let (r, node) := node.call env (node.owner key) (.get key) wait
  (r.bind getResult, node)

/-- How `get_record` reads a reply: a bare value is taken for an immutable record. -/
def getRecordResult (key : Key) : Reply → Except String (Option StoredRecord)
  | .record r => .ok r
  | .value (some v) =>
    .ok (some
      { key
        value := v
        sequence := 0
        ttlSecs := 0
        notBeforeUnix := 0
        ownerPubkey := []
        signature := []
        kind := kindImmutable
        ns := []
        salt := []
        storedUnix := 0
        cache := false })
  | .value none => .ok none
  | .err e => .error e
  | _ => .error "unexpected"

def getRecord (node : Node) (env : Env) (key : Key) (wait : List (ℕ × Event)) :
    Except String (Option StoredRecord) × Node :=
  let (r, node) := node.call env (node.owner key) (.get key) wait
  (r.bind (getRecordResult key), node)

/-! ## Named records -/

/-- What `get_mutable` makes of the record found under the key of a slot. -/
def checkMutable (ownerPk ns salt : Bytes) : Option StoredRecord → Except String (Option Bytes)
  | none => .ok none
  | some rec =>
    if rec.key ≠ mutableKey ownerPk ns salt ∨ rec.ns ≠ ns ∨ rec.salt ≠ salt then
      .error "key mismatch"
    else if rec.signedBy ownerPk = false then .error "bad signature"
    else .ok (some rec.value)

def getMutable (node : Node) (env : Env) (ownerPk ns salt : Bytes) (wait : List (ℕ × Event)) :
    Except String (Option Bytes) × Node :=
  let (r, node) := node.getRecord env (mutableKey ownerPk ns salt) wait
  (r.bind (checkMutable ownerPk ns salt), node)

/-- The record `put_mutable_ttl` signs. -/
def mutableRecord (identity : Identity) (now : UInt64) (ns salt value : Bytes)
    (sequence ttlSecs : UInt64) : StoredRecord :=
  let pk := identity.verifyingKey.val
  let key := mutableKey pk ns salt
  { key
    value
    sequence
    ttlSecs
    notBeforeUnix := 0
    ownerPubkey := pk
    signature := signRecord identity.signing key value sequence ttlSecs 0
    kind := kindMutable
    ns
    salt
    storedUnix := now
    cache := false }

def putMutableTtl (node : Node) (env : Env) (ns salt value : Bytes) (sequence ttlSecs : UInt64)
    (wait : List (ℕ × Event)) : Except String Key × Node :=
  let signed := mutableRecord node.identity env.unix ns salt value sequence ttlSecs
  let (r, node) := node.call env (node.owner signed.key) (.putMutable signed) wait
  (r.bind putResult, node)

def putMutable (node : Node) (env : Env) (ns salt value : Bytes) (sequence : UInt64)
    (wait : List (ℕ × Event)) : Except String Key × Node :=
  node.putMutableTtl env ns salt value sequence mutableTtlSecs wait

/-! ## Providers -/

/-- How `find_providers` reads a reply. -/
def findProvidersResult : Reply → Except String (List (NodeId × Bytes))
  | .providers l => .ok l
  | .value _ => .ok []
  | .err e => .error e
  | _ => .error "unexpected"

def findProviders (node : Node) (env : Env) (key : Key) (wait : List (ℕ × Event)) :
    Except String (List (NodeId × Bytes)) × Node :=
  let (r, node) := node.call env (node.owner key) (.findProviders key) wait
  (r.bind findProvidersResult, node)

end Node

end Molia
