import Molia.Core.Crypto
import Molia.General.Frames

/-!
# The record store of one shard

Immutable, mutable, provider and tombstone records, the provider lists and the read-through cache.
The clock is an argument: a method that reads `now_unix` in the source takes the reading here.

A method that can fail returns its result beside the store, so that a rejected call says which
store it leaves. `putRecord` is cut at the point where the source has finished checking: `validate`
is its `match` on the kind, and the rest is what an admitted record does to the store.
-/

namespace Molia

variable [Crates]

open Crates

/-! ## Records -/

def kindImmutable : UInt32 := 0
def kindMutable : UInt32 := 1
def kindProvider : UInt32 := 2
def kindTombstone : UInt32 := 3

def cacheTtlSecs : UInt64 := 10 * 60
def mutableTtlSecs : UInt64 := 24 * 3600

/-- A record as a shard holds it. The kind is the raw number from the wire. -/
structure StoredRecord where
  key : Key
  value : Bytes
  sequence : UInt64
  ttlSecs : UInt64
  notBeforeUnix : UInt64
  ownerPubkey : Bytes
  signature : Bytes
  kind : UInt32
  ns : Bytes
  salt : Bytes
  storedUnix : UInt64
  cache : Bool
deriving DecidableEq

namespace StoredRecord

def toProto (r : StoredRecord) : Proto.Record where
  key := r.key.val.val
  value := r.value
  sequence := r.sequence
  ttlSecs := r.ttlSecs
  notBeforeUnix := r.notBeforeUnix
  ownerPubkey := r.ownerPubkey
  signature := r.signature
  validators := []
  kind := r.kind
  ns := r.ns
  salt := r.salt

def encode (r : StoredRecord) : Bytes := Crates.record.encode r.toProto

/-- The age saturates at zero, as `saturating_sub` does. -/
def expired (r : StoredRecord) (now : UInt64) : Bool :=
  decide (now.toNat - r.storedUnix.toNat > r.ttlSecs.toNat)

/-- The name of the slot a record claims to belong to. -/
def slot (r : StoredRecord) : Bytes := slotName r.ownerPubkey r.ns r.salt

/-- The Ed25519 envelope: an owner, the slot of that owner, and a signature over the fields. -/
def envelopeOk (r : StoredRecord) : Bool :=
  !r.ownerPubkey.isEmpty
    && decide (mutableKey r.ownerPubkey r.ns r.salt = r.key)
    && verifyRecord r.ownerPubkey r.key r.value r.sequence r.ttlSecs r.notBeforeUnix r.signature

/-- Hash (immutable) or Ed25519 envelope (mutable and tombstone). -/
def authentic (r : StoredRecord) : Bool :=
  if r.kind = kindImmutable then decide (hashValue r.value = r.key)
  else if r.kind = kindMutable ∨ r.kind = kindTombstone then r.envelopeOk
  else if r.kind = kindProvider then true
  else false

/-- A mutable record signed by `ownerPk`. -/
def signedBy (r : StoredRecord) (ownerPk : Bytes) : Bool :=
  decide (r.kind = kindMutable) && decide (r.ownerPubkey = ownerPk) && r.authentic

/-- The kinds that carry an owner's signature. -/
def Signed (r : StoredRecord) : Prop := r.kind = kindMutable ∨ r.kind = kindTombstone

instance (r : StoredRecord) : Decidable r.Signed := inferInstanceAs (Decidable (_ ∨ _))

/-- The size limit of `putRecord`. -/
def Fits (r : StoredRecord) : Prop := r.value.length + r.signature.length ≤ 64 * 1024

instance (r : StoredRecord) : Decidable r.Fits := inferInstanceAs (Decidable (_ ≤ _))

end StoredRecord

/-- A zero time to live on the wire stands for the default of one day. -/
def recordFromProto (now : UInt64) (r : Proto.Record) : Option StoredRecord := do
  let key ← Key.fromBytes r.key
  some
    { key
      value := r.value
      sequence := r.sequence
      ttlSecs := if r.ttlSecs = 0 then mutableTtlSecs else r.ttlSecs
      notBeforeUnix := r.notBeforeUnix
      ownerPubkey := r.ownerPubkey
      signature := r.signature
      kind := r.kind
      ns := r.ns
      salt := r.salt
      storedUnix := now
      cache := false }

structure ProviderEntry where
  peerId : NodeId
  metadata : Bytes
  storedUnix : UInt64
  ttlSecs : UInt64
deriving DecidableEq

/-- The age test of a provider entry. -/
def ProviderEntry.live (e : ProviderEntry) (now : UInt64) : Bool :=
  decide (now.toNat - e.storedUnix.toNat ≤ e.ttlSecs.toNat)

/-! ## The store -/

/-- The directory is `none` for a store that lives in memory only. -/
structure Store where
  records : HashMap Key StoredRecord
  providers : HashMap Key (List ProviderEntry)
  cache : HashMap Key StoredRecord
  dir : Option String
  pendingWal : List Bytes

namespace Store

def new : Store where
  records := ∅
  providers := ∅
  cache := ∅
  dir := none
  pendingWal := []

def queueRecord (s : Store) (r : StoredRecord) : Store :=
  if s.dir.isSome then { s with pendingWal := s.pendingWal ++ [r.encode] } else s

/-- The insertion into `records` under the key the record itself carries. -/
def insertRecord (s : Store) (r : StoredRecord) : Store :=
  { s with records := s.records.insert r.key r }

/-- The record `putImmutableTtl` stores and `replicate_store` sends. -/
def immutableRecord (now : UInt64) (value : Bytes) (ttlSecs : UInt64) : StoredRecord where
  key := hashValue value
  value := value
  sequence := 0
  ttlSecs := ttlSecs
  notBeforeUnix := 0
  ownerPubkey := []
  signature := []
  kind := kindImmutable
  ns := []
  salt := []
  storedUnix := now
  cache := false

def putImmutableTtl (s : Store) (now : UInt64) (value : Bytes) (ttlSecs : UInt64) :
    Except String Key × Store :=
  if value.length > pmtuFloor * 64 then (.error "too large", s)
  else
    let r := immutableRecord now value ttlSecs
    (.ok (hashValue value), (s.queueRecord r).insertRecord r)

/-- The sequence test of the mutable branch, the only check that looks at the record already
stored. A tombstone may be replaced by any sequence. -/
def checkSequence (s : Store) (r : StoredRecord) : Except String Unit :=
  match s.records.lookup r.key with
  | some old =>
    if r.sequence ≤ old.sequence ∧ old.kind ≠ kindTombstone then .error "stale sequence"
    else .ok ()
  | none => .ok ()

/-- The checks of `putRecord`, in the order of the source. -/
def validate (s : Store) (r : StoredRecord) : Except String Unit :=
  if r.value.length + r.signature.length > 64 * 1024 then .error "too large"
  else if r.kind = kindImmutable then
    if hashValue r.value ≠ r.key then .error "hash mismatch" else .ok ()
  else if r.kind = kindMutable then
    if r.authentic = false then .error "bad signature" else s.checkSequence r
  else if r.kind = kindTombstone then
    if r.authentic = false then .error "bad tombstone" else .ok ()
  else if r.kind = kindProvider then .ok ()
  else .error "unknown kind"

/-- A tombstone is stored even when the call is a probe. -/
def putRecord (s : Store) (r : StoredRecord) (probe : Bool) : Except String Unit × Store :=
  match s.validate r with
  | .error e => (.error e, s)
  | .ok () =>
    if r.kind = kindTombstone then (.ok (), (s.queueRecord r).insertRecord r)
    else if probe then (.ok (), s)
    else (.ok (), (s.queueRecord r).insertRecord r)

/-- The record as the cache keeps it. -/
def cachedRecord (now : UInt64) (r : StoredRecord) : StoredRecord :=
  { r with cache := true, ttlSecs := max (min cacheTtlSecs (30 * 60)) (5 * 60), storedUnix := now }

def cacheHit (s : Store) (now : UInt64) (r : StoredRecord) : Store :=
  if r.kind ≠ kindImmutable then s
  else { s with cache := s.cache.insert r.key (cachedRecord now r) }

def get (s : Store) (now : UInt64) (key : Key) : Option StoredRecord :=
  match s.records.lookup key with
  | some r =>
    if r.expired now = false ∧ r.kind ≠ kindTombstone then some r
    else (s.cache.lookup key).filter fun c ↦ !c.expired now
  | none => (s.cache.lookup key).filter fun c ↦ !c.expired now

/-- The update of the first entry of `peerId`, or `none` if there is no such entry. -/
def updateProvider (now : UInt64) (peerId : NodeId) (metadata : Bytes) :
    List ProviderEntry → Option (List ProviderEntry)
  | [] => none
  | e :: es =>
    if e.peerId = peerId then some ({ e with metadata, storedUnix := now } :: es)
    else (updateProvider now peerId metadata es).map (e :: ·)

def announceProvider (s : Store) (now : UInt64) (key : Key) (peerId : NodeId) (metadata : Bytes) :
    Store :=
  let list := (s.providers.lookup key).getD []
  let list' :=
    match updateProvider now peerId metadata list with
    | some l => l
    | none =>
      if list.length < 64 then
        list ++ [{ peerId, metadata, storedUnix := now, ttlSecs := mutableTtlSecs }]
      else list
  { s with providers := s.providers.insert key list' }

def liveProviders (s : Store) (now : UInt64) (key : Key) (limit : ℕ) : List ProviderEntry :=
  match s.providers.lookup key with
  | some l => (l.filter fun e ↦ e.live now).take limit
  | none => []

def gc (s : Store) (now : UInt64) : Store :=
  { s with
    records := s.records.retain fun _ r ↦ !r.expired now
    cache := s.cache.retain fun _ r ↦ !r.expired now
    providers := s.providers.mapValues fun _ l ↦ l.filter fun e ↦ e.live now }

/-- The store after `flush_wal` has handed its queue to the peerstore. -/
def drainWal (s : Store) : Store := { s with pendingWal := [] }

/-! ## Recovery from the log -/

/-- The type byte of a record frame. -/
def typeRecord : UInt8 := 3

/-- The record a frame of the log contributes: a record frame that decodes, has a 32-byte key and
is authentic. -/
def frameRecord (now : UInt64) (f : Framing.Frame) : Option StoredRecord :=
  if f.ty ≠ typeRecord then none
  else
    match Crates.record.decode f.payload with
    | none => none
    | some pr =>
      match recordFromProto now pr with
      | none => none
      | some r => if r.authentic then some r else none

/-- The records a log contributes, in order. -/
def walRecords (now : UInt64) (wal : Bytes) : List StoredRecord :=
  (Framing.frames crc32 wal).filterMap (frameRecord now)

def replayWal (s : Store) (now : UInt64) (wal : Bytes) : Store :=
  (walRecords now wal).foldl insertRecord s

/-- A store over a directory whose `wal.log` holds `wal`, or has no such file. -/
def openDir (now : UInt64) (dir : String) (wal : Option Bytes) : Store :=
  let s := { new with dir := some dir }
  match wal with
  | some b => s.replayWal now b
  | none => s

end Store

end Molia
