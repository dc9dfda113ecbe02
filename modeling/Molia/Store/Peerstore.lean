import Molia.Store.Basic

/-!
# The peer index and the shared log

Peers by id, with a queue of log frames that the flush timer writes out. The records of the store
go through the same queue and end up in the same file. A write that fails leaves a prefix of the
batch in the file; the queue is empty afterwards either way, as `drain` leaves it.

Compaction writes the whole index to a snapshot and empties the log. It keeps the queue.
-/

namespace Molia

variable [Crates]

open Crates

def typeUpsert : UInt8 := 1
def typeTombstone : UInt8 := 2

/-- `wal` holds the bytes of the open log file, and is `none` for an index in memory only. -/
structure Peerstore where
  peers : HashMap NodeId PeerInfo
  pending : List Framing.Frame
  wal : Option Bytes

namespace Peerstore

def memory : Peerstore := { peers := ∅, pending := [], wal := none }

/-- The payload of a peer row: the id and the text of the primary address. -/
def rowPayload (info : PeerInfo) : Bytes :=
  info.id.val.val ++ (info.primaryAddr.map addrDisplay).getD []

def upsert (p : Peerstore) (info : PeerInfo) : Peerstore :=
  { p with
    peers := p.peers.insert info.id info
    pending := p.pending ++ [⟨typeUpsert, rowPayload info⟩] }

def remove (p : Peerstore) (id : NodeId) : Peerstore :=
  { p with
    peers := p.peers.erase id
    pending := p.pending ++ [⟨typeTombstone, id.val.val⟩] }

def append (p : Peerstore) (ty : UInt8) (payload : Bytes) : Peerstore :=
  { p with pending := p.pending ++ [⟨ty, payload⟩] }

/-- Write the queue. `room` is the number of bytes the file system takes before a write fails, or
`none` if none fails. -/
def flush (p : Peerstore) (room : Option ℕ) : Except Unit Unit × Peerstore :=
  match p.wal with
  | none => (.ok (), { p with pending := [] })
  | some wal =>
    let data := p.pending.flatMap (Framing.frameBytes crc32)
    match room with
    | none => (.ok (), { p with pending := [], wal := some (wal ++ data) })
    | some n =>
      if data.length ≤ n then (.ok (), { p with pending := [], wal := some (wal ++ data) })
      else (.error (), { p with pending := [], wal := some (wal ++ data.take n) })

/-- The frames of a snapshot: a row for each peer, in iteration order, and the given records. -/
def snapshotFrames (p : Peerstore) (records : List Bytes) : List Framing.Frame :=
  (p.peers.values.map fun info ↦ ⟨typeUpsert, rowPayload info⟩) ++
    records.map fun payload ↦ ⟨Store.typeRecord, payload⟩

/-- Compaction where no file operation fails: what `snapshot.bin` holds afterwards, given what it
holds now, and the index over the emptied log. An index in memory only does nothing. -/
def compactWithRecords (p : Peerstore) (snapshot : Bytes) (records : List Bytes) :
    Bytes × Peerstore :=
  match p.wal with
  | none => (snapshot, p)
  | some _ =>
    ((p.snapshotFrames records).flatMap (Framing.frameBytes crc32), { p with wal := some [] })

def compact (p : Peerstore) (snapshot : Bytes) : Bytes × Peerstore :=
  p.compactWithRecords snapshot []

/-- What a frame of the log does to the index. -/
def applyFrame (peers : HashMap NodeId PeerInfo) (f : Framing.Frame) : HashMap NodeId PeerInfo :=
  if f.ty = typeUpsert then
    match NodeId.fromBytes (f.payload.take 32) with
    | none => peers
    | some id =>
      match addrParse (f.payload.drop 32) with
      | none => peers
      | some addr => peers.insert id (PeerInfo.new id addr)
  else if f.ty = typeTombstone then
    match NodeId.fromBytes f.payload with
    | none => peers
    | some id => peers.erase id
  else peers

def replay (peers : HashMap NodeId PeerInfo) (file : Bytes) : HashMap NodeId PeerInfo :=
  (Framing.frames crc32 file).foldl applyFrame peers

/-- An index over a directory with the given snapshot and log, where a missing file is empty. -/
def openDir (snapshot wal : Bytes) : Peerstore :=
  { peers := replay (replay ∅ snapshot) wal, pending := [], wal := some wal }

theorem flush_of_ok {p : Peerstore} {wal : Bytes} {room : Option ℕ} (hwal : p.wal = some wal)
    (hok : (p.flush room).1 = .ok ()) :
    (p.flush room).2 = { p with
      pending := [], wal := some (wal ++ p.pending.flatMap (Framing.frameBytes crc32)) } := by
  simp only [flush, hwal] at hok ⊢
  rcases room with _ | n
  · rfl
  · simp only at hok ⊢
    split at hok
    · rename_i hle
      rw [if_pos hle]
    · cases hok

end Peerstore

/-- Hand the queued records to the log. -/
def Store.flushWal (s : Store) (peers : Peerstore) : Store × Peerstore :=
  (s.drainWal, s.pendingWal.foldl (fun p payload ↦ p.append Store.typeRecord payload) peers)

end Molia
