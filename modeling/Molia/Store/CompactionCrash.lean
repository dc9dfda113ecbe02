import Molia.Store.Compaction
import Molia.Store.Recovery

/-!
# What a compaction leaves in the directory

A compaction writes a new snapshot beside the old one, renames it over the old one, and then empties
the log. The peer index is recovered from the snapshot and the log, the records from the log alone.

So the records of the log are gone after a compaction, even if they were handed to it and stand in
the snapshot (`keepsRecords_iff`).

For the peers, a crash before the rename leaves the old directory and a crash after the log has been
emptied leaves the index of the memory. In between, the old log is replayed over the new snapshot.
`crashAtomic_iff` says when that is one of the two: if the memory agrees with the last write of the
log to each peer, or if the memory agrees with the old snapshot on the peers that the log is silent
about. An index that has nothing queued is of the first kind (`crashAtomic_of_flushed`).
-/

namespace Molia

section

variable [Crates]

open Crates

/-! ## Records -/

/-- A store opened after a compaction holds the records of one opened before it, up to the time of
storing and the cache mark. -/
def KeepsRecords (now now' : UInt64) (dir : String) (wal : Bytes) (compacted : Bytes × Peerstore) :
    Prop :=
  ∀ k, ((Store.openDir now' dir compacted.2.wal).records.lookup k).map StoredRecord.toProto
    = ((Store.openDir now dir (some wal)).records.lookup k).map StoredRecord.toProto

theorem records_openDir_compacted (now : UInt64) (dir : String) {p : Peerstore} {wal : Bytes}
    (hwal : p.wal = some wal) (snapshot : Bytes) (records : List Bytes) (k : Key) :
    (Store.openDir now dir (p.compactWithRecords snapshot records).2.wal).records.lookup k
      = none := by
  rw [Peerstore.compactWithRecords, hwal]
  rfl

theorem keepsRecords_compactWithRecords_iff (now now' : UInt64) (dir : String) {p : Peerstore}
    {wal : Bytes} (hwal : p.wal = some wal) (snapshot : Bytes) (records : List Bytes) :
    KeepsRecords now now' dir wal (p.compactWithRecords snapshot records) ↔
      ∀ k, (Store.openDir now dir (some wal)).records.lookup k = none := by
  refine forall_congr' fun k ↦ ?_
  rw [records_openDir_compacted now' dir hwal, Option.map_none, eq_comm, Option.map_eq_none_iff]

/-- **Compaction and records.** A compaction keeps the records that would be recovered only if there
are none, whether or not they are handed to it. -/
theorem keepsRecords_iff (now now' : UInt64) (dir : String) {p : Peerstore} {wal : Bytes}
    (hwal : p.wal = some wal) (snapshot : Bytes) :
    let recovered := (Store.openDir now dir (some wal)).records
    (KeepsRecords now now' dir wal (p.compact snapshot) ↔ ∀ k, recovered.lookup k = none) ∧
      (KeepsRecords now now' dir wal
          (p.compactWithRecords snapshot (recovered.values.map StoredRecord.encode)) ↔
        ∀ k, recovered.lookup k = none) :=
  ⟨keepsRecords_compactWithRecords_iff now now' dir hwal snapshot [],
    keepsRecords_compactWithRecords_iff now now' dir hwal snapshot _⟩

end

section

open Sample

attribute [local instance] wireCrates

/-- A value of one byte, stored for a minute. -/
private def brief : StoredRecord := Store.immutableRecord 0 [1] 60

/-- The log that holds its record. -/
private def briefLog : Bytes := Framing.frameBytes Crates.crc32 (Store.recordFrame brief.encode)

private theorem lookup_briefLog :
    (Store.openDir 20 "data" (some briefLog)).records.lookup brief.key ≠ none := by
  decide +kernel

/-- The record of the log is lost in both ways. -/
theorem keepsRecords_iff_brief :
    ¬KeepsRecords 20 30 "data" briefLog ((Peerstore.openDir [] briefLog).compact []) ∧
      ¬KeepsRecords 20 30 "data" briefLog ((Peerstore.openDir [] briefLog).compactWithRecords []
        ((Store.openDir 20 "data" (some briefLog)).records.values.map StoredRecord.encode)) := by
  have hwal : (Peerstore.openDir [] briefLog).wal = some briefLog := rfl
  have hiff := keepsRecords_iff 20 30 "data" hwal []
  exact ⟨fun h ↦ lookup_briefLog (hiff.1.mp h _), fun h ↦ lookup_briefLog (hiff.2.mp h _)⟩

/-- A record that stands in the log is not recovered after a compaction, neither after `compact` nor
after one that was handed the record. -/
theorem keepsRecords_fails :
    ¬∀ (_ : Crates) (now now' : UInt64) (dir : String) (p : Peerstore) (wal snapshot : Bytes),
      p.wal = some wal →
      KeepsRecords now now' dir wal (p.compact snapshot) ∨
        KeepsRecords now now' dir wal (p.compactWithRecords snapshot
          ((Store.openDir now dir (some wal)).records.values.map StoredRecord.encode)) := by
  intro h
  have hwal : (Peerstore.openDir [] briefLog).wal = some briefLog := rfl
  rcases h wireCrates 20 30 "data" _ _ [] hwal with hkept | hkept
  · exact lookup_briefLog ((keepsRecords_compactWithRecords_iff 20 30 "data" hwal [] []).mp hkept _)
  · exact lookup_briefLog ((keepsRecords_compactWithRecords_iff 20 30 "data" hwal [] _).mp hkept _)

end

section

variable [Crates]

open Crates

/-! ## Peers -/

/-- Where a crash can hit a compaction: before the rename, between the rename and the emptying of
the log, or after it. -/
inductive CrashPoint where
  | beforeRename
  | beforeTruncation
  | afterTruncation
deriving DecidableEq

namespace Peerstore

/-- The snapshot and the log that a crash leaves. -/
def crashedFiles (p : Peerstore) (snapshot wal : Bytes) (records : List Bytes) :
    CrashPoint → Bytes × Bytes
  | .beforeRename => (snapshot, wal)
  | .beforeTruncation => ((p.snapshotFrames records).flatMap (Framing.frameBytes crc32), wal)
  | .afterTruncation => ((p.snapshotFrames records).flatMap (Framing.frameBytes crc32), [])

/-- The ids and primary addresses that are recovered after a crash. -/
def crashedView (p : Peerstore) (snapshot wal : Bytes) (records : List Bytes) (c : CrashPoint) :
    NodeId → Option (Option SocketAddr) :=
  view (openDir (p.crashedFiles snapshot wal records c).1
    (p.crashedFiles snapshot wal records c).2).peers

/-- Wherever a crash hits the compaction, what is recovered is the index as it was flushed last or
the index of the memory. -/
def CrashAtomic (p : Peerstore) (snapshot wal : Bytes) (records : List Bytes) : Prop :=
  ∀ c, p.crashedView snapshot wal records c = view (openDir snapshot wal).peers ∨
    p.crashedView snapshot wal records c = view p.peers

theorem view_openDir (snapshot wal : Bytes) :
    view (openDir snapshot wal).peers
      = Overwrites.replay frameEffect (view (replay ∅ snapshot)) (Framing.frames crc32 wal) :=
  view_foldl _ _

theorem view_replay_snapshot {p : Peerstore} (hrows : Rows p.peers) {records : List Bytes}
    (hrecords : ∀ payload ∈ records, payload.length < 2 ^ 32) :
    view (replay ∅ ((p.snapshotFrames records).flatMap (Framing.frameBytes crc32)))
      = view p.peers := by
  rw [replay, Framing.frames_flatMap (hrows.short hrecords), view_foldl]
  exact replay_snapshotFrames hrows records

theorem crashedView_beforeTruncation {p : Peerstore} (hrows : Rows p.peers) {records : List Bytes}
    (hrecords : ∀ payload ∈ records, payload.length < 2 ^ 32) (snapshot wal : Bytes) :
    p.crashedView snapshot wal records .beforeTruncation
      = Overwrites.replay frameEffect (view p.peers) (Framing.frames crc32 wal) := by
  rw [crashedView, view_openDir, crashedFiles, view_replay_snapshot hrows hrecords]

theorem crashedView_afterTruncation {p : Peerstore} (hrows : Rows p.peers) {records : List Bytes}
    (hrecords : ∀ payload ∈ records, payload.length < 2 ^ 32) (snapshot wal : Bytes) :
    p.crashedView snapshot wal records .afterTruncation = view p.peers := by
  rw [crashedView, view_openDir, crashedFiles, view_replay_snapshot hrows hrecords]
  rfl

end Peerstore

/-- Only a crash between the rename and the emptying of the log can leave a mixture. -/
theorem Peerstore.crashAtomic_iff_replay {p : Peerstore} (hrows : Rows p.peers)
    {records : List Bytes} (hrecords : ∀ payload ∈ records, payload.length < 2 ^ 32)
    (snapshot wal : Bytes) :
    p.CrashAtomic snapshot wal records ↔
      Overwrites.replay frameEffect (view p.peers) (Framing.frames crc32 wal) = view p.peers ∨
      Overwrites.replay frameEffect (view p.peers) (Framing.frames crc32 wal)
        = Overwrites.replay frameEffect (view (replay ∅ snapshot)) (Framing.frames crc32 wal) := by
  rw [← crashedView_beforeTruncation hrows hrecords snapshot wal, ← view_openDir]
  constructor
  · intro h
    exact (h .beforeTruncation).symm
  · intro h c
    cases c with
    | beforeRename => exact Or.inl rfl
    | beforeTruncation => exact h.symm
    | afterTruncation => exact Or.inr (crashedView_afterTruncation hrows hrecords snapshot wal)

/-- **Compaction and crashes.** A crash leaves no mixture exactly if the memory agrees with the last
write of the log to each peer, or with the old snapshot on every peer that the log is silent
about. -/
theorem crashAtomic_iff {p : Peerstore} (hrows : Peerstore.Rows p.peers) {records : List Bytes}
    (hrecords : ∀ payload ∈ records, payload.length < 2 ^ 32) (snapshot wal : Bytes) :
    p.CrashAtomic snapshot wal records ↔
      (∀ id v, Overwrites.lastWrite Peerstore.frameEffect id (Framing.frames crc32 wal) = some v →
        Peerstore.view p.peers id = v) ∨
      ∀ id, Overwrites.lastWrite Peerstore.frameEffect id (Framing.frames crc32 wal) = none →
        Peerstore.view p.peers id = Peerstore.view (Peerstore.replay ∅ snapshot) id := by
  rw [Peerstore.crashAtomic_iff_replay hrows hrecords, Overwrites.replay_eq_self_iff,
    Overwrites.replay_eq_replay_iff]

/-- An index whose queue has been flushed can be compacted without a mixture, after any run. -/
theorem crashAtomic_of_flushed (ops : List PeerOp) (room : Option ℕ)
    (h : Runs.Along PeerDir.step (fun d op ↦ d.Proper op ∧ PeerDir.Fits op) PeerDir.empty
      (ops ++ [.flush room])) {records : List Bytes}
    (hrecords : ∀ payload ∈ records, payload.length < 2 ^ 32) :
    let d := (ops ++ [PeerOp.flush room]).foldl PeerDir.step PeerDir.empty
    ∃ wal, d.index.wal = some wal ∧ d.index.CrashAtomic d.snapshot wal records := by
  obtain ⟨hops, hflush, -⟩ := Runs.along_append.mp h
  obtain ⟨ss, fs, hlog⟩ := hops.invariant (fun _ _ ↦ PeerDir.logged_step)
    ⟨[], [], PeerDir.logged_empty⟩
  obtain ⟨hlog, hempty⟩ := hlog.flush hflush.1
  rw [List.foldl_append]
  refine ⟨_, hlog.wal, (Peerstore.crashAtomic_iff_replay hlog.rows hrecords _ _).mpr (Or.inl ?_)⟩
  have hshort := hlog.short
  have hview := hlog.replays
  rw [hempty, List.append_nil] at hshort hview
  have hfs := fun f hf ↦ hshort f (List.mem_append_right ss hf)
  -- the log has been replayed to get the index, and replaying it once more changes nothing
  rw [Framing.frames_flatMap hfs, hview, Overwrites.replay_append _ ss, Overwrites.replay_replay]

end

section

open Sample

attribute [local instance] wireCrates

private def oldPeer : PeerInfo := PeerInfo.new ⟨Bytes32.fill 7⟩ (.ofV4 127 0 0 1 77)

private def newPeer : PeerInfo := PeerInfo.new ⟨Bytes32.fill 8⟩ (.ofV4 127 0 0 1 78)

/-- An index with one peer over an empty log. -/
private def onePeer : Peerstore := (Peerstore.openDir [] []).upsert oldPeer

private theorem rows_onePeer : Peerstore.Rows onePeer.peers := by
  have hempty : Peerstore.Rows ∅ := by
    intro id info h
    cases h
  exact hempty.insert ⟨.ofV4 127 0 0 1 77, rfl, by decide +kernel⟩ (by decide +kernel)

theorem crashAtomic_iff_onePeer :
    onePeer.CrashAtomic [] [] [] ↔
      (∀ id v, Overwrites.lastWrite Peerstore.frameEffect id (Framing.frames Crates.crc32 [])
          = some v → Peerstore.view onePeer.peers id = v) ∨
      ∀ id, Overwrites.lastWrite Peerstore.frameEffect id (Framing.frames Crates.crc32 []) = none →
        Peerstore.view onePeer.peers id = Peerstore.view (Peerstore.replay ∅ []) id :=
  crashAtomic_iff rows_onePeer (by decide) [] []

/-- The first peer is flushed; its removal and the second peer are still queued. -/
private def replacedOps : List PeerOp :=
  [.upsert oldPeer, .flush none, .remove oldPeer.id, .upsert newPeer]

/-- A compaction of the index above that is interrupted after the rename leaves both peers: not the
flushed index, which has only the first, and not that of the memory, which has only the second. -/
theorem crashAtomic_fails :
    ¬∀ (_ : Crates) (ops : List PeerOp) (records : List Bytes) (wal : Bytes),
      Runs.Along PeerDir.step (fun d op ↦ d.Proper op ∧ PeerDir.Fits op) PeerDir.empty ops →
      (∀ payload ∈ records, payload.length < 2 ^ 32) →
      (ops.foldl PeerDir.step PeerDir.empty).index.wal = some wal →
      (ops.foldl PeerDir.step PeerDir.empty).index.CrashAtomic
        (ops.foldl PeerDir.step PeerDir.empty).snapshot wal records := by
  intro h
  have hrun : Runs.Along PeerDir.step (fun d op ↦ d.Proper op ∧ PeerDir.Fits op) PeerDir.empty
      replacedOps :=
    ⟨⟨⟨.ofV4 127 0 0 1 77, rfl, by decide +kernel⟩, show _ < _ by decide +kernel⟩, ⟨rfl, trivial⟩,
      ⟨trivial, trivial⟩,
      ⟨⟨.ofV4 127 0 0 1 78, rfl, by decide +kernel⟩, show _ < _ by decide +kernel⟩, trivial⟩
  rcases h wireCrates replacedOps [] _ hrun (by decide) rfl .beforeTruncation with hview | hview
  · have hnew := congrFun hview newPeer.id
    revert hnew
    decide +kernel
  · have hold := congrFun hview oldPeer.id
    revert hold
    decide +kernel

end

end Molia
