import Molia.Core.Wire
import Molia.General.Overwrites
import Molia.General.Runs
import Molia.Store.Peerstore
import Molia.Store.Run

/-!
# Recovery of the records

A store and a peer index share one log. The store queues a frame for each record it accepts, the
index queues a frame for each change to a peer, and a flush writes the two queues to the file. When
the store is opened again it reads the file and applies the record frames that decode and are
authentic, without the sequence check of a live `putRecord`.

The invariant of a run is that the log, followed by what is still queued, replays to the records in
memory, up to the two fields that are not written: the time of storing and the cache mark. Every
accepted record is authentic, so its frame is never turned down on replay; the frames of the peer
index have no effect on the records, so it does not matter where they stand.
-/

namespace Molia

section

variable [Crates]

open Crates

/-! ## A directory in use -/

/-- A store and a peer index over the same directory. -/
structure DataDir where
  store : Store
  peers : Peerstore

inductive DirOp where
  | putImmutableTtl (now : UInt64) (value : Bytes) (ttlSecs : UInt64)
  | putRecord (r : StoredRecord) (probe : Bool)
  | upsert (info : PeerInfo)
  | remove (id : NodeId)
  | flush (room : Option ℕ)

namespace DataDir

/-- Both opened over an empty directory. -/
def empty (now : UInt64) (dir : String) : DataDir where
  store := Store.openDir now dir none
  peers := Peerstore.openDir [] []

/-- `flush_wal` and then `flush`. -/
def flush (d : DataDir) (room : Option ℕ) : Except Unit Unit × DataDir :=
  let (s, peers) := d.store.flushWal d.peers
  let (result, peers) := peers.flush room
  (result, ⟨s, peers⟩)

def step (d : DataDir) : DirOp → DataDir
  | .putImmutableTtl now value ttlSecs =>
    { d with store := (d.store.putImmutableTtl now value ttlSecs).2 }
  | .putRecord r probe => { d with store := (d.store.putRecord r probe).2 }
  | .upsert info => { d with peers := d.peers.upsert info }
  | .remove id => { d with peers := d.peers.remove id }
  | .flush room => (d.flush room).2

/-- The operations of a run: records with a time to live other than zero, payloads that a frame can
hold, and flushes that succeed. -/
def Proper (d : DataDir) : DirOp → Prop
  | .putImmutableTtl now value ttlSecs =>
    ttlSecs ≠ 0 ∧ (Store.immutableRecord now value ttlSecs).encode.length < 2 ^ 32
  | .putRecord r _ => r.ttlSecs ≠ 0 ∧ r.encode.length < 2 ^ 32
  | .upsert info => (Peerstore.rowPayload info).length < 2 ^ 32
  | .remove _ => True
  | .flush room => (d.flush room).1 = .ok ()

instance (d : DataDir) : ∀ op, Decidable (d.Proper op)
  | .putImmutableTtl _ _ _ => inferInstanceAs (Decidable (_ ∧ _))
  | .putRecord _ _ => inferInstanceAs (Decidable (_ ∧ _))
  | .upsert _ => inferInstanceAs (Decidable (_ < _))
  | .remove _ => inferInstanceAs (Decidable True)
  | .flush _ => inferInstanceAs (Decidable (_ = _))

end DataDir

/-! ## The records as a log writes them -/

omit [Crates] in
/-- Writing the fields of a record and reading them loses a time to live of zero, and nothing else
that is written. -/
theorem recordFromProto_toProto (now : UInt64) (r : StoredRecord) :
    recordFromProto now r.toProto = some { r with
      ttlSecs := if r.ttlSecs = 0 then mutableTtlSecs else r.ttlSecs
      storedUnix := now
      cache := false } := by
  have hkey : Key.fromBytes r.toProto.key = some r.key := Key.fromBytes_val r.key
  rw [recordFromProto, hkey]
  rfl

namespace Store

/-- The records by key, with the fields that are written. -/
def recordView (s : Store) (k : Key) : Option Proto.Record :=
  (s.records.lookup k).map StoredRecord.toProto

/-- What a frame does to the records when the log is read at time `now`. -/
def frameEffect (now : UInt64) (f : Framing.Frame) : Option (Key × Option Proto.Record) :=
  (frameRecord now f).map fun r ↦ (r.key, some r.toProto)

/-- The frame of a queued record. -/
def recordFrame (payload : Bytes) : Framing.Frame := ⟨typeRecord, payload⟩

omit [Crates] in
theorem recordView_insertRecord (s : Store) (r : StoredRecord) :
    (s.insertRecord r).recordView = Function.update s.recordView r.key (some r.toProto) := by
  funext k
  rw [recordView, records_insertRecord, HashMap.lookup_insert_of, Function.update_apply]
  by_cases h : k = r.key
  · rw [if_pos h, if_pos h, Option.map_some]
  · rw [if_neg h, if_neg h, recordView]

theorem recordView_foldl (now : UInt64) (fs : List Framing.Frame) (s : Store) :
    ((fs.filterMap (frameRecord now)).foldl insertRecord s).recordView
      = Overwrites.replay (frameEffect now) s.recordView fs := by
  induction fs generalizing s with
  | nil => rfl
  | cons f fs ih =>
    have hcons : Overwrites.replay (frameEffect now) s.recordView (f :: fs)
        = Overwrites.replay (frameEffect now)
          (Overwrites.apply (frameEffect now) s.recordView f) fs := rfl
    rw [hcons, Overwrites.apply, frameEffect]
    rcases hf : frameRecord now f with _ | r
    · rw [List.filterMap_cons_none hf, ih]
      rfl
    · rw [List.filterMap_cons_some hf, List.foldl_cons, ih, recordView_insertRecord]
      rfl

/-- An authentic record is read back from its frame, as it was up to the time of storing and the
cache mark. -/
theorem frameRecord_recordFrame (hcodec : Crates.record.RoundTrips) (now : UInt64)
    {r : StoredRecord} (hauth : r.authentic = true) (httl : r.ttlSecs ≠ 0) :
    frameRecord now (recordFrame r.encode) = some { r with storedUnix := now, cache := false } := by
  have hfrom : recordFromProto now r.toProto
      = some { r with storedUnix := now, cache := false } := by
    rw [recordFromProto_toProto, if_neg httl]
  have hsame : ({ r with storedUnix := now, cache := false } : StoredRecord).authentic = true :=
    hauth
  rw [frameRecord, recordFrame, StoredRecord.encode, hcodec]
  simp only [ne_eq, not_true_eq_false, if_false, hfrom, hsame, if_true]

theorem frameEffect_recordFrame (hcodec : Crates.record.RoundTrips) (now : UInt64)
    {r : StoredRecord} (hauth : r.authentic = true) (httl : r.ttlSecs ≠ 0) :
    frameEffect now (recordFrame r.encode) = some (r.key, some r.toProto) := by
  rw [frameEffect, frameRecord_recordFrame hcodec now hauth httl]
  rfl

theorem frameEffect_of_ne {now : UInt64} {f : Framing.Frame} (h : f.ty ≠ typeRecord) :
    frameEffect now f = none := by
  rw [frameEffect, frameRecord, if_pos h]
  rfl

omit [Crates] in
/-- The queued records go behind the queued rows. -/
theorem flushWal_snd (s : Store) (p : Peerstore) :
    (s.flushWal p).2 = { p with pending := p.pending ++ s.pendingWal.map recordFrame } := by
  rw [flushWal]
  generalize s.pendingWal = l
  induction l generalizing p with
  | nil => simp
  | cons b l ih =>
    rw [List.foldl_cons, ih]
    simp [Peerstore.append, recordFrame]

end Store

/-! ## The invariant -/

namespace DataDir

/-- The frames that are queued, in the order in which the next flush writes them. -/
def queue (d : DataDir) : List Framing.Frame :=
  d.peers.pending ++ d.store.pendingWal.map Store.recordFrame

/-- The log holds the frames `fs`, and these and the queued ones replay to the records in memory. -/
structure Logged (now : UInt64) (d : DataDir) (fs : List Framing.Frame) : Prop where
  dir : d.store.dir.isSome = true
  wal : d.peers.wal = some (fs.flatMap (Framing.frameBytes crc32))
  short : ∀ f ∈ fs ++ d.queue, f.payload.length < 2 ^ 32
  replays : d.store.recordView
    = Overwrites.replay (Store.frameEffect now) (fun _ ↦ none) (fs ++ d.queue)

theorem logged_empty (start now : UInt64) (dir : String) : Logged now (empty start dir) [] where
  dir := rfl
  wal := rfl
  short := by
    intro f hf
    cases hf
  replays := rfl

namespace Logged

variable {now : UInt64} {d : DataDir} {fs : List Framing.Frame}

theorem stored (h : Logged now d fs) (hcodec : Crates.record.RoundTrips) {r : StoredRecord}
    (hauth : r.authentic = true) (httl : r.ttlSecs ≠ 0) (hlen : r.encode.length < 2 ^ 32) :
    Logged now { d with store := (d.store.queueRecord r).insertRecord r } fs := by
  have hqueued : d.store.queueRecord r
      = { d.store with pendingWal := d.store.pendingWal ++ [r.encode] } := by
    rw [Store.queueRecord, if_pos h.dir]
  have hqueue : queue { d with store := (d.store.queueRecord r).insertRecord r }
      = d.queue ++ [Store.recordFrame r.encode] := by
    simp [queue, hqueued, Store.insertRecord]
  refine ⟨?_, h.wal, ?_, ?_⟩
  · rw [hqueued]
    exact h.dir
  · intro f hf
    rw [hqueue, ← List.append_assoc, List.mem_append, List.mem_singleton] at hf
    rcases hf with hf | rfl
    · exact h.short f hf
    · exact hlen
  · have hview : (d.store.queueRecord r).recordView = d.store.recordView := by
      rw [hqueued]
      rfl
    rw [hqueue, ← List.append_assoc, Overwrites.replay_append _ (fs ++ d.queue),
      Overwrites.replay_singleton, ← h.replays, Overwrites.apply,
      Store.frameEffect_recordFrame hcodec now hauth httl, Store.recordView_insertRecord, hview]

/-- A put keeps the log in step, if its record has a time to live and fits in a frame. -/
theorem put (h : Logged now d fs) (hcodec : Crates.record.RoundTrips) {op : StoreOp}
    (hput : op.IsPut) (hproper : ∀ r, op.inserted d.store = some r →
      r.ttlSecs ≠ 0 ∧ r.encode.length < 2 ^ 32) :
    Logged now { d with store := op.exec d.store } fs := by
  rw [op.exec_put d.store hput]
  rcases hr : op.inserted d.store with _ | r
  · exact h
  · obtain ⟨httl, hlen⟩ := hproper r hr
    exact h.stored hcodec (StoreOp.accepts_of_inserted hr).authentic httl hlen

/-- A row of the peer index goes between the queued rows and the queued records. -/
theorem row (h : Logged now d fs) {p : Peerstore} {f : Framing.Frame}
    (hwal : p.wal = d.peers.wal) (hpending : p.pending = d.peers.pending ++ [f])
    (hty : f.ty ≠ Store.typeRecord) (hlen : f.payload.length < 2 ^ 32) :
    Logged now { d with peers := p } fs := by
  have hqueue : fs ++ queue { d with peers := p }
      = fs ++ d.peers.pending ++ [f] ++ d.store.pendingWal.map Store.recordFrame := by
    simp [queue, hpending]
  have hold : fs ++ d.peers.pending ++ d.store.pendingWal.map Store.recordFrame
      = fs ++ d.queue := by
    rw [queue, List.append_assoc]
  refine ⟨h.dir, hwal.trans h.wal, ?_, ?_⟩
  · intro g hg
    rw [hqueue] at hg
    have hcases : g ∈ fs ++ d.queue ∨ g = f := by
      rw [← hold]
      simp only [List.mem_append, List.mem_singleton] at hg ⊢
      tauto
    rcases hcases with hg | rfl
    · exact h.short g hg
    · exact hlen
  · rw [hqueue, Overwrites.replay_insert_inert _ (Store.frameEffect_of_ne hty), hold]
    exact h.replays

theorem flush (h : Logged now d fs) {room : Option ℕ} (hok : (d.flush room).1 = .ok ()) :
    Logged now (d.flush room).2 (fs ++ d.queue) ∧ (d.flush room).2.queue = [] := by
  have hpend : (d.store.flushWal d.peers).2 = { d.peers with pending := d.queue } :=
    Store.flushWal_snd d.store d.peers
  have hwal : (d.store.flushWal d.peers).2.wal = some (fs.flatMap (Framing.frameBytes crc32)) := by
    rw [hpend]
    exact h.wal
  have hpeers := Peerstore.flush_of_ok hwal hok
  have hflush : (d.flush room).2 = ⟨d.store.drainWal, { d.peers with
      pending := [], wal := some ((fs ++ d.queue).flatMap (Framing.frameBytes crc32)) }⟩ := by
    have hsnd : (d.flush room).2
        = ⟨d.store.drainWal, ((d.store.flushWal d.peers).2.flush room).2⟩ := rfl
    rw [hsnd, hpeers, hpend, List.flatMap_append]
  have hqueue : (d.flush room).2.queue = [] := by
    rw [hflush]
    rfl
  refine ⟨⟨?_, ?_, ?_, ?_⟩, hqueue⟩
  · rw [hflush]
    exact h.dir
  · rw [hflush]
  · rw [hqueue, List.append_nil]
    exact h.short
  · rw [hqueue, List.append_nil, hflush]
    exact h.replays

end Logged

/-- Every proper operation keeps the log in step with the records. -/
theorem logged_step (hcodec : Crates.record.RoundTrips) {now : UInt64} {d : DataDir} {op : DirOp}
    (h : ∃ fs, Logged now d fs) (hop : d.Proper op) : ∃ fs, Logged now (d.step op) fs := by
  obtain ⟨fs, h⟩ := h
  cases op with
  | putImmutableTtl t value ttlSecs =>
    have hput : (StoreOp.putImmutableTtl t value ttlSecs).IsPut := trivial
    refine ⟨fs, h.put hcodec hput fun r hr ↦ ?_⟩
    rw [StoreOp.inserted] at hr
    split_ifs at hr
    cases hr
    exact hop
  | putRecord r probe =>
    have hput : (StoreOp.putRecord r probe).IsPut := trivial
    refine ⟨fs, h.put hcodec hput fun q hq ↦ ?_⟩
    obtain ⟨-, -, -, rfl⟩ := StoreOp.inserted_putRecord_eq_some.mp hq
    exact hop
  | upsert info =>
    have hty : typeUpsert ≠ Store.typeRecord := by decide
    exact ⟨fs, h.row rfl rfl hty hop⟩
  | remove id =>
    have hty : typeTombstone ≠ Store.typeRecord := by decide
    have hlen : id.val.val.length < 2 ^ 32 := by
      rw [id.val.length_val]
      decide
    exact ⟨fs, h.row rfl rfl hty hlen⟩
  | flush room => exact ⟨fs ++ d.queue, (h.flush hop).1⟩

end DataDir

/-- **Recovery refines the records in memory.** After any run that ends with a flush, a store opened
over the log holds the same keys, and under each key a record with the same value, sequence, time to
live, not-before time, owner, signature, kind, namespace and salt: these are the fields of
`toProto`. -/
theorem recovers_records (hcodec : Crates.record.RoundTrips) (start now : UInt64) (dir : String)
    (ops : List DirOp) (room : Option ℕ)
    (h : Runs.Along DataDir.step DataDir.Proper (DataDir.empty start dir) (ops ++ [.flush room])) :
    let d := (ops ++ [DirOp.flush room]).foldl DataDir.step (DataDir.empty start dir)
    ∃ wal, d.peers.wal = some wal ∧
      ∀ k, ((Store.openDir now dir (some wal)).records.lookup k).map StoredRecord.toProto
        = (d.store.records.lookup k).map StoredRecord.toProto := by
  intro d
  obtain ⟨hops, hflush, -⟩ := Runs.along_append.mp h
  obtain ⟨fs, hlog⟩ := hops.invariant (fun _ _ ↦ DataDir.logged_step hcodec)
    ⟨[], DataDir.logged_empty start now dir⟩
  obtain ⟨hlog, hempty⟩ := hlog.flush hflush
  have hd : d = ((ops.foldl DataDir.step (DataDir.empty start dir)).flush room).2 := by
    rw [show d = (ops ++ [DirOp.flush room]).foldl DataDir.step (DataDir.empty start dir) from rfl,
      List.foldl_append]
    rfl
  rw [← hd] at hlog hempty
  refine ⟨_, hlog.wal, fun k ↦ ?_⟩
  have hreplays := hlog.replays
  have hshort := hlog.short
  rw [hempty, List.append_nil] at hreplays hshort
  rw [Store.openDir, Store.replayWal, Store.walRecords, Framing.frames_flatMap hshort]
  have hopen := Store.recordView_foldl now
    (fs ++ (ops.foldl DataDir.step (DataDir.empty start dir)).queue)
    { Store.new with dir := some dir }
  exact congrFun (hopen.trans hreplays.symm) k

end

section

open Sample

attribute [local instance] wireCrates

/-- A signed record, a rejected repetition of it, a peer that comes and goes, and a flush. -/
private def recoveryOps : List DirOp :=
  [.putRecord recordOne false, .upsert (PeerInfo.new ⟨Bytes32.fill 7⟩ (.ofV4 127 0 0 1 77)),
    .flush none, .putRecord recordOne false, .remove ⟨Bytes32.fill 7⟩]

theorem recovers_records_signed :
    ∃ wal, ((recoveryOps ++ [DirOp.flush none]).foldl DataDir.step
        (DataDir.empty 10 "data")).peers.wal = some wal ∧
      ∀ k, ((Store.openDir 500 "data" (some wal)).records.lookup k).map StoredRecord.toProto
        = (((recoveryOps ++ [DirOp.flush none]).foldl DataDir.step
          (DataDir.empty 10 "data")).store.records.lookup k).map StoredRecord.toProto :=
  recovers_records Proto.roundTrips_recordWire 10 500 "data" recoveryOps none (by decide +kernel)

end

end Molia
