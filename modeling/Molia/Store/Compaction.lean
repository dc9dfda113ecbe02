import Molia.Core.Wire
import Molia.General.Overwrites
import Molia.General.Runs
import Molia.Store.Peerstore

/-!
# Recovery of the peer index

A peer index is recovered from a snapshot and a log: first the snapshot is replayed, then the log.
Compaction writes a snapshot of the index in memory and empties the log, but keeps the queue; so the
entries that the next flush writes may repeat what the snapshot already holds. They do no harm,
because an entry overwrites one peer and replaying entries twice is replaying them once.

What a frame keeps of a peer is its id and its primary address. `view` is the index at that
resolution, and the invariant of a run is that the snapshot, the log and the queue, replayed in this
order, give the view of the index in memory.

The length of a payload is written in four bytes. A longer payload is written with its length cut
off, and the reader loses its way there; the last section shows a run that loses a peer so.
-/

namespace Molia

section

variable [Crates]

open Crates

/-! ## A directory in use -/

/-- An index and what `snapshot.bin` holds. -/
structure PeerDir where
  index : Peerstore
  snapshot : Bytes

/-- The calls on an index. The map may be iterated in any order at any time. -/
inductive PeerOp where
  | upsert (info : PeerInfo)
  | remove (id : NodeId)
  | appendRecord (payload : Bytes)
  | flush (room : Option ℕ)
  | compact
  | compactWithRecords (records : List Bytes)
  | reorder (r : HashMap.Reorder)

namespace PeerDir

/-- An index opened over an empty directory. -/
def empty : PeerDir where
  index := Peerstore.openDir [] []
  snapshot := []

/-- The directory after a compaction. -/
def ofCompacted (r : Bytes × Peerstore) : PeerDir := ⟨r.2, r.1⟩

def step (d : PeerDir) : PeerOp → PeerDir
  | .upsert info => { d with index := d.index.upsert info }
  | .remove id => { d with index := d.index.remove id }
  | .appendRecord payload => { d with index := d.index.append Store.typeRecord payload }
  | .flush room => { d with index := (d.index.flush room).2 }
  | .compact => ofCompacted (d.index.compact d.snapshot)
  | .compactWithRecords records => ofCompacted (d.index.compactWithRecords d.snapshot records)
  | .reorder r => { d with index := { d.index with peers := d.index.peers.reorder r } }

/-- The calls of a run: peers with at least one address, whose text parses back, and flushes that
succeed. -/
def Proper (d : PeerDir) : PeerOp → Prop
  | .upsert info => ∃ a ∈ info.primaryAddr, addrParse (addrDisplay a) = some a
  | .flush room => (d.index.flush room).1 = .ok ()
  | _ => True

/-- The payloads of a call fit in a frame. -/
def Fits : PeerOp → Prop
  | .upsert info => (Peerstore.rowPayload info).length < 2 ^ 32
  | .appendRecord payload => payload.length < 2 ^ 32
  | .compactWithRecords records => ∀ payload ∈ records, payload.length < 2 ^ 32
  | _ => True

end PeerDir

/-! ## The index at the resolution of a frame -/

namespace Peerstore

/-- The known ids, each with its primary address. -/
def view (peers : HashMap NodeId PeerInfo) (id : NodeId) : Option (Option SocketAddr) :=
  (peers.lookup id).map PeerInfo.primaryAddr

/-- What a frame does to the view. -/
def frameEffect (f : Framing.Frame) : Option (NodeId × Option (Option SocketAddr)) :=
  if f.ty = typeUpsert then
    match NodeId.fromBytes (f.payload.take 32) with
    | none => none
    | some id => (addrParse (f.payload.drop 32)).map fun addr ↦ (id, some (some addr))
  else if f.ty = typeTombstone then (NodeId.fromBytes f.payload).map fun id ↦ (id, none)
  else none

omit [Crates] in
theorem view_insert (peers : HashMap NodeId PeerInfo) (id : NodeId) (info : PeerInfo) :
    view (peers.insert id info) = Function.update (view peers) id (some info.primaryAddr) := by
  funext id'
  rw [view, HashMap.lookup_insert_of, Function.update_apply]
  by_cases h : id' = id
  · rw [if_pos h, if_pos h, Option.map_some]
  · rw [if_neg h, if_neg h, view]

omit [Crates] in
theorem view_erase (peers : HashMap NodeId PeerInfo) (id : NodeId) :
    view (peers.erase id) = Function.update (view peers) id none := by
  funext id'
  rw [view, HashMap.lookup_erase_of, Function.update_apply]
  by_cases h : id' = id
  · rw [if_pos h, if_pos h, Option.map_none]
  · rw [if_neg h, if_neg h, view]

theorem view_applyFrame (peers : HashMap NodeId PeerInfo) (f : Framing.Frame) :
    view (applyFrame peers f) = Overwrites.apply frameEffect (view peers) f := by
  rw [applyFrame, Overwrites.apply, frameEffect]
  by_cases hup : f.ty = typeUpsert
  · rw [if_pos hup, if_pos hup]
    rcases NodeId.fromBytes (f.payload.take 32) with _ | id
    · rfl
    · rcases addrParse (f.payload.drop 32) with _ | addr
      · rfl
      · exact view_insert peers id (PeerInfo.new id addr)
  · rw [if_neg hup, if_neg hup]
    by_cases htomb : f.ty = typeTombstone
    · rw [if_pos htomb, if_pos htomb]
      rcases NodeId.fromBytes f.payload with _ | id
      · rfl
      · exact view_erase peers id
    · rw [if_neg htomb, if_neg htomb]

theorem view_foldl (fs : List Framing.Frame) (peers : HashMap NodeId PeerInfo) :
    view (fs.foldl applyFrame peers) = Overwrites.replay frameEffect (view peers) fs := by
  induction fs generalizing peers with
  | nil => rfl
  | cons f fs ih =>
    rw [List.foldl_cons, ih, view_applyFrame]
    rfl

theorem frameEffect_row {info : PeerInfo} {a : SocketAddr} (ha : info.primaryAddr = some a)
    (hparse : addrParse (addrDisplay a) = some a) :
    frameEffect ⟨typeUpsert, rowPayload info⟩ = some (info.id, some info.primaryAddr) := by
  have hrow : rowPayload info = info.id.val.val ++ addrDisplay a := by
    rw [rowPayload, ha]
    rfl
  have hlen : info.id.val.val.length = 32 := info.id.val.length_val
  have htake : (rowPayload info).take 32 = info.id.val.val := by
    rw [hrow, ← hlen, List.take_left]
  have hdrop : (rowPayload info).drop 32 = addrDisplay a := by
    rw [hrow, ← hlen, List.drop_left]
  simp only [frameEffect, if_true, htake, NodeId.fromBytes_val, hdrop, hparse, Option.map_some, ha]

theorem frameEffect_tombstone (id : NodeId) :
    frameEffect ⟨typeTombstone, id.val.val⟩ = some (id, none) := by
  have hne : typeTombstone ≠ typeUpsert := by decide
  simp only [frameEffect, if_neg hne, if_true, NodeId.fromBytes_val, Option.map_some]

theorem frameEffect_record (payload : Bytes) :
    frameEffect ⟨Store.typeRecord, payload⟩ = none := by
  have hup : Store.typeRecord ≠ typeUpsert := by decide
  have htomb : Store.typeRecord ≠ typeTombstone := by decide
  simp only [frameEffect, if_neg hup, if_neg htomb]

/-! ## Snapshots -/

/-- Every peer stands under its own id and has a row that can be read back. -/
def Rows (peers : HashMap NodeId PeerInfo) : Prop :=
  ∀ id info, peers.lookup id = some info → info.id = id ∧
    (∃ a ∈ info.primaryAddr, addrParse (addrDisplay a) = some a) ∧
      (rowPayload info).length < 2 ^ 32

theorem Rows.insert {peers : HashMap NodeId PeerInfo} (h : Rows peers) {info : PeerInfo}
    (haddr : ∃ a ∈ info.primaryAddr, addrParse (addrDisplay a) = some a)
    (hlen : (rowPayload info).length < 2 ^ 32) : Rows (peers.insert info.id info) := by
  intro id info' hlookup
  rw [HashMap.lookup_insert_of] at hlookup
  split at hlookup
  · rename_i hid
    obtain rfl := Option.some.inj hlookup
    exact ⟨hid.symm, haddr, hlen⟩
  · exact h id info' hlookup

theorem Rows.erase {peers : HashMap NodeId PeerInfo} (h : Rows peers) (id : NodeId) :
    Rows (peers.erase id) := by
  intro id' info hlookup
  rw [HashMap.lookup_erase_of] at hlookup
  split at hlookup
  · cases hlookup
  · exact h id' info hlookup

theorem Rows.reorder {peers : HashMap NodeId PeerInfo} (h : Rows peers) (r : HashMap.Reorder) :
    Rows (peers.reorder r) := by
  intro id info hlookup
  rw [HashMap.lookup_reorder] at hlookup
  exact h id info hlookup

theorem Rows.short {p : Peerstore} (h : Rows p.peers) {records : List Bytes}
    (hrecords : ∀ payload ∈ records, payload.length < 2 ^ 32) :
    ∀ f ∈ p.snapshotFrames records, f.payload.length < 2 ^ 32 := by
  intro f hf
  rcases List.mem_append.mp hf with hf | hf
  · obtain ⟨info, hinfo, rfl⟩ := List.mem_map.mp hf
    obtain ⟨e, he, rfl⟩ := List.mem_map.mp hinfo
    exact (h e.1 e.2 (AList.mem_lookup_iff.mpr he)).2.2
  · obtain ⟨payload, hpayload, rfl⟩ := List.mem_map.mp hf
    exact hrecords payload hpayload

theorem replay_snapshotFrames {p : Peerstore} (h : Rows p.peers) (records : List Bytes) :
    Overwrites.replay frameEffect (fun _ ↦ none) (p.snapshotFrames records) = view p.peers := by
  have hinert : ∀ f ∈ records.map fun payload ↦ (⟨Store.typeRecord, payload⟩ : Framing.Frame),
      frameEffect f = none := by
    intro f hf
    obtain ⟨payload, -, rfl⟩ := List.mem_map.mp hf
    exact frameEffect_record payload
  have hrow : ∀ e ∈ p.peers.entries, frameEffect ⟨typeUpsert, rowPayload e.2⟩
      = some (e.1, some e.2.primaryAddr) := by
    intro e he
    obtain ⟨hid, ⟨a, ha, hparse⟩, -⟩ := h e.1 e.2 (AList.mem_lookup_iff.mpr he)
    rw [frameEffect_row ha hparse, hid]
  rw [snapshotFrames, Overwrites.replay_append, Overwrites.replay_of_inert _ hinert,
    HashMap.values, List.map_map]
  funext id
  rcases hlookup : p.peers.lookup id with _ | info
  · have hother : ∀ f ∈ p.peers.entries.map
        ((fun info ↦ (⟨typeUpsert, rowPayload info⟩ : Framing.Frame)) ∘ Sigma.snd),
        ∀ v, frameEffect f ≠ some (id, v) := by
      intro f hf v heq
      obtain ⟨e, he, rfl⟩ := List.mem_map.mp hf
      rw [Function.comp_apply, hrow e he] at heq
      obtain rfl : e.1 = id := congrArg Prod.fst (Option.some.inj heq)
      rw [AList.mem_lookup_iff.mpr he] at hlookup
      cases hlookup
    rw [Overwrites.replay_apply, Overwrites.lastWrite_eq_none hother, view, hlookup]
    rfl
  · have hmem : (⟨id, info⟩ : (_ : NodeId) × PeerInfo) ∈ p.peers.entries :=
      AList.mem_lookup_iff.mp hlookup
    rw [view, hlookup, Option.map_some]
    exact Overwrites.replay_map_of_nodup hrow p.peers.nodupKeys hmem _

end Peerstore

/-! ## The invariant -/

namespace PeerDir

/-- Opening the directory again gives the same ids, each with the same primary address. -/
def Reopens (d : PeerDir) : Prop :=
  ∃ wal, d.index.wal = some wal ∧
    ∀ id, ((Peerstore.openDir d.snapshot wal).peers.lookup id).map PeerInfo.primaryAddr
      = (d.index.peers.lookup id).map PeerInfo.primaryAddr

/-- The snapshot holds the frames `ss` and the log the frames `fs`; with the queue behind them they
replay to the view of the index. -/
structure Logged (d : PeerDir) (ss fs : List Framing.Frame) : Prop where
  snapshot : d.snapshot = ss.flatMap (Framing.frameBytes crc32)
  wal : d.index.wal = some (fs.flatMap (Framing.frameBytes crc32))
  short : ∀ f ∈ ss ++ fs ++ d.index.pending, f.payload.length < 2 ^ 32
  rows : Peerstore.Rows d.index.peers
  replays : Peerstore.view d.index.peers
    = Overwrites.replay Peerstore.frameEffect (fun _ ↦ none) (ss ++ fs ++ d.index.pending)

theorem logged_empty : Logged empty [] [] where
  snapshot := rfl
  wal := rfl
  short := by
    intro f hf
    cases hf
  rows := by
    intro id info h
    cases h
  replays := rfl

namespace Logged

variable {d : PeerDir} {ss fs : List Framing.Frame}

/-- A call that queues one frame and changes the view as the frame does. -/
theorem push (h : Logged d ss fs) {f : Framing.Frame} {p : Peerstore} (hwal : p.wal = d.index.wal)
    (hpending : p.pending = d.index.pending ++ [f]) (hlen : f.payload.length < 2 ^ 32)
    (hrows : Peerstore.Rows p.peers)
    (hview : Peerstore.view p.peers
      = Overwrites.apply Peerstore.frameEffect (Peerstore.view d.index.peers) f) :
    Logged { d with index := p } ss fs where
  snapshot := h.snapshot
  wal := hwal.trans h.wal
  short := by
    intro g hg
    rw [hpending, ← List.append_assoc, List.mem_append, List.mem_singleton] at hg
    rcases hg with hg | rfl
    · exact h.short g hg
    · exact hlen
  rows := hrows
  replays := by
    rw [hview, hpending, ← List.append_assoc,
      Overwrites.replay_append _ (ss ++ fs ++ d.index.pending), Overwrites.replay_singleton,
      ← h.replays]

theorem flush (h : Logged d ss fs) {room : Option ℕ} (hok : (d.index.flush room).1 = .ok ()) :
    Logged { d with index := (d.index.flush room).2 } ss (fs ++ d.index.pending) ∧
      (d.index.flush room).2.pending = [] := by
  have hflush := Peerstore.flush_of_ok h.wal hok
  rw [hflush]
  refine ⟨⟨h.snapshot, ?_, ?_, h.rows, ?_⟩, rfl⟩
  · rw [List.flatMap_append]
  · rw [List.append_nil, ← List.append_assoc]
    exact h.short
  · rw [List.append_nil, ← List.append_assoc]
    exact h.replays

/-- The queue is replayed over a snapshot that already holds its effect. -/
theorem compact (h : Logged d ss fs) {records : List Bytes}
    (hrecords : ∀ payload ∈ records, payload.length < 2 ^ 32) :
    Logged (ofCompacted (d.index.compactWithRecords d.snapshot records))
      (d.index.snapshotFrames records) [] := by
  have hcompact : d.index.compactWithRecords d.snapshot records
      = ((d.index.snapshotFrames records).flatMap (Framing.frameBytes crc32),
        { d.index with wal := some [] }) := by
    rw [Peerstore.compactWithRecords, h.wal]
  rw [hcompact]
  refine ⟨rfl, rfl, ?_, h.rows, ?_⟩
  · intro f hf
    rw [List.append_nil, List.mem_append] at hf
    rcases hf with hf | hf
    · exact h.rows.short hrecords f hf
    · exact h.short f (List.mem_append_right _ hf)
  · have hsnap := Peerstore.replay_snapshotFrames h.rows records
    have hview := h.replays
    rw [Overwrites.replay_append] at hview
    -- the last write to an id decides, so replaying the queue once more changes nothing
    have htwice : Overwrites.replay Peerstore.frameEffect (Peerstore.view d.index.peers)
        d.index.pending = Peerstore.view d.index.peers := by
      rw [hview, Overwrites.replay_replay]
    rw [List.append_nil, Overwrites.replay_append, hsnap]
    exact htwice.symm

theorem reorder (h : Logged d ss fs) (r : HashMap.Reorder) :
    Logged { d with index := { d.index with peers := d.index.peers.reorder r } } ss fs where
  snapshot := h.snapshot
  wal := h.wal
  short := h.short
  rows := h.rows.reorder r
  replays := by
    have hview : Peerstore.view (d.index.peers.reorder r) = Peerstore.view d.index.peers := by
      funext id
      rw [Peerstore.view, HashMap.lookup_reorder, Peerstore.view]
    exact hview.trans h.replays

theorem reopens (h : Logged d ss fs) (hpending : d.index.pending = []) : d.Reopens := by
  have hshort := h.short
  have hreplays := h.replays
  rw [hpending, List.append_nil] at hshort hreplays
  refine ⟨_, h.wal, fun id ↦ ?_⟩
  have hss : ∀ f ∈ ss, f.payload.length < 2 ^ 32 := fun f hf ↦
    hshort f (List.mem_append_left _ hf)
  have hfs : ∀ f ∈ fs, f.payload.length < 2 ^ 32 := fun f hf ↦
    hshort f (List.mem_append_right _ hf)
  have hview : Peerstore.view (fs.foldl Peerstore.applyFrame (ss.foldl Peerstore.applyFrame ∅))
      = Peerstore.view d.index.peers := by
    rw [← List.foldl_append, Peerstore.view_foldl, hreplays]
    rfl
  rw [Peerstore.openDir, Peerstore.replay, Peerstore.replay, h.snapshot,
    Framing.frames_flatMap hss, Framing.frames_flatMap hfs]
  exact congrFun hview id

end Logged

theorem logged_step {d : PeerDir} {op : PeerOp} (h : ∃ ss fs, Logged d ss fs)
    (hop : d.Proper op ∧ Fits op) : ∃ ss fs, Logged (d.step op) ss fs := by
  obtain ⟨ss, fs, h⟩ := h
  obtain ⟨hproper, hfits⟩ := hop
  cases op with
  | upsert info =>
    obtain ⟨a, ha, hparse⟩ := hproper
    refine ⟨ss, fs, h.push rfl rfl hfits (h.rows.insert ⟨a, ha, hparse⟩ hfits) ?_⟩
    rw [Overwrites.apply, Peerstore.frameEffect_row ha hparse]
    exact Peerstore.view_insert d.index.peers info.id info
  | remove id =>
    have hlen : id.val.val.length < 2 ^ 32 := by
      rw [id.val.length_val]
      decide
    refine ⟨ss, fs, h.push rfl rfl hlen (h.rows.erase id) ?_⟩
    rw [Overwrites.apply, Peerstore.frameEffect_tombstone]
    exact Peerstore.view_erase d.index.peers id
  | appendRecord payload =>
    refine ⟨ss, fs, h.push rfl rfl hfits h.rows ?_⟩
    rw [Overwrites.apply, Peerstore.frameEffect_record]
    rfl
  | flush room => exact ⟨ss, fs ++ d.index.pending, (h.flush hproper).1⟩
  | compact =>
    have hnil : ∀ payload ∈ ([] : List Bytes), payload.length < 2 ^ 32 := by
      intro payload hmem
      cases hmem
    exact ⟨_, _, h.compact hnil⟩
  | compactWithRecords records => exact ⟨_, _, h.compact hfits⟩
  | reorder r => exact ⟨ss, fs, h.reorder r⟩

end PeerDir

/-- **Recovery of the peer index.** After any run of calls with payloads that fit in a frame, with
compactions at any moment and a flush at the end, opening the directory again gives the same ids,
each with the same primary address. -/
theorem recovers_peers (ops : List PeerOp) (room : Option ℕ)
    (h : Runs.Along PeerDir.step (fun d op ↦ d.Proper op ∧ PeerDir.Fits op) PeerDir.empty
      (ops ++ [.flush room])) :
    ((ops ++ [PeerOp.flush room]).foldl PeerDir.step PeerDir.empty).Reopens := by
  obtain ⟨hops, hflush, -⟩ := Runs.along_append.mp h
  obtain ⟨ss, fs, hlog⟩ := hops.invariant (fun _ _ ↦ PeerDir.logged_step)
    ⟨[], [], PeerDir.logged_empty⟩
  obtain ⟨hlog, hempty⟩ := hlog.flush hflush.1
  rw [List.foldl_append]
  exact hlog.reopens hempty

end

section

open Sample

attribute [local instance] wireCrates

/-- A peer at `127.0.0.1:77`. -/
private def rowPeer : PeerInfo := PeerInfo.new ⟨Bytes32.fill 7⟩ (.ofV4 127 0 0 1 77)

/-- A compaction while an upsert and a record are queued. -/
private def queuedOps : List PeerOp :=
  [.upsert rowPeer, .appendRecord [1, 2], .compactWithRecords [[3]]]

theorem recovers_peers_queued :
    ((queuedOps ++ [PeerOp.flush none]).foldl PeerDir.step PeerDir.empty).Reopens :=
  recovers_peers queuedOps none
    ⟨⟨⟨.ofV4 127 0 0 1 77, rfl, by decide +kernel⟩, show _ < _ by decide +kernel⟩,
      ⟨trivial, show _ < _ by decide⟩,
      ⟨trivial, show ∀ payload ∈ [[3]], _ by decide⟩, ⟨rfl, trivial⟩, trivial⟩

/-! ## A payload that does not fit -/

private theorem exists_payload {n : ℕ} (hn : 0 < n) :
    ∃ payload : Bytes, payload.length = n ∧ Framing.leValue (payload.take 4) ≠ 0 := by
  refine ⟨1 :: List.replicate (n - 1) 0, ?_, ?_⟩
  · rw [List.length_cons, List.length_replicate, Nat.sub_add_cancel hn]
  · rw [show (4 : ℕ) = 3 + 1 from rfl, List.take_succ_cons, Framing.leValue]
    exact Nat.ne_of_gt (Nat.add_pos_left Nat.one_pos _)

/-- The log after a payload of `2 ^ 32` bytes and a peer: the reader finds no frame in it. -/
private theorem frames_cut {payload : Bytes} (hlen : payload.length = 2 ^ 32)
    (hhead : Framing.leValue (payload.take 4) ≠ 0) (rest : Bytes) :
    Framing.frames Crates.crc32
      (Framing.frameBytes Crates.crc32 ⟨Store.typeRecord, payload⟩ ++ rest) = [] := by
  have hcrc : (Crates.crc32 []).toNat = 0 := by decide +kernel
  rw [Framing.frames_eq, Framing.nextFrame_frameBytes_of_cut hlen (by rw [hcrc]; exact hhead.symm)]

/-- After a record payload of `2 ^ 32` bytes the peers that follow it in the log are not
recovered. -/
theorem recovers_peers_fails :
    ¬∀ (_ : Crates) (ops : List PeerOp) (room : Option ℕ),
      Runs.Along PeerDir.step PeerDir.Proper PeerDir.empty (ops ++ [.flush room]) →
        ((ops ++ [PeerOp.flush room]).foldl PeerDir.step PeerDir.empty).Reopens := by
  intro h
  obtain ⟨payload, hlen, hhead⟩ := exists_payload (Nat.two_pow_pos 32)
  have hrun : Runs.Along PeerDir.step PeerDir.Proper PeerDir.empty
      ([.appendRecord payload, .upsert rowPeer] ++ [.flush none]) :=
    ⟨trivial, ⟨.ofV4 127 0 0 1 77, rfl, by decide +kernel⟩, rfl, trivial⟩
  obtain ⟨wal, hwal, hview⟩ := h wireCrates _ none hrun
  have hbytes : wal = Framing.frameBytes Crates.crc32 ⟨Store.typeRecord, payload⟩
      ++ (Framing.frameBytes Crates.crc32 ⟨typeUpsert, Peerstore.rowPayload rowPeer⟩ ++ []) :=
    (Option.some.inj hwal).symm
  have hnone : (Peerstore.openDir [] wal).peers = ∅ := by
    rw [Peerstore.openDir, Peerstore.replay, hbytes, frames_cut hlen hhead]
    rfl
  have hid := hview ⟨Bytes32.fill 7⟩
  have hsnap : (([PeerOp.appendRecord payload, .upsert rowPeer] ++ [PeerOp.flush none]).foldl
      PeerDir.step PeerDir.empty).snapshot = [] := rfl
  rw [hsnap, hnone] at hid
  cases hid

end

end Molia
