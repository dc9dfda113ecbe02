import Molia.Core.Wire
import Molia.General.Runs
import Molia.Store.Peerstore

/-!
# A log with a torn tail

A crash in the middle of a write leaves a part of a frame at the end of the log. Opening the
directory applies the frames before that part and ignores the part. But the file is opened for
appending, and nothing is cut off: what is flushed later goes behind the torn bytes, and the next
recovery reads the torn bytes and the later frames as one stretch.

`applies_after_torn_iff` is what remains of durability. The next recovery applies the earlier and
the later frames exactly if the torn bytes and the later ones read the same with the torn bytes
behind instead of in front. That is so if there are no torn bytes, or no later frames; otherwise it
takes a coincidence, as between a run of zero bytes and an empty frame of type zero.
-/

namespace Molia

section

variable [Crates]

open Crates

/-- A recovery from the log, of the peers and of the records, applies these frames in this order. -/
structure Applies (wal : Bytes) (fs : List Framing.Frame) : Prop where
  reads : Framing.frames crc32 wal = fs
  peers : ∀ peers, Peerstore.replay peers wal = fs.foldl Peerstore.applyFrame peers
  records : ∀ (s : Store) (now : UInt64),
    s.replayWal now wal = (fs.filterMap (Store.frameRecord now)).foldl Store.insertRecord s

theorem applies_iff {wal : Bytes} {fs : List Framing.Frame} :
    Applies wal fs ↔ Framing.frames crc32 wal = fs := by
  constructor
  · exact Applies.reads
  · rintro rfl
    exact ⟨rfl, fun _ ↦ rfl, fun _ _ ↦ rfl⟩

namespace Peerstore

/-- Queue some frames and flush. -/
def writeBatch (p : Peerstore) (batch : List Framing.Frame × Option ℕ) :
    Except Unit Unit × Peerstore :=
  (batch.1.foldl (fun p f ↦ p.append f.ty f.payload) p).flush batch.2

/-- The index after a batch. -/
def afterBatch (p : Peerstore) (batch : List Framing.Frame × Option ℕ) : Peerstore :=
  (p.writeBatch batch).2

/-- The batch is written completely. -/
def Written (p : Peerstore) (batch : List Framing.Frame × Option ℕ) : Prop :=
  (p.writeBatch batch).1 = .ok ()

instance (p : Peerstore) (batch : List Framing.Frame × Option ℕ) : Decidable (p.Written batch) :=
  inferInstanceAs (Decidable (_ = _))

omit [Crates] in
theorem foldl_append (fs : List Framing.Frame) (p : Peerstore) :
    fs.foldl (fun p f ↦ p.append f.ty f.payload) p = { p with pending := p.pending ++ fs } := by
  induction fs generalizing p with
  | nil => rw [List.foldl_nil, List.append_nil]
  | cons f fs ih =>
    rw [List.foldl_cons, ih, append, List.append_assoc]
    rfl

theorem afterBatch_of_written {p : Peerstore} {batch : List Framing.Frame × Option ℕ}
    {wal : Bytes} (hwal : p.wal = some wal) (hpending : p.pending = [])
    (h : p.Written batch) :
    (p.afterBatch batch).wal = some (wal ++ batch.1.flatMap (Framing.frameBytes crc32)) ∧
      (p.afterBatch batch).pending = [] := by
  rw [Written, writeBatch, foldl_append] at h
  have hflush := flush_of_ok (p := { p with pending := p.pending ++ batch.1 }) hwal h
  rw [afterBatch, writeBatch, foldl_append, hflush, hpending]
  exact ⟨rfl, rfl⟩

theorem wal_foldl_afterBatch {batches : List (List Framing.Frame × Option ℕ)} {p : Peerstore}
    {wal : Bytes} (hwal : p.wal = some wal) (hpending : p.pending = [])
    (h : Runs.Along afterBatch Written p batches) :
    (batches.foldl afterBatch p).wal
      = some (wal ++ (batches.flatMap Prod.fst).flatMap (Framing.frameBytes crc32)) := by
  induction batches generalizing p wal with
  | nil => rw [List.foldl_nil, List.flatMap_nil, List.flatMap_nil, List.append_nil, hwal]
  | cons b batches ih =>
    obtain ⟨hwal', hpending'⟩ := afterBatch_of_written hwal hpending h.1
    rw [List.foldl_cons, ih hwal' hpending' h.2, List.flatMap_cons, List.flatMap_append,
      List.append_assoc]

end Peerstore

/-- **What a torn tail leaves of durability.** The log holds the frames `fs` and a part of a further
frame. Opening the directory applies `fs`. After any batches of frames have been written to the
reopened log, the next recovery applies `fs` and those frames exactly if the torn bytes might as
well stand behind the later frames. -/
theorem applies_after_torn_iff {fs : List Framing.Frame} {f : Framing.Frame} {torn : Bytes}
    (hfs : ∀ g ∈ fs, g.payload.length < 2 ^ 32) (hf : f.payload.length < 2 ^ 32)
    (htorn : torn <+: Framing.frameBytes crc32 f) (hne : torn ≠ Framing.frameBytes crc32 f)
    (snapshot : Bytes) (batches : List (List Framing.Frame × Option ℕ))
    (hlater : ∀ g ∈ batches.flatMap Prod.fst, g.payload.length < 2 ^ 32)
    (hwritten : Runs.Along Peerstore.afterBatch Peerstore.Written
      (Peerstore.openDir snapshot (fs.flatMap (Framing.frameBytes crc32) ++ torn)) batches) :
    let crashed := fs.flatMap (Framing.frameBytes crc32) ++ torn
    let later := batches.flatMap Prod.fst
    let bytes := later.flatMap (Framing.frameBytes crc32)
    Applies crashed fs ∧
      ∃ wal, (batches.foldl Peerstore.afterBatch (Peerstore.openDir snapshot crashed)).wal
          = some wal ∧
        (Applies wal (fs ++ later) ↔
          ∃ rest, torn ++ bytes = bytes ++ rest ∧ Framing.nextFrame crc32 rest = none) := by
  intro crashed later bytes
  have hfirst : Framing.frames crc32 crashed = fs :=
    Framing.frames_eq_iff.mpr ⟨hfs, torn, rfl, Framing.nextFrame_of_torn hf htorn hne⟩
  refine ⟨applies_iff.mpr hfirst, _, Peerstore.wal_foldl_afterBatch rfl rfl hwritten, ?_⟩
  -- the reader gets past `fs`; what it makes of the rest is told by the exactness of the reader
  rw [applies_iff, List.append_assoc, Framing.frames_flatMap_append hfs,
    List.append_right_inj, Framing.frames_eq_iff]
  exact and_iff_right hlater

end

section

open Sample

attribute [local instance] wireCrates

/-- The row of a peer at `127.0.0.1:78`. -/
private def lateRow : Framing.Frame :=
  ⟨typeUpsert, Peerstore.rowPayload (PeerInfo.new ⟨Bytes32.fill 8⟩ (.ofV4 127 0 0 1 78))⟩

/-- The first three bytes of a frame. -/
private def tornRow : Bytes := (Framing.frameBytes Crates.crc32 lateRow).take 3

/-- Behind one row and the torn bytes of another, a row that is written later is not applied. -/
theorem applies_after_torn_iff_row :
    Applies ([lateRow].flatMap (Framing.frameBytes Crates.crc32) ++ tornRow) [lateRow] ∧
      ∃ wal, ([([lateRow], some 1000)].foldl Peerstore.afterBatch (Peerstore.openDir []
          ([lateRow].flatMap (Framing.frameBytes Crates.crc32) ++ tornRow))).wal = some wal ∧
        ¬Applies wal ([lateRow] ++ [lateRow]) := by
  have hshort : ∀ g ∈ [lateRow], g.payload.length < 2 ^ 32 := by decide +kernel
  have htorn : tornRow <+: Framing.frameBytes Crates.crc32 lateRow := List.take_prefix _ _
  obtain ⟨hfirst, wal, hwal, hiff⟩ := applies_after_torn_iff hshort (by decide +kernel) htorn
    (by decide +kernel) [] [([lateRow], some 1000)] (by decide +kernel) (by decide +kernel)
  refine ⟨hfirst, wal, hwal, fun happlies ↦ ?_⟩
  obtain ⟨rest, hrest, -⟩ := hiff.mp happlies
  -- the torn bytes with the row behind them do not begin with the row
  have hrow : ([lateRow].flatMap (Framing.frameBytes Crates.crc32)).isPrefixOf
      (tornRow ++ [lateRow].flatMap (Framing.frameBytes Crates.crc32)) = true :=
    List.isPrefixOf_iff_prefix.mpr ⟨rest, hrest.symm⟩
  exact absurd hrow (by decide +kernel)

/-- A crash leaves three bytes of a row, the directory is opened again and a peer is flushed
successfully. The next recovery does not find the peer. -/
theorem applies_after_torn_fails :
    ¬∀ (_ : Crates) (fs : List Framing.Frame) (f : Framing.Frame) (torn snapshot : Bytes)
      (batches : List (List Framing.Frame × Option ℕ)),
      (∀ g ∈ fs, g.payload.length < 2 ^ 32) → f.payload.length < 2 ^ 32 →
      torn <+: Framing.frameBytes Crates.crc32 f → torn ≠ Framing.frameBytes Crates.crc32 f →
      (∀ g ∈ batches.flatMap Prod.fst, g.payload.length < 2 ^ 32) →
      Runs.Along Peerstore.afterBatch Peerstore.Written (Peerstore.openDir snapshot
        (fs.flatMap (Framing.frameBytes Crates.crc32) ++ torn)) batches →
      ∃ wal, (batches.foldl Peerstore.afterBatch (Peerstore.openDir snapshot
          (fs.flatMap (Framing.frameBytes Crates.crc32) ++ torn))).wal = some wal ∧
        Applies wal (fs ++ batches.flatMap Prod.fst) := by
  intro h
  obtain ⟨wal, hwal, happlies⟩ := h wireCrates [] lateRow tornRow [] [([lateRow], none)]
    (by decide) (by decide +kernel) (List.take_prefix _ _) (by decide +kernel)
    (by decide +kernel) (by decide +kernel)
  have hbytes : wal = tornRow ++ [lateRow].flatMap (Framing.frameBytes Crates.crc32) :=
    (Option.some.inj hwal).symm
  have hlost : (Peerstore.replay ∅ wal).lookup ⟨Bytes32.fill 8⟩ = none := by
    rw [hbytes]
    decide +kernel
  rw [happlies.peers] at hlost
  revert hlost
  decide +kernel

end

end Molia
