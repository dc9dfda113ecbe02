import Molia.Store.Run

/-!
# The content of a reachable store

Whatever a store was opened on and whatever it was handed since, each record it holds sits under
its own key and passes the check of its kind. The invariant that carries this is `Sound`: it only
says that a held record is authentic and filed under its key, because `authentic` already contains
the check of every kind. `ContentOk` spells the consequences out.

The cache rewrites the time to live of a record. That field is part of the signed envelope, so the
rewriting would break a signed record; it is harmless because the cache keeps immutable records
only, and the hash of the value is all their check looks at.
-/

namespace Molia

variable [Crates]

namespace Store

/-- A record held under `k`, in the records or in the cache. -/
def Holds (s : Store) (k : Key) (r : StoredRecord) : Prop :=
  s.records.lookup k = some r ∨ s.cache.lookup k = some r

/-- The content invariant, kind by kind. -/
structure ContentOk (s : Store) : Prop where
  key : ∀ k r, s.Holds k r → r.key = k
  kind : ∀ k r, s.Holds k r → r.kind = kindImmutable ∨ r.kind = kindMutable ∨
    r.kind = kindProvider ∨ r.kind = kindTombstone
  immutable : ∀ k r, s.Holds k r → r.kind = kindImmutable → hashValue r.value = k
  signed : ∀ k r, s.Holds k r → r.kind = kindMutable ∨ r.kind = kindTombstone →
    r.ownerPubkey ≠ [] ∧ mutableKey r.ownerPubkey r.ns r.salt = k ∧
      verifyRecord r.ownerPubkey k r.value r.sequence r.ttlSecs r.notBeforeUnix r.signature = true
  cache : ∀ k r, s.cache.lookup k = some r → r.kind = kindImmutable

/-- The inductive form of the content invariant. -/
structure Sound (s : Store) : Prop where
  records : ∀ {k r}, s.records.lookup k = some r → r.key = k ∧ r.authentic = true
  cache : ∀ {k r}, s.cache.lookup k = some r →
    r.key = k ∧ r.kind = kindImmutable ∧ r.authentic = true

namespace Sound

variable {s : Store}

theorem authentic (h : s.Sound) {k : Key} {r : StoredRecord} (hr : s.Holds k r) :
    r.key = k ∧ r.authentic = true := by
  rcases hr with hr | hr
  · exact h.records hr
  · obtain ⟨hk, -, ha⟩ := h.cache hr
    exact ⟨hk, ha⟩

theorem envelopeOk (h : s.Sound) {k : Key} {r : StoredRecord}
    (hr : s.records.lookup k = some r) (hs : r.Signed) : r.envelopeOk = true := by
  rw [← StoredRecord.authentic_of_signed hs]
  exact (h.records hr).2

theorem contentOk (h : s.Sound) : s.ContentOk where
  key _ _ hr := (h.authentic hr).1
  kind _ _ hr := StoredRecord.kind_of_authentic (h.authentic hr).2
  immutable k r hr hk := by
    obtain ⟨hkey, ha⟩ := h.authentic hr
    rw [StoredRecord.authentic_of_immutable hk, decide_eq_true_eq] at ha
    rw [ha, hkey]
  signed k r hr hs := by
    obtain ⟨hkey, ha⟩ := h.authentic hr
    rw [StoredRecord.authentic_of_signed hs, StoredRecord.envelopeOk_iff, hkey] at ha
    exact ha
  cache _ _ hr := (h.cache hr).2.1

end Sound

/-! ## Preservation -/

/-- The check of an immutable record does not read the fields the cache rewrites. -/
theorem authentic_cachedRecord {now : UInt64} {r : StoredRecord} (hk : r.kind = kindImmutable)
    (h : r.authentic = true) : (cachedRecord now r).authentic = true := by
  rw [StoredRecord.authentic_of_immutable hk] at h
  rw [StoredRecord.authentic_of_immutable (r := cachedRecord now r) hk]
  exact h

theorem Sound.exec {s : Store} (h : s.Sound) (op : StoreOp) : (op.exec s).Sound where
  records {k r} hr := by
    rcases op.lookup_exec_cases s k with h' | ⟨q, hq, hk, h'⟩ | ⟨now, -, h'⟩
    · exact h.records (h' ▸ hr)
    · obtain rfl : q = r := Option.some.inj (h'.symm.trans hr)
      exact ⟨hk, (StoreOp.accepts_of_inserted hq).authentic⟩
    · rw [h'] at hr
      cases hr
  cache {k r} hr := by
    rcases op.cache_exec_cases s k with h' | ⟨now, q, hq, -, himm, hk, h'⟩ | ⟨now, -, h'⟩
    · exact h.cache (h' ▸ hr)
    · obtain rfl : cachedRecord now q = r := Option.some.inj (h'.symm.trans hr)
      exact ⟨hk, himm, authentic_cachedRecord himm hq⟩
    · rw [h'] at hr
      cases hr

theorem sound_start (start : StoreStart) : start.store.Sound where
  records hr := by
    obtain ⟨hmem, hk⟩ := StoreStart.lookup_store hr
    exact ⟨hk, StoreStart.authentic_of_mem_recovered hmem⟩
  cache hr := by
    rw [StoreStart.cache_store] at hr
    simp at hr

theorem sound_foldl {s : Store} (h : s.Sound) (ops : List StoreOp) :
    (ops.foldl StoreOp.exec s).Sound :=
  List.foldlRecOn ops StoreOp.exec h fun _ hs op _ ↦ hs.exec op

end Store

theorem StoreRun.sound (run : StoreRun) : run.final.Sound :=
  Store.sound_foldl (Store.sound_start run.start) run.ops

/-- Every store reached from an empty start or from any log whatsoever holds, under each key, only
records that pass the check of their kind for that key. -/
theorem StoreRun.content_by_kind (run : StoreRun) : run.final.ContentOk := run.sound.contentOk

end Molia
