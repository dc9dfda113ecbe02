import Molia.Core.Wire
import Molia.General.Runs
import Molia.Store.Peerstore
import Molia.Store.Slot

/-!
# Lifetimes across restarts

A record is served until its age exceeds its time to live. The age is counted from the time of
storing, which is not written to the log: a record that is read back is given the time of reading.
So a restart starts every lifetime in the log afresh, those of expired and of collected records
included, and it gives a record with a zero time to live a whole day.

`keepsTerm_iff` says when a record is served no longer than it was accepted for: if no copy that the
cache already held outlives it, and if no restart finds a copy in the log that would, counted from
the time of the restart. For a copy with the same time to live this means that no restart comes
later than the acceptance.
-/

namespace Molia

/-! ## Terms -/

/-- The last second in which a record of the given age and time to live is served. The clock ends
with the largest `u64`. -/
def endOfTerm (stored ttl : UInt64) : ℕ := min (stored.toNat + ttl.toNat) (2 ^ 64 - 1)

namespace StoredRecord

/-- What a record says, its lifetime apart. -/
def body (r : StoredRecord) : Proto.Record := { r.toProto with ttlSecs := 0 }

theorem expired_eq_false_iff {r : StoredRecord} {now : UInt64} :
    r.expired now = false ↔ now.toNat ≤ endOfTerm r.storedUnix r.ttlSecs := by
  have hnow := now.toNat_lt
  rw [expired, decide_eq_false_iff_not, endOfTerm]
  omega

end StoredRecord

theorem le_of_le_endOfTerm {now stored ttl : UInt64} (h : now.toNat ≤ endOfTerm stored ttl) :
    now.toNat ≤ stored.toNat + ttl.toNat := by
  rw [endOfTerm] at h
  omega

theorem exists_toNat_eq_endOfTerm (stored ttl : UInt64) :
    ∃ now : UInt64, now.toNat = endOfTerm stored ttl := by
  refine ⟨UInt64.ofNat (endOfTerm stored ttl), ?_⟩
  rw [UInt64.toNat_ofNat', Nat.mod_eq_of_lt]
  rw [endOfTerm]
  omega

section

variable [Crates]

/-! ## A directory in use -/

/-- A store and a peer index over the same directory, and what its snapshot holds. -/
structure Volume where
  name : String
  store : Store
  peers : Peerstore
  snapshot : Bytes

/-- What happens to a directory: calls on the store and on the index, and restarts, each with the
clock reading of the recovery. A crash is a restart at a moment when something is queued, or after a
flush that failed. -/
inductive VolumeOp where
  | store (op : StoreOp)
  | upsert (info : PeerInfo)
  | remove (id : NodeId)
  | flush (room : Option ℕ)
  | compact (records : List Bytes)
  | restart (now : UInt64)

namespace Volume

/-- Opened over an empty directory. -/
def empty (now : UInt64) (name : String) : Volume where
  name := name
  store := Store.openDir now name none
  peers := Peerstore.openDir [] []
  snapshot := []

def step (v : Volume) : VolumeOp → Volume
  | .store .flushWal =>
    { v with store := (v.store.flushWal v.peers).1, peers := (v.store.flushWal v.peers).2 }
  | .store op => { v with store := op.exec v.store }
  | .upsert info => { v with peers := v.peers.upsert info }
  | .remove id => { v with peers := v.peers.remove id }
  | .flush room => { v with peers := (v.peers.flush room).2 }
  | .compact records =>
    { v with
      peers := (v.peers.compactWithRecords v.snapshot records).2
      snapshot := (v.peers.compactWithRecords v.snapshot records).1 }
  | .restart now =>
    { v with
      store := Store.openDir now v.name v.peers.wal
      peers := Peerstore.openDir v.snapshot (v.peers.wal.getD []) }

theorem store_step_store (v : Volume) (op : StoreOp) :
    (v.step (.store op)).store = op.exec v.store := by
  cases op <;> rfl

/-- Nothing is stored under the key, neither as a record nor in the cache. -/
def Quiet (k : Key) (v : Volume) : VolumeOp → Prop
  | .store op => (∀ q, op.inserted v.store = some q → q.key ≠ k) ∧
      ∀ now q h, op = .cacheHit now q h → q.key ≠ k
  | _ => True

variable {r : StoredRecord} {v : Volume}

/-- Whatever says the same as `r` is served only as long as `r` was accepted for. -/
def KeepsTerm (r : StoredRecord) (v : Volume) : Prop :=
  ∀ now q, v.store.get now r.key = some q → q.body = r.body →
    now.toNat ≤ r.storedUnix.toNat + r.ttlSecs.toNat

/-- A copy in the cache does not outlive `r`. -/
def CachedWithin (r : StoredRecord) (v : Volume) : Prop :=
  ∀ c, v.store.cache.lookup r.key = some c → c.body = r.body →
    endOfTerm c.storedUnix c.ttlSecs ≤ endOfTerm r.storedUnix r.ttlSecs

/-- A restart does not find a copy in the log that would outlive `r`, counted from the restart. -/
def Timely (r : StoredRecord) (v : Volume) : VolumeOp → Prop
  | .restart now => ∀ q, (Store.openDir now v.name v.peers.wal).records.lookup r.key = some q →
      q.body = r.body → q.kind ≠ kindTombstone →
        endOfTerm now q.ttlSecs ≤ endOfTerm r.storedUnix r.ttlSecs
  | _ => True

/-- No copy outlives `r`, in the records or in the cache. -/
structure Within (r : StoredRecord) (v : Volume) : Prop where
  records : ∀ q, v.store.records.lookup r.key = some q → q.body = r.body →
    q.kind ≠ kindTombstone → endOfTerm q.storedUnix q.ttlSecs ≤ endOfTerm r.storedUnix r.ttlSecs
  cache : CachedWithin r v

end Volume

/-! ## What a restart reads -/

namespace Store

theorem storedUnix_of_mem_walRecords {now : UInt64} {wal : Bytes} {r : StoredRecord}
    (h : r ∈ walRecords now wal) : r.storedUnix = now := by
  obtain ⟨f, -, hf⟩ := List.mem_filterMap.mp h
  rw [frameRecord] at hf
  split at hf
  · cases hf
  · split at hf
    · cases hf
    · split at hf
      · cases hf
      · rename_i hproto
        split at hf
        · obtain rfl := Option.some.inj hf
          obtain ⟨key, -, hsome⟩ := Option.bind_eq_some_iff.mp hproto
          rw [← Option.some.inj hsome]
        · cases hf

theorem storedUnix_openDir {now : UInt64} {dir : String} {wal : Option Bytes} {k : Key}
    {q : StoredRecord} (h : (openDir now dir wal).records.lookup k = some q) :
    q.storedUnix = now := by
  have hstart : (StoreStart.openDir now dir wal).store.records.lookup k = some q := h
  obtain ⟨hmem, -⟩ := StoreStart.lookup_store hstart
  rcases wal with _ | b
  · cases hmem
  · exact storedUnix_of_mem_walRecords hmem

omit [Crates] in
theorem get_eq_some {s : Store} {now : UInt64} {k : Key} {q : StoredRecord}
    (h : s.get now k = some q) : q.expired now = false ∧
      (s.records.lookup k = some q ∧ q.kind ≠ kindTombstone ∨ s.cache.lookup k = some q) := by
  have hcached : ∀ {q}, (s.cache.lookup k).filter (fun c ↦ !c.expired now) = some q →
      q.expired now = false ∧ s.cache.lookup k = some q := by
    intro q hq
    obtain ⟨hlookup, hlive⟩ := Option.filter_eq_some_iff.mp hq
    exact ⟨by simpa using hlive, hlookup⟩
  rw [get] at h
  split at h
  · rename_i p hp
    split_ifs at h with hlive
    · obtain rfl := Option.some.inj h
      exact ⟨hlive.1, Or.inl ⟨hp, hlive.2⟩⟩
    · exact (hcached h).imp_right Or.inr
  · exact (hcached h).imp_right Or.inr

end Store

namespace Volume

variable {r : StoredRecord} {v : Volume}

omit [Crates] in
theorem Within.keepsTerm (h : Within r v) : KeepsTerm r v := by
  intro now q hget hbody
  obtain ⟨hlive, ⟨hrec, hkind⟩ | hcache⟩ := Store.get_eq_some hget
  · exact le_of_le_endOfTerm
      ((StoredRecord.expired_eq_false_iff.mp hlive).trans (h.records q hrec hbody hkind))
  · exact le_of_le_endOfTerm
      ((StoredRecord.expired_eq_false_iff.mp hlive).trans (h.cache q hcache hbody))

omit [Crates] in
theorem Within.of_store_eq {v' : Volume} (h : Within r v) (hstore : v'.store = v.store) :
    Within r v' where
  records := hstore ▸ h.records
  cache := by
    rw [CachedWithin, hstore]
    exact h.cache

/-- Calls that store nothing under the key of `r` lengthen nothing, and a restart only what it reads
from the log. -/
theorem Within.step (h : Within r v) {op : VolumeOp} (hquiet : v.Quiet r.key op)
    (htimely : v.Timely r op) : Within r (v.step op) := by
  cases op with
  | store op =>
    obtain ⟨hput, hhit⟩ := hquiet
    refine ⟨?_, ?_⟩
    · intro q hq
      rw [store_step_store] at hq
      rcases op.lookup_exec_cases v.store r.key with hsame | ⟨p, hp, hkey, -⟩ | ⟨now, -, hnone⟩
      · exact h.records q (hsame ▸ hq)
      · exact absurd hkey (hput p hp)
      · rw [hnone] at hq
        cases hq
    · intro c hc
      rw [store_step_store] at hc
      rcases op.cache_exec_cases v.store r.key with
        hsame | ⟨now, p, hauth, hop, -, hkey, -⟩ | ⟨now, -, hnone⟩
      · exact h.cache c (hsame ▸ hc)
      · exact absurd hkey (hhit now p hauth hop)
      · rw [hnone] at hc
        cases hc
  | restart now =>
    refine ⟨?_, ?_⟩
    · intro q hq hbody hkind
      rw [Store.storedUnix_openDir hq]
      exact htimely q hq hbody hkind
    · intro c hc
      have hempty : (Store.openDir now v.name v.peers.wal).cache = ∅ :=
        StoreStart.cache_store (.openDir now v.name v.peers.wal)
      change (Store.openDir now v.name v.peers.wal).cache.lookup r.key = some c at hc
      rw [hempty] at hc
      cases hc
  | upsert info => exact h.of_store_eq rfl
  | remove id => exact h.of_store_eq rfl
  | flush room => exact h.of_store_eq rfl
  | compact records => exact h.of_store_eq rfl

/-- A restart that finds a copy which outlives `r` serves it too long. -/
theorem timely_of_keepsTerm {op : VolumeOp} (h : KeepsTerm r (v.step op)) : v.Timely r op := by
  cases op with
  | restart now =>
    intro q hq hbody hkind
    obtain ⟨last, hlast⟩ := exists_toNat_eq_endOfTerm now q.ttlSecs
    have hlive : q.expired last = false := by
      rw [StoredRecord.expired_eq_false_iff, Store.storedUnix_openDir hq]
      exact hlast.le
    have hterm := h last q (Store.get_of_lookup hq hlive hkind) hbody
    rw [← hlast, endOfTerm]
    exact le_min hterm (Nat.le_sub_one_of_lt last.toNat_lt)
  | store op => trivial
  | upsert info => trivial
  | remove id => trivial
  | flush room => trivial
  | compact records => trivial

omit [Crates] in
theorem cachedWithin_of_keepsTerm (hheld : v.store.records.lookup r.key = some r)
    (h : KeepsTerm r v) : CachedWithin r v := by
  intro c hc hbody
  by_contra hlong
  rw [not_le] at hlong
  obtain ⟨last, hlast⟩ := exists_toNat_eq_endOfTerm c.storedUnix c.ttlSecs
  have hlive : c.expired last = false := StoredRecord.expired_eq_false_iff.mpr hlast.le
  -- at the end of the term of the copy the record itself has expired
  have hexpired : r.expired last = true := by
    rw [← Bool.not_eq_false, StoredRecord.expired_eq_false_iff, not_le, hlast]
    exact hlong
  have hget : v.store.get last r.key = some c := by
    rw [Store.get, hheld]
    simp [hexpired, hc, hlive]
  have hterm := h last c hget hbody
  have hclock := last.toNat_lt
  rw [← hlast, endOfTerm] at hlong
  omega

end Volume

/-- **Lifetimes across restarts.** A record is accepted, and then anything happens to the directory
but that something is stored under the key of the record. The record is served only as long as it
was accepted for, exactly if no cached copy outlives it and no restart finds a copy in the log that
does. -/
theorem keepsTerm_iff {v : Volume} {op : StoreOp} {r : StoredRecord}
    (hput : op.inserted v.store = some r) (ops : List VolumeOp)
    (hquiet : Runs.Along Volume.step (Volume.Quiet r.key) (v.step (.store op)) ops) :
    Runs.Throughout Volume.step (Volume.KeepsTerm r) (v.step (.store op)) ops ↔
      Volume.CachedWithin r (v.step (.store op)) ∧
        Runs.Along Volume.step (Volume.Timely r) (v.step (.store op)) ops := by
  have hheld : (v.step (.store op)).store.records.lookup r.key = some r := by
    have hgc : op.NoGc := by
      cases op with
      | gc now => cases hput
      | _ => trivial
    rw [Volume.store_step_store, StoreOp.records_exec v.store hgc, hput, Option.elim_some,
      HashMap.lookup_insert_of, if_pos rfl]
  have hstart : Volume.CachedWithin r (v.step (.store op)) →
      Volume.Within r (v.step (.store op)) := by
    intro hcache
    refine ⟨?_, hcache⟩
    intro q hq _ _
    rw [hheld] at hq
    rw [Option.some.inj hq]
  have hiff : Volume.CachedWithin r (v.step (.store op)) →
      (Runs.Throughout Volume.step (Volume.KeepsTerm r) (v.step (.store op)) ops ↔
        Runs.Along Volume.step (Volume.Timely r) (v.step (.store op)) ops) := by
    intro hcache
    exact Runs.throughout_iff_along hquiet (fun _ ↦ Volume.Within.keepsTerm)
      (fun _ _ h hquiet htimely ↦ h.step hquiet htimely)
      (fun _ _ _ _ ↦ Volume.timely_of_keepsTerm) (hstart hcache)
  constructor
  · intro h
    have hcache := Volume.cachedWithin_of_keepsTerm hheld h.start
    exact ⟨hcache, (hiff hcache).mp h⟩
  · rintro ⟨hcache, h⟩
    exact (hiff hcache).mpr h

end

section

open Sample

attribute [local instance] wireCrates

/-- The call that stores a value of one byte at time zero for a minute, and the record it stores. -/
private def putByte : StoreOp := .putImmutableTtl 0 [1] 60

private def byteRecord : StoredRecord := Store.immutableRecord 0 [1] 60

private def opened : Volume := Volume.empty 0 "data"

/-- The record is flushed and collected when it has expired. -/
private def flushedOps : List VolumeOp := [.store .flushWal, .flush none, .store (.gc 100)]

private theorem quiet_flushedOps :
    Runs.Along Volume.step (Volume.Quiet byteRecord.key) (opened.step (.store putByte))
      flushedOps := by
  refine ⟨⟨?_, ?_⟩, trivial, ⟨?_, ?_⟩, trivial⟩
  · intro q hq
    cases hq
  · intro now q h hop
    cases hop
  · intro q hq
    cases hq
  · intro now q h hop
    cases hop

theorem keepsTerm_iff_flushed :
    Runs.Throughout Volume.step (Volume.KeepsTerm byteRecord) (opened.step (.store putByte))
        flushedOps ↔
      Volume.CachedWithin byteRecord (opened.step (.store putByte)) ∧
        Runs.Along Volume.step (Volume.Timely byteRecord) (opened.step (.store putByte))
          flushedOps :=
  keepsTerm_iff rfl flushedOps quiet_flushedOps

/-- A record that was stored for a minute is flushed, expires and is collected. Then the directory
is opened again, at second 200, and the record is served at second 230. -/
theorem keepsTerm_fails :
    ¬∀ (_ : Crates) (v : Volume) (op : StoreOp) (r : StoredRecord) (ops : List VolumeOp),
      op.inserted v.store = some r →
      Runs.Along Volume.step (Volume.Quiet r.key) (v.step (.store op)) ops →
      Volume.CachedWithin r (v.step (.store op)) →
      Runs.Throughout Volume.step (Volume.KeepsTerm r) (v.step (.store op)) ops := by
  intro h
  have hquiet : Runs.Along Volume.step (Volume.Quiet byteRecord.key) (opened.step (.store putByte))
      (flushedOps ++ [.restart 200]) :=
    Runs.along_append.mpr ⟨quiet_flushedOps, trivial, trivial⟩
  have hcache : Volume.CachedWithin byteRecord (opened.step (.store putByte)) := by
    intro c hc
    cases hc
  obtain ⟨-, -, -, -, hlast⟩ :=
    h wireCrates opened putByte byteRecord (flushedOps ++ [.restart 200]) rfl hquiet hcache
  have hget : ((flushedOps ++ [VolumeOp.restart 200]).foldl Volume.step
      (opened.step (.store putByte))).store.get 230 byteRecord.key
      = some { byteRecord with storedUnix := 200 } := by
    decide +kernel
  have hterm := hlast 230 _ hget rfl
  revert hterm
  decide

end

end Molia
