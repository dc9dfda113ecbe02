import Molia.Store.Basic

/-!
# What a store operation can do

The acceptance rules of `putRecord` as one proposition, and the operations of a store as one type,
so that a history of a store is a start and a list of operations. Every operation other than the
garbage collector either leaves the records alone or inserts one record under its own key.
`inserted` names that record, `exec_put` says what a put does to the whole store, and
`lookup_exec_cases` what an operation does to one key. Every invariant of the store is derived from
them.

A call of `cacheHit` carries the proof that its record passed `authentic`, which is what its only
caller checks.
-/

namespace Molia

section

variable [Crates]

/-! ## Authenticity by kind -/

namespace StoredRecord

variable {r : StoredRecord}

theorem envelopeOk_iff :
    r.envelopeOk = true ↔ r.ownerPubkey ≠ [] ∧ mutableKey r.ownerPubkey r.ns r.salt = r.key ∧
      verifyRecord r.ownerPubkey r.key r.value r.sequence r.ttlSecs r.notBeforeUnix r.signature
        = true := by
  simp [envelopeOk, and_assoc]

theorem authentic_of_immutable (h : r.kind = kindImmutable) :
    r.authentic = decide (hashValue r.value = r.key) := by
  rw [authentic, if_pos h]

theorem authentic_of_signed (h : r.Signed) : r.authentic = r.envelopeOk := by
  have hne : r.kind ≠ kindImmutable := by
    rcases h with h | h <;> rw [h] <;> decide
  have hkind : r.kind = kindMutable ∨ r.kind = kindTombstone := h
  rw [authentic, if_neg hne, if_pos hkind]

theorem authentic_of_provider (h : r.kind = kindProvider) : r.authentic = true := by
  rw [authentic, h]
  rfl

omit [Crates] in
theorem not_signed_of_immutable (h : r.kind = kindImmutable) : ¬r.Signed := by
  rw [Signed, h]
  decide

omit [Crates] in
theorem not_signed_of_provider (h : r.kind = kindProvider) : ¬r.Signed := by
  rw [Signed, h]
  decide

theorem kind_of_authentic (h : r.authentic = true) :
    r.kind = kindImmutable ∨ r.kind = kindMutable ∨ r.kind = kindProvider
      ∨ r.kind = kindTombstone := by
  rw [authentic] at h
  split_ifs at h with h1 h2 h3
  · exact Or.inl h1
  · rcases h2 with h2 | h2
    · exact Or.inr (Or.inl h2)
    · exact Or.inr (Or.inr (Or.inr h2))
  · exact Or.inr (Or.inr (Or.inl h3))

theorem length_owner_of_envelopeOk (h : r.envelopeOk = true) : r.ownerPubkey.length = 32 :=
  length_of_verifySignature (envelopeOk_iff.mp h).2.2

/-- Signed records of one key have one owner, unless the names of their slots collide. -/
theorem owner_eq_of_envelopeOk {q : StoredRecord} (hr : r.envelopeOk = true)
    (hq : q.envelopeOk = true) (hkey : r.key = q.key) (hcol : NoCollision r.slot q.slot) :
    r.ownerPubkey = q.ownerPubkey := by
  have hhash : mutableKey r.ownerPubkey r.ns r.salt = mutableKey q.ownerPubkey q.ns q.salt := by
    rw [(envelopeOk_iff.mp hr).2.1, (envelopeOk_iff.mp hq).2.1, hkey]
  refine slotName_owner_inj ?_ (hcol (Key.mk.inj hhash))
  rw [length_owner_of_envelopeOk hr, length_owner_of_envelopeOk hq]

end StoredRecord

namespace Store

/-! ## The acceptance rule -/

/-- What `putRecord` asks of a record beside its size, kind by kind. -/
def Accepts (s : Store) (r : StoredRecord) : Prop :=
  (r.kind = kindImmutable ∧ hashValue r.value = r.key) ∨
    (r.kind = kindMutable ∧ r.envelopeOk = true ∧ ∀ old, s.records.lookup r.key = some old →
      old.kind = kindTombstone ∨ old.sequence < r.sequence) ∨
    (r.kind = kindTombstone ∧ r.envelopeOk = true) ∨
    r.kind = kindProvider

theorem Accepts.authentic {s : Store} {r : StoredRecord} (h : s.Accepts r) :
    r.authentic = true := by
  rcases h with ⟨hk, hv⟩ | ⟨hk, he, -⟩ | ⟨hk, he⟩ | hk
  · rw [StoredRecord.authentic_of_immutable hk, hv, decide_eq_true rfl]
  · rw [StoredRecord.authentic_of_signed (Or.inl hk), he]
  · rw [StoredRecord.authentic_of_signed (Or.inr hk), he]
  · exact StoredRecord.authentic_of_provider hk

omit [Crates] in
theorem checkSequence_eq_ok_iff {s : Store} {r : StoredRecord} :
    s.checkSequence r = .ok () ↔ ∀ old, s.records.lookup r.key = some old →
      old.kind = kindTombstone ∨ old.sequence < r.sequence := by
  rw [checkSequence]
  cases s.records.lookup r.key with
  | none => simp
  | some old =>
    simp only [Option.some.injEq, forall_eq']
    by_cases h : r.sequence ≤ old.sequence ∧ old.kind ≠ kindTombstone
    · rw [if_pos h]
      simp only [reduceCtorEq, false_iff, not_or, UInt64.not_lt]
      exact ⟨h.2, h.1⟩
    · rw [if_neg h]
      simp only [true_iff]
      by_cases hk : old.kind = kindTombstone
      · exact Or.inl hk
      · exact Or.inr (UInt64.not_le.mp fun hle ↦ h ⟨hle, hk⟩)

theorem validate_eq_ok_iff {s : Store} {r : StoredRecord} :
    s.validate r = .ok () ↔ r.Fits ∧ s.Accepts r := by
  by_cases hfit : r.Fits
  swap
  · have hbig : r.value.length + r.signature.length > 64 * 1024 := not_le.mp hfit
    rw [validate, if_pos hbig]
    simp [hfit]
  have hsmall : ¬r.value.length + r.signature.length > 64 * 1024 := not_lt.mpr hfit
  rw [validate, if_neg hsmall]
  simp only [hfit, true_and]
  by_cases himm : r.kind = kindImmutable
  · rw [if_pos himm]
    simp [Accepts, himm, kindImmutable, kindMutable, kindTombstone, kindProvider]
  rw [if_neg himm]
  by_cases hmut : r.kind = kindMutable
  · rw [if_pos hmut, StoredRecord.authentic_of_signed (Or.inl hmut)]
    cases he : r.envelopeOk with
    | false => simp [Accepts, hmut, he, kindImmutable, kindMutable, kindTombstone, kindProvider]
    | true =>
      rw [if_neg (by simp), checkSequence_eq_ok_iff]
      simp [Accepts, hmut, he, kindImmutable, kindMutable, kindTombstone, kindProvider]
  rw [if_neg hmut]
  by_cases htomb : r.kind = kindTombstone
  · rw [if_pos htomb, StoredRecord.authentic_of_signed (Or.inr htomb)]
    simp [Accepts, htomb, kindImmutable, kindMutable, kindTombstone, kindProvider]
  rw [if_neg htomb]
  by_cases hprov : r.kind = kindProvider
  · rw [if_pos hprov]
    simp [Accepts, hprov]
  · rw [if_neg hprov]
    simp [Accepts, himm, hmut, htomb, hprov]

/-! ## The effect of each method on the maps -/

@[simp] theorem records_queueRecord (s : Store) (r : StoredRecord) :
    (s.queueRecord r).records = s.records := by
  rw [queueRecord]
  split <;> rfl

@[simp] theorem cache_queueRecord (s : Store) (r : StoredRecord) :
    (s.queueRecord r).cache = s.cache := by
  rw [queueRecord]
  split <;> rfl

@[simp] theorem providers_queueRecord (s : Store) (r : StoredRecord) :
    (s.queueRecord r).providers = s.providers := by
  rw [queueRecord]
  split <;> rfl

omit [Crates] in
@[simp] theorem records_insertRecord (s : Store) (r : StoredRecord) :
    (s.insertRecord r).records = s.records.insert r.key r := rfl

omit [Crates] in
@[simp] theorem cache_insertRecord (s : Store) (r : StoredRecord) :
    (s.insertRecord r).cache = s.cache := rfl

omit [Crates] in
@[simp] theorem providers_insertRecord (s : Store) (r : StoredRecord) :
    (s.insertRecord r).providers = s.providers := rfl

/-- The store with one more record, if there is one: queued for the log and inserted. -/
def keep (s : Store) (o : Option StoredRecord) : Store :=
  o.elim s fun r ↦ (s.queueRecord r).insertRecord r

theorem records_keep (s : Store) (o : Option StoredRecord) :
    (s.keep o).records = o.elim s.records fun r ↦ s.records.insert r.key r := by
  cases o with
  | none => rfl
  | some r => exact congrArg (·.insert r.key r) (s.records_queueRecord r)

theorem cache_keep (s : Store) (o : Option StoredRecord) : (s.keep o).cache = s.cache := by
  cases o with
  | none => rfl
  | some r => exact s.cache_queueRecord r

theorem providers_keep (s : Store) (o : Option StoredRecord) :
    (s.keep o).providers = s.providers := by
  cases o with
  | none => rfl
  | some r => exact s.providers_queueRecord r

theorem putRecord_of_not_admitted {s : Store} {r : StoredRecord} (probe : Bool)
    (h : s.validate r ≠ .ok ()) : ∃ e, s.putRecord r probe = (.error e, s) := by
  rw [putRecord]
  cases ha : s.validate r with
  | error e => exact ⟨e, rfl⟩
  | ok u => exact absurd ha h

/-- An admitted record is stored, unless the call is a probe of a kind other than tombstone. -/
theorem putRecord_of_admitted {s : Store} {r : StoredRecord} (probe : Bool)
    (h : s.validate r = .ok ()) :
    s.putRecord r probe = (.ok (), if r.kind = kindTombstone ∨ probe = false
      then (s.queueRecord r).insertRecord r else s) := by
  rw [putRecord, h]
  by_cases hk : r.kind = kindTombstone
  · simp [hk]
  · cases probe <;> simp [hk]

theorem putRecord_fst (s : Store) (r : StoredRecord) (probe : Bool) :
    (s.putRecord r probe).1 = s.validate r := by
  rw [putRecord]
  rcases s.validate r with e | ⟨⟩
  · rfl
  · dsimp only
    split_ifs
    · rfl
    · rfl
    · rfl

end Store

/-! ## Operations and histories -/

/-- The operations of a store, each with its clock reading. -/
inductive StoreOp where
  | putImmutableTtl (now : UInt64) (value : Bytes) (ttlSecs : UInt64)
  | putRecord (r : StoredRecord) (probe : Bool)
  | cacheHit (now : UInt64) (r : StoredRecord) (checked : r.authentic = true)
  | announceProvider (now : UInt64) (key : Key) (peerId : NodeId) (metadata : Bytes)
  | gc (now : UInt64)
  | flushWal

namespace StoreOp

def exec (s : Store) : StoreOp → Store
  | putImmutableTtl now value ttlSecs => (s.putImmutableTtl now value ttlSecs).2
  | putRecord r probe => (s.putRecord r probe).2
  | cacheHit now r _ => s.cacheHit now r
  | announceProvider now key peerId metadata => s.announceProvider now key peerId metadata
  | gc now => s.gc now
  | flushWal => s.drainWal

/-- The operation is not the garbage collector. -/
def NoGc : StoreOp → Prop
  | gc _ => False
  | _ => True

/-- The call stores a record. -/
def IsPut : StoreOp → Prop
  | putImmutableTtl _ _ _ | putRecord _ _ => True
  | _ => False

/-- The record an operation inserts into `records`, if any. -/
def inserted (s : Store) : StoreOp → Option StoredRecord
  | putImmutableTtl now value ttlSecs =>
    if value.length > pmtuFloor * 64 then none
    else some (Store.immutableRecord now value ttlSecs)
  | putRecord r probe =>
    match s.validate r with
    | .error _ => none
    | .ok () => if r.kind = kindTombstone ∨ probe = false then some r else none
  | _ => none

/-- The record an operation hands to `putRecord`, if it is such a call. -/
def submitted : StoreOp → Option StoredRecord
  | putRecord r _ => some r
  | _ => none

theorem inserted_putRecord_eq_some {s : Store} {r q : StoredRecord} {probe : Bool} :
    (putRecord r probe).inserted s = some q ↔
      r.Fits ∧ s.Accepts r ∧ (r.kind = kindTombstone ∨ probe = false) ∧ r = q := by
  rw [inserted, ← and_assoc, ← Store.validate_eq_ok_iff]
  cases s.validate r with
  | error e => simp
  | ok u => simp

theorem accepts_of_inserted {s : Store} {op : StoreOp} {q : StoredRecord}
    (h : op.inserted s = some q) : s.Accepts q := by
  cases op with
  | putImmutableTtl now value ttlSecs =>
    rw [inserted] at h
    split_ifs at h
    cases h
    exact Or.inl ⟨rfl, rfl⟩
  | putRecord r probe =>
    obtain ⟨-, hacc, -, rfl⟩ := inserted_putRecord_eq_some.mp h
    exact hacc
  | cacheHit now r checked => cases h
  | announceProvider now key peerId metadata => cases h
  | gc now => cases h
  | flushWal => cases h

/-- A put keeps the record it inserts, and that is all it does. -/
theorem exec_put (s : Store) (op : StoreOp) (h : op.IsPut) :
    op.exec s = s.keep (op.inserted s) := by
  cases op with
  | putImmutableTtl now value ttlSecs =>
    rw [exec, inserted, Store.putImmutableTtl]
    split_ifs
    · rfl
    · rfl
  | putRecord r probe =>
    rw [exec, inserted, Store.putRecord]
    rcases s.validate r with e | ⟨⟩
    · rfl
    · cases probe with
      | true => by_cases hk : r.kind = kindTombstone <;> simp [hk, Store.keep]
      | false => simp [Store.keep]
  | cacheHit now r checked => cases h
  | announceProvider now key peerId metadata => cases h
  | gc now => cases h
  | flushWal => cases h

/-- **The effect of an operation on the records.** -/
theorem records_exec (s : Store) {op : StoreOp} (h : op.NoGc) :
    (op.exec s).records = (op.inserted s).elim s.records fun r ↦ s.records.insert r.key r := by
  cases op with
  | putImmutableTtl now value ttlSecs =>
    rw [exec_put s (putImmutableTtl now value ttlSecs) trivial, Store.records_keep]
  | putRecord r probe => rw [exec_put s (putRecord r probe) trivial, Store.records_keep]
  | cacheHit now r checked =>
    rw [exec, Store.cacheHit]
    split_ifs <;> rfl
  | announceProvider now key peerId metadata => rfl
  | gc now => exact absurd h id
  | flushWal => rfl

/-- What an operation can do to one key: nothing, the insertion of an accepted record, or the
removal by the garbage collector. -/
theorem lookup_exec_cases (s : Store) (op : StoreOp) (k : Key) :
    (op.exec s).records.lookup k = s.records.lookup k ∨
      (∃ r, op.inserted s = some r ∧ r.key = k ∧ (op.exec s).records.lookup k = some r) ∨
      (∃ now, op = gc now ∧ (op.exec s).records.lookup k = none) := by
  by_cases hgc : op.NoGc
  · rw [records_exec s hgc]
    cases hins : op.inserted s with
    | none => exact Or.inl rfl
    | some r =>
      rw [Option.elim_some, HashMap.lookup_insert_of]
      by_cases hk : k = r.key
      · exact Or.inr (Or.inl ⟨r, rfl, hk.symm, if_pos hk⟩)
      · exact Or.inl (if_neg hk)
  · cases op with
    | gc now =>
      rw [exec, Store.gc, HashMap.lookup_retain]
      cases s.records.lookup k with
      | none => exact Or.inl rfl
      | some r =>
        cases hexp : r.expired now with
        | false => exact Or.inl (by simp [hexp])
        | true => exact Or.inr (Or.inr ⟨now, rfl, by simp [hexp]⟩)
    | putImmutableTtl => exact absurd trivial hgc
    | putRecord => exact absurd trivial hgc
    | cacheHit => exact absurd trivial hgc
    | announceProvider => exact absurd trivial hgc
    | flushWal => exact absurd trivial hgc

theorem lookup_exec_of_inserted {s : Store} {op : StoreOp} (h : op.NoGc) (k : Key) :
    (op.exec s).records.lookup k
      = match op.inserted s with
        | some r => if k = r.key then some r else s.records.lookup k
        | none => s.records.lookup k := by
  rw [records_exec s h]
  cases op.inserted s with
  | none => rfl
  | some r => rw [Option.elim_some, HashMap.lookup_insert_of]

theorem cache_exec_cases (s : Store) (op : StoreOp) (k : Key) :
    (op.exec s).cache.lookup k = s.cache.lookup k ∨
      (∃ now r h, op = cacheHit now r h ∧ r.kind = kindImmutable ∧ r.key = k ∧
        (op.exec s).cache.lookup k = some (Store.cachedRecord now r)) ∨
      (∃ now, op = gc now ∧ (op.exec s).cache.lookup k = none) := by
  cases op with
  | putImmutableTtl now value ttlSecs =>
    left
    rw [exec_put s (putImmutableTtl now value ttlSecs) trivial, Store.cache_keep]
  | putRecord r probe =>
    left
    rw [exec_put s (putRecord r probe) trivial, Store.cache_keep]
  | cacheHit now r checked =>
    rw [exec, Store.cacheHit]
    by_cases hk : r.kind = kindImmutable
    · rw [if_neg (by simp [hk]), HashMap.lookup_insert_of]
      by_cases hkey : k = r.key
      · exact Or.inr (Or.inl ⟨now, r, checked, rfl, hk, hkey.symm, if_pos hkey⟩)
      · exact Or.inl (if_neg hkey)
    · rw [if_pos hk]
      exact Or.inl rfl
  | announceProvider now key peerId metadata => exact Or.inl rfl
  | gc now =>
    rw [exec, Store.gc, HashMap.lookup_retain]
    cases s.cache.lookup k with
    | none => exact Or.inl rfl
    | some r =>
      cases hexp : r.expired now with
      | false => exact Or.inl (by simp [hexp])
      | true => exact Or.inr (Or.inr ⟨now, rfl, by simp [hexp]⟩)
  | flushWal => exact Or.inl rfl

end StoreOp

/-- How a store comes into being: empty, or over a directory with whatever its log holds. -/
inductive StoreStart where
  | new
  | openDir (now : UInt64) (dir : String) (wal : Option Bytes)

namespace StoreStart

def store : StoreStart → Store
  | new => Store.new
  | openDir now dir wal => Store.openDir now dir wal

/-- The records recovered from the log. -/
def recovered : StoreStart → List StoredRecord
  | new => []
  | openDir now _ wal => (wal.map (Store.walRecords now)).getD []

end StoreStart

/-- The history of a store. -/
structure StoreRun where
  start : StoreStart
  ops : List StoreOp

namespace StoreRun

/-- The store after the whole history. -/
def final (run : StoreRun) : Store := run.ops.foldl StoreOp.exec run.start.store

/-- Every record the store was ever handed: those of its log, and those of its calls. -/
def submitted (run : StoreRun) : List StoredRecord :=
  run.start.recovered ++ run.ops.filterMap StoreOp.submitted

end StoreRun

namespace Store

omit [Crates] in
theorem lookup_foldl_insertRecord (l : List StoredRecord) (s : Store) (k : Key) :
    (l.foldl insertRecord s).records.lookup k = s.records.lookup k ∨
      ∃ r ∈ l, r.key = k ∧ (l.foldl insertRecord s).records.lookup k = some r := by
  induction l generalizing s with
  | nil => exact Or.inl rfl
  | cons a l ih =>
    rw [List.foldl_cons]
    rcases ih (s.insertRecord a) with h | ⟨r, hr, hk, h⟩
    · rw [h, records_insertRecord, HashMap.lookup_insert_of]
      by_cases hk : k = a.key
      · exact Or.inr ⟨a, List.mem_cons_self, hk.symm, if_pos hk⟩
      · exact Or.inl (if_neg hk)
    · exact Or.inr ⟨r, List.mem_cons_of_mem a hr, hk, h⟩

omit [Crates] in
theorem cache_foldl_insertRecord (l : List StoredRecord) (s : Store) :
    (l.foldl insertRecord s).cache = s.cache := by
  induction l generalizing s with
  | nil => rfl
  | cons a l ih => rw [List.foldl_cons, ih, cache_insertRecord]

omit [Crates] in
theorem providers_foldl_insertRecord (l : List StoredRecord) (s : Store) :
    (l.foldl insertRecord s).providers = s.providers := by
  induction l generalizing s with
  | nil => rfl
  | cons a l ih => rw [List.foldl_cons, ih, providers_insertRecord]

theorem authentic_of_mem_walRecords {now : UInt64} {wal : Bytes} {r : StoredRecord}
    (h : r ∈ walRecords now wal) : r.authentic = true := by
  rw [walRecords, List.mem_filterMap] at h
  obtain ⟨f, -, hf⟩ := h
  rw [frameRecord] at hf
  split at hf
  · cases hf
  · split at hf
    · cases hf
    · split at hf
      · cases hf
      · split at hf
        · cases hf
          assumption
        · cases hf

end Store

namespace StoreStart

theorem authentic_of_mem_recovered {start : StoreStart} {r : StoredRecord}
    (h : r ∈ start.recovered) : r.authentic = true := by
  cases start with
  | new => cases h
  | openDir now dir wal =>
    cases wal with
    | none => cases h
    | some b => exact Store.authentic_of_mem_walRecords h

theorem lookup_store {start : StoreStart} {k : Key} {r : StoredRecord}
    (h : start.store.records.lookup k = some r) : r ∈ start.recovered ∧ r.key = k := by
  cases start with
  | new => simp [store, Store.new] at h
  | openDir now dir wal =>
    cases wal with
    | none => simp [store, Store.openDir, Store.new] at h
    | some b =>
      have hrep : ((Store.walRecords now b).foldl Store.insertRecord
          { Store.new with dir := some dir }).records.lookup k = some r := h
      rcases Store.lookup_foldl_insertRecord (Store.walRecords now b)
        { Store.new with dir := some dir } k with h' | ⟨q, hq, hk, h'⟩
      · rw [hrep] at h'
        simp [Store.new] at h'
      · rw [hrep, Option.some.injEq] at h'
        subst h'
        exact ⟨hq, hk⟩

theorem cache_store (start : StoreStart) : start.store.cache = ∅ := by
  cases start with
  | new => rfl
  | openDir now dir wal =>
    cases wal with
    | none => rfl
    | some b => exact Store.cache_foldl_insertRecord _ _

theorem providers_store (start : StoreStart) : start.store.providers = ∅ := by
  cases start with
  | new => rfl
  | openDir now dir wal =>
    cases wal with
    | none => rfl
    | some b => exact Store.providers_foldl_insertRecord _ _

end StoreStart

end

/-! ## Sample records

Two versions an owner signed for one slot, and the unsigned record anyone can make for it. -/

namespace Sample

/-- The first version: the value `v` with sequence 1. -/
def recordOne : StoredRecord where
  key := slotKey
  value := [118]
  sequence := 1
  ttlSecs := 86400
  notBeforeUnix := 0
  ownerPubkey := owner
  signature := sigOne
  kind := kindMutable
  ns := ns
  salt := salt
  storedUnix := 1000
  cache := false

/-- The second version: the value `w` with sequence 2. -/
def recordTwo : StoredRecord :=
  { recordOne with value := [119], sequence := 2, signature := sigTwo }

/-- A provider record for the same key, with the largest sequence and no signature. -/
def squatter : StoredRecord :=
  { recordOne with
    value := [], sequence := 0xFFFFFFFFFFFFFFFF, ownerPubkey := [], signature := []
    kind := kindProvider, ns := [], salt := [] }

attribute [local instance] crates

theorem envelopeOk_recordOne : recordOne.envelopeOk = true := by
  decide +kernel

theorem envelopeOk_recordTwo : recordTwo.envelopeOk = true := by
  decide +kernel

end Sample

end Molia
