import Molia.General.Runs
import Molia.Store.Slot

/-!
# Sequence numbers along a history

The mutable branch of `putRecord` asks for a larger sequence than the stored one, with two gaps. A
tombstone is stored whatever its sequence, so an old one can replace a newer value; and over a
tombstone any sequence is accepted, so an old value can replace a newer deletion. Outside these two
gaps, and as long as no unsigned record takes the slot, the sequences at a key only grow.

Both halves of each result are stated: what one step does, as an equivalence, and what holds in
every state of a history whose steps avoid the gaps.
-/

namespace Molia

section

variable [Crates]

/-! ## Finality of a deletion -/

namespace Store

/-- The call is rejected and the store is left as it is. -/
def Rejects (s : Store) (r : StoredRecord) (probe : Bool) : Prop :=
  ∃ e, s.putRecord r probe = (.error e, s)

theorem rejects_iff_not_admitted {s : Store} {r : StoredRecord} {probe : Bool} :
    s.Rejects r probe ↔ s.validate r ≠ .ok () := by
  constructor
  · rintro ⟨e, he⟩ hadm
    rw [putRecord_of_admitted probe hadm, Prod.mk.injEq] at he
    cases he.1
  · exact putRecord_of_not_admitted probe

/-- Over a tombstone, a mutable record is rejected only if it is too large or not authentic. -/
theorem rejects_over_tombstone {s : Store} {r t : StoredRecord} {probe : Bool}
    (ht : s.records.lookup r.key = some t) (htk : t.kind = kindTombstone)
    (hk : r.kind = kindMutable) : s.Rejects r probe ↔ ¬(r.Fits ∧ r.authentic = true) := by
  rw [rejects_iff_not_admitted, Ne, validate_eq_ok_iff, not_iff_not,
    StoredRecord.authentic_of_signed (Or.inl hk)]
  refine and_congr_right fun _ ↦ ⟨?_, fun henv ↦ Or.inr (Or.inl ⟨hk, henv, ?_⟩)⟩
  · intro hacc
    rw [← StoredRecord.authentic_of_signed (Or.inl hk)]
    exact hacc.authentic
  · intro old hold
    obtain rfl : t = old := Option.some.inj (ht.symm.trans hold)
    exact Or.inl htk

/-- Under `k` there is nothing a reader would get, up to sequence `n`. -/
structure DeletedUpTo (s : Store) (k : Key) (n : UInt64) : Prop where
  records : ∀ {q}, s.records.lookup k = some q → q.kind = kindTombstone ∨ n < q.sequence
  cache : ∀ {c}, s.cache.lookup k = some c → n < c.sequence

omit [Crates] in
theorem DeletedUpTo.get {s : Store} {k : Key} {n : UInt64} (h : s.DeletedUpTo k n) {now : UInt64}
    {r : StoredRecord} (hr : s.get now k = some r) : n < r.sequence := by
  have hcache : ∀ {c}, (s.cache.lookup k).filter (fun c ↦ !c.expired now) = some c →
      n < c.sequence := fun hc ↦ h.cache (Option.filter_eq_some_iff.mp hc).1
  rw [Store.get] at hr
  cases hq : s.records.lookup k with
  | none =>
    rw [hq] at hr
    exact hcache hr
  | some q =>
    simp only [hq] at hr
    split_ifs at hr with hlive
    · cases hr
      exact (h.records hq).resolve_left hlive.2
    · exact hcache hr

end Store

/-- The operation makes a record with a sequence up to `n` readable under `k`: an authentic one
that is not a tombstone, or a value whose hash is `k`. -/
def StoreOp.Resurrects (k : Key) (n : UInt64) : StoreOp → Prop
  | putRecord r probe =>
    r.key = k ∧ r.kind ≠ kindTombstone ∧ r.sequence ≤ n ∧ r.Fits ∧ r.authentic = true ∧
      probe = false
  | putImmutableTtl _ value _ => hashValue value = k ∧ value.length ≤ pmtuFloor * 64
  | cacheHit _ r _ => r.kind = kindImmutable ∧ r.key = k ∧ r.sequence ≤ n
  | _ => False

theorem StoreOp.resurrects_of_inserted {s : Store} {op : StoreOp} {q : StoredRecord} {n : UInt64}
    (h : op.inserted s = some q) (hk : q.kind ≠ kindTombstone) (hseq : q.sequence ≤ n) :
    op.Resurrects q.key n := by
  cases op with
  | putImmutableTtl now value ttlSecs =>
    rw [inserted] at h
    split_ifs at h with hlen
    cases h
    exact ⟨rfl, not_lt.mp hlen⟩
  | putRecord r probe =>
    obtain ⟨hfit, hacc, hprobe, rfl⟩ := inserted_putRecord_eq_some.mp h
    exact ⟨rfl, hk, hseq, hfit, hacc.authentic, hprobe.resolve_left hk⟩
  | cacheHit now r checked => cases h
  | announceProvider now key peerId metadata => cases h
  | gc now => cases h
  | flushWal => cases h

/-- One step keeps a deletion, unless it resurrects. The garbage collector only removes. -/
theorem Store.DeletedUpTo.exec {s : Store} {k : Key} {n : UInt64} (h : s.DeletedUpTo k n)
    {op : StoreOp} (hop : ¬op.Resurrects k n) : (op.exec s).DeletedUpTo k n where
  records {q} hq := by
    rcases op.lookup_exec_cases s k with h' | ⟨r, hr, hk, h'⟩ | ⟨now, -, h'⟩
    · exact h.records (h' ▸ hq)
    · obtain rfl : r = q := Option.some.inj (h'.symm.trans hq)
      by_cases htomb : r.kind = kindTombstone
      · exact Or.inl htomb
      · refine Or.inr (UInt64.not_le.mp fun hle ↦ hop ?_)
        exact hk ▸ StoreOp.resurrects_of_inserted hr htomb hle
    · rw [h'] at hq
      cases hq
  cache {c} hc := by
    rcases op.cache_exec_cases s k with h' | ⟨now, r, hr, rfl, himm, hk, h'⟩ | ⟨now, -, h'⟩
    · exact h.cache (h' ▸ hc)
    · obtain rfl : cachedRecord now r = c := Option.some.inj (h'.symm.trans hc)
      exact UInt64.not_le.mp fun hle ↦ hop ⟨himm, hk, hle⟩
    · rw [h'] at hc
      cases hc

/-- Over a tombstone, a mutable record of an older or equal sequence is rejected exactly when it
fails the size or the authenticity check. In every later history that hands over no authentic
record of such a sequence, reading the key never gives one. -/
theorem delete_finality (run : StoreRun) (k : Key) (t : StoredRecord)
    (ht : run.final.records.lookup k = some t) (htk : t.kind = kindTombstone) :
    (∀ (r : StoredRecord) (probe : Bool), r.kind = kindMutable → r.key = k →
      r.sequence ≤ t.sequence →
      (run.final.Rejects r probe ↔ ¬(r.Fits ∧ r.authentic = true))) ∧
    (∀ ops : List StoreOp, (∀ op ∈ ops, ¬op.Resurrects k t.sequence) →
      (∀ c, run.final.cache.lookup k = some c → t.sequence < c.sequence) →
      ∀ now r, (ops.foldl StoreOp.exec run.final).get now k = some r →
        t.sequence < r.sequence) := by
  refine ⟨fun r probe hk hkey _ ↦ Store.rejects_over_tombstone (by rw [hkey, ht]) htk hk, ?_⟩
  intro ops hops hcache now r hr
  have hstart : run.final.DeletedUpTo k t.sequence := by
    refine ⟨fun hq ↦ ?_, fun hc ↦ hcache _ hc⟩
    rw [ht, Option.some.injEq] at hq
    subst hq
    exact Or.inl htk
  have hall : (ops.foldl StoreOp.exec run.final).DeletedUpTo k t.sequence :=
    List.foldlRecOn (motive := (Store.DeletedUpTo · k t.sequence)) ops StoreOp.exec hstart
      fun _ hs op hop ↦ hs.exec (hops op hop)
  exact hall.get hr

end

section

open Sample

attribute [local instance] Sample.crates

/-- After the second version was deleted, a tampered copy of the first is rejected. -/
theorem delete_finality_tampered :
    (StoreRun.mk .new [.putRecord recordTwo.relabel false]).final.Rejects
      { recordOne with value := [0] } false := by
  refine ((delete_finality (StoreRun.mk .new [.putRecord recordTwo.relabel false]) slotKey
    recordTwo.relabel (by decide +kernel) rfl).1 _ false rfl rfl (by decide)).mpr ?_
  rintro ⟨-, hauth⟩
  exact absurd hauth (by decide +kernel)

/-- After the second version was deleted, the first version comes back. -/
theorem delete_finality_fails :
    ¬∀ (_ : Crates) (run : StoreRun) (k : Key) (t : StoredRecord),
      run.final.records.lookup k = some t → t.kind = kindTombstone → t.authentic = true →
      ∀ (r : StoredRecord) (probe : Bool), r.kind = kindMutable → r.key = k →
        r.sequence ≤ t.sequence → run.final.Rejects r probe := by
  intro h
  have hrej := h Sample.crates ⟨.new, [.putRecord recordTwo.relabel false]⟩ slotKey
    recordTwo.relabel (by decide +kernel) rfl (by decide +kernel) recordOne false rfl rfl
    (by decide)
  rw [Store.rejects_over_tombstone (t := recordTwo.relabel) (by decide +kernel) rfl rfl] at hrej
  exact hrej ⟨by decide, authentic_recordOne⟩

end

/-! ## Growth of the sequence -/

section

variable [Crates]

/-- The operation stores an authentic record for `k` whose sequence is not larger than that of a
different record held there, through one of the two gaps: it is a tombstone, or it is a mutable
record and a tombstone is held. -/
def StoreOp.RollsBack (s : Store) (k : Key) : StoreOp → Prop
  | putRecord r probe =>
    r.key = k ∧ r.Fits ∧ r.authentic = true ∧ ∃ old, s.records.lookup k = some old ∧ r ≠ old ∧
      r.sequence ≤ old.sequence ∧ (r.kind = kindTombstone ∨
        (r.kind = kindMutable ∧ old.kind = kindTombstone ∧ probe = false))
  | _ => False

/-- A signed record that is inserted over a different one has a larger sequence, or rolls back. -/
theorem StoreOp.lt_or_rollsBack_of_inserted {s : Store} {op : StoreOp} {q old : StoredRecord}
    (h : op.inserted s = some q) (hq : q.Signed) (hold : s.records.lookup q.key = some old)
    (hne : q ≠ old) : old.sequence < q.sequence ∨ op.RollsBack s q.key := by
  by_cases hlt : old.sequence < q.sequence
  · exact Or.inl hlt
  right
  have hle : q.sequence ≤ old.sequence := UInt64.not_lt.mp hlt
  cases op with
  | putImmutableTtl now value ttlSecs =>
    rw [inserted] at h
    split_ifs at h
    cases h
    exact absurd hq (StoredRecord.not_signed_of_immutable rfl)
  | putRecord r probe =>
    obtain ⟨hfit, hacc, hprobe, rfl⟩ := inserted_putRecord_eq_some.mp h
    refine ⟨rfl, hfit, hacc.authentic, old, hold, hne, hle, ?_⟩
    rcases hq with hk | hk
    · have hnt : r.kind ≠ kindTombstone := by rw [hk]; decide
      rcases hacc with ⟨hk', -⟩ | ⟨-, -, hseq⟩ | ⟨hk', -⟩ | hk'
      · exact absurd (hk ▸ hk') (by decide)
      · exact Or.inr ⟨hk, (hseq old hold).resolve_right hlt, hprobe.resolve_left hnt⟩
      · exact absurd hk' hnt
      · exact absurd (hk ▸ hk') (by decide)
    · exact Or.inl hk
  | cacheHit now r checked => cases h
  | announceProvider now key peerId metadata => cases h
  | gc now => cases h
  | flushWal => cases h

theorem StoreOp.inserted_tombstone {s : Store} {r : StoredRecord} {probe : Bool} (hfit : r.Fits)
    (hauth : r.authentic = true) (hk : r.kind = kindTombstone) :
    (putRecord r probe).inserted s = some r := by
  rw [StoredRecord.authentic_of_signed (Or.inr hk)] at hauth
  exact inserted_putRecord_eq_some.mpr
    ⟨hfit, Or.inr (Or.inr (Or.inl ⟨hk, hauth⟩)), Or.inl hk, rfl⟩

/-- Over a mutable record, an operation other than the garbage collector puts a different signed
record only with a larger sequence, exactly when it does not roll back. -/
theorem grows_iff_not_rollsBack {s : Store} {k : Key} {op : StoreOp} (hgc : op.NoGc)
    {old : StoredRecord} (hold : s.records.lookup k = some old) (hk : old.kind = kindMutable) :
    (∀ r, (op.exec s).records.lookup k = some r → r.Signed → r ≠ old →
      old.sequence < r.sequence) ↔ ¬op.RollsBack s k := by
  constructor
  · intro hgrow hback
    cases op with
    | putRecord r probe =>
      obtain ⟨rfl, hfit, hauth, old', hold', hne, hle, hkind⟩ := hback
      obtain rfl : old = old' := Option.some.inj (hold.symm.trans hold')
      have htomb : r.kind = kindTombstone := by
        refine hkind.resolve_right ?_
        rintro ⟨-, hk', -⟩
        exact absurd (hk ▸ hk') (by decide)
      have hafter := StoreOp.lookup_exec_of_inserted (s := s) hgc r.key
      rw [StoreOp.inserted_tombstone hfit hauth htomb] at hafter
      exact absurd hle (UInt64.not_le.mpr
        (hgrow r (hafter.trans (if_pos rfl)) (Or.inr htomb) hne))
    | putImmutableTtl now value ttlSecs => exact hback
    | cacheHit now r checked => exact hback
    | announceProvider now key peerId metadata => exact hback
    | gc now => exact hback
    | flushWal => exact hback
  · intro hno r hr hs hne
    rcases op.lookup_exec_cases s k with h | ⟨q, hq, rfl, h⟩ | ⟨now, -, h⟩
    · exact absurd (Option.some.inj (hr.symm.trans (h.trans hold))) hne
    · obtain rfl : q = r := Option.some.inj (h.symm.trans hr)
      exact (StoreOp.lt_or_rollsBack_of_inserted hq hs hold hne).resolve_right hno
    · rw [h] at hr
      cases hr

/-- No step of the history collects garbage, files an unsigned record under `k` or rolls it back. -/
def Store.GrowsAlong (k : Key) (s : Store) (ops : List StoreOp) : Prop :=
  Runs.Along StoreOp.exec (fun s op ↦ op.NoGc ∧ ¬op.TakesUnsigned k ∧ ¬op.RollsBack s k) s ops

/-- What stands under `k` in `s` is still there in `s'`, or has made way for a larger sequence. -/
def Store.NotOlder (k : Key) (s s' : Store) : Prop :=
  ∀ a, s.records.lookup k = some a →
    ∃ b, s'.records.lookup k = some b ∧ (b = a ∨ a.sequence < b.sequence)

namespace Store.NotOlder

variable {k : Key}

omit [Crates] in
theorem refl (s : Store) : NotOlder k s s := fun a ha ↦ ⟨a, ha, Or.inl rfl⟩

omit [Crates] in
theorem trans {s s' s'' : Store} (h : NotOlder k s s') (h' : NotOlder k s' s'') :
    NotOlder k s s'' := by
  intro a ha
  obtain ⟨b, hb, hab⟩ := h a ha
  obtain ⟨c, hc, hbc⟩ := h' b hb
  refine ⟨c, hc, ?_⟩
  rcases hab with rfl | hab
  · exact hbc
  rcases hbc with rfl | hbc
  · exact Or.inr hab
  · exact Or.inr (UInt64.lt_trans hab hbc)

/-- One step keeps the record under `k` or replaces it by one with a larger sequence. -/
theorem exec {s : Store} {op : StoreOp} (hgc : op.NoGc) (hu : ¬op.TakesUnsigned k)
    (hb : ¬op.RollsBack s k) : NotOlder k s (op.exec s) := by
  intro a ha
  rcases op.lookup_exec_cases s k with h | ⟨q, hq, rfl, h⟩ | ⟨now, rfl, -⟩
  · exact ⟨a, h.trans ha, Or.inl rfl⟩
  · refine ⟨q, h, ?_⟩
    by_cases hne : q = a
    · exact Or.inl hne
    have hs : q.Signed := by
      by_contra hns
      exact hu (StoreOp.takesUnsigned_iff.mpr ⟨q, hq, rfl, hns⟩)
    exact Or.inr ((StoreOp.lt_or_rollsBack_of_inserted hq hs ha hne).resolve_right hb)
  · exact absurd hgc id

theorem foldl {s : Store} {ops : List StoreOp} (h : s.GrowsAlong k ops) :
    NotOlder k s (ops.foldl StoreOp.exec s) :=
  Runs.Along.relation h refl (fun _ _ _ ↦ trans) fun _ _ hp ↦ exec hp.1 hp.2.1 hp.2.2

end Store.NotOlder

/-- From every reachable store: a step replaces a mutable record only by a signed record with a
larger sequence exactly when it does not roll back; and along a history whose steps neither roll
`k` back, nor file an unsigned record there, nor collect garbage, the record found under `k` at any
moment is still there later or has made way for one with a larger sequence. -/
theorem monotone_sequence (run : StoreRun) (k : Key) :
    (∀ op : StoreOp, op.NoGc → ∀ old, run.final.records.lookup k = some old →
      old.kind = kindMutable →
      ((∀ r, (op.exec run.final).records.lookup k = some r → r.Signed → r ≠ old →
        old.sequence < r.sequence) ↔ ¬op.RollsBack run.final k)) ∧
    (∀ ops₁ ops₂ : List StoreOp, run.final.GrowsAlong k (ops₁ ++ ops₂) →
      Store.NotOlder k (ops₁.foldl StoreOp.exec run.final)
        ((ops₁ ++ ops₂).foldl StoreOp.exec run.final)) := by
  refine ⟨fun op hgc old hold hk ↦ grows_iff_not_rollsBack hgc hold hk, ?_⟩
  intro ops₁ ops₂ h
  rw [List.foldl_append]
  exact Store.NotOlder.foldl (Runs.along_append.mp h).2

end

section

open Sample

attribute [local instance] Sample.crates

/-- The second version over the first does not roll back, and its sequence is larger. -/
theorem monotone_sequence_second_version :
    ¬(StoreOp.putRecord recordTwo false).RollsBack
        (StoreRun.mk .new [.putRecord recordOne false]).final slotKey ∧
      recordOne.sequence < recordTwo.sequence := by
  have hno : ¬(StoreOp.putRecord recordTwo false).RollsBack
      (StoreRun.mk .new [.putRecord recordOne false]).final slotKey := by
    rintro ⟨-, -, -, old, hold, -, -, hk | ⟨-, hk, -⟩⟩
    · exact absurd hk (by decide)
    · have hone : (StoreRun.mk .new [.putRecord recordOne false]).final.records.lookup slotKey
          = some recordOne := by decide +kernel
      obtain rfl : recordOne = old := Option.some.inj (hone.symm.trans hold)
      exact absurd hk (by decide)
  refine ⟨hno, ((monotone_sequence (StoreRun.mk .new [.putRecord recordOne false]) slotKey).1
    (.putRecord recordTwo false) trivial recordOne (by decide +kernel) rfl).mpr hno recordTwo
    (by decide +kernel) (Or.inl rfl) (by decide)⟩

/-- The first version, relabelled as a tombstone, replaces the second. -/
theorem monotone_sequence_fails :
    ¬∀ (_ : Crates) (run : StoreRun) (k : Key) (op : StoreOp), op.NoGc →
      ∀ old, run.final.records.lookup k = some old → old.kind = kindMutable →
      ∀ r, (op.exec run.final).records.lookup k = some r → r.Signed → r ≠ old →
        old.sequence < r.sequence := by
  intro h
  have hlt := h Sample.crates ⟨.new, [.putRecord recordTwo false]⟩ slotKey
    (.putRecord recordOne.relabel false) trivial recordTwo (by decide +kernel) rfl
    recordOne.relabel (by decide +kernel) (Or.inr rfl) (by decide)
  exact absurd hlt (by decide)

end

end Molia
