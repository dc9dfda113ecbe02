import Mathlib.Data.List.Induction
import Mathlib.Data.Set.Insert
import Molia.Store.Content

/-!
# Who can write a named slot

The key of a named slot is the hash of public data, and `putRecord` files every kind of record
under the key the record carries. This file settles what that means for the owner of a slot.

* A signed record stays in its slot, or makes way for one of the same owner, except when an
  unsigned record takes the slot: a provider record, which is not checked at all, or an immutable
  record whose value spells out the name of the slot.
* The owner's next version is accepted, except when such an unsigned record sits in the slot with a
  sequence that is at least as large.
* The kind is not part of the signed envelope, so every signed version is also a valid tombstone.

The first two are equivalences over reachable stores: the exception is exactly the stated one.
-/

namespace Molia

section

variable [Crates]

/-! ## Where the content of a slot comes from -/

namespace StoreOp

theorem submitted_of_inserted {s : Store} {op : StoreOp} {q : StoredRecord}
    (h : op.inserted s = some q) (hs : q.Signed) : op.submitted = some q := by
  cases op with
  | putImmutableTtl now value ttlSecs =>
    rw [inserted] at h
    split_ifs at h
    cases h
    exact absurd hs (StoredRecord.not_signed_of_immutable rfl)
  | putRecord r probe =>
    obtain ⟨-, -, -, rfl⟩ := inserted_putRecord_eq_some.mp h
    rfl
  | cacheHit now r checked => cases h
  | announceProvider now key peerId metadata => cases h
  | gc now => cases h
  | flushWal => cases h

end StoreOp

/-- A record held under a key was recovered from the log or inserted by an operation. -/
theorem StoreRun.lookup_origin {run : StoreRun} {k : Key} {q : StoredRecord}
    (h : run.final.records.lookup k = some q) :
    q.key = k ∧ (q ∈ run.start.recovered ∨ ∃ op ∈ run.ops, ∃ s, op.inserted s = some q) := by
  obtain ⟨start, ops⟩ := run
  induction ops using List.reverseRecOn with
  | nil =>
    obtain ⟨hmem, hk⟩ := StoreStart.lookup_store h
    exact ⟨hk, Or.inl hmem⟩
  | append_singleton ops op ih =>
    have hfinal : (StoreRun.mk start (ops ++ [op])).final
        = op.exec (StoreRun.mk start ops).final := by
      rw [StoreRun.final, List.foldl_append]
      rfl
    rw [hfinal] at h
    rcases op.lookup_exec_cases (StoreRun.mk start ops).final k with
      h' | ⟨r, hr, hk, h'⟩ | ⟨now, -, h'⟩
    · obtain ⟨hk, hrec | ⟨o, ho, hins⟩⟩ := ih (h' ▸ h)
      · exact ⟨hk, Or.inl hrec⟩
      · exact ⟨hk, Or.inr ⟨o, List.mem_append_left _ ho, hins⟩⟩
    · obtain rfl : r = q := Option.some.inj (h'.symm.trans h)
      exact ⟨hk, Or.inr ⟨op, List.mem_append_right _ (List.mem_singleton_self op), _, hr⟩⟩
    · rw [h'] at h
      cases h

theorem StoreRun.mem_submitted {run : StoreRun} {k : Key} {q : StoredRecord}
    (h : run.final.records.lookup k = some q) (hs : q.Signed) : q ∈ run.submitted := by
  rw [StoreRun.submitted, List.mem_append, List.mem_filterMap]
  obtain ⟨-, hrec | ⟨op, hop, s, hins⟩⟩ := StoreRun.lookup_origin h
  · exact Or.inl hrec
  · exact Or.inr ⟨op, hop, StoreOp.submitted_of_inserted hins hs⟩

/-! ## Displacing an owner's record -/

/-- What may stand in the slot of `old` afterwards: `old` itself, or a valid signed record of the
same owner. -/
def KeepsOwner (old : StoredRecord) (after : Option StoredRecord) : Prop :=
  after = some old ∨
    ∃ r, after = some r ∧ r.Signed ∧ r.envelopeOk = true ∧ r.ownerPubkey = old.ownerPubkey

/-- The operation files an unsigned record under `k`: a provider record, or a value that hashes to
`k`, within the size limit and not as a probe. -/
def StoreOp.TakesUnsigned (k : Key) : StoreOp → Prop
  | putRecord r probe =>
    r.key = k ∧ r.Fits ∧ probe = false ∧
      (r.kind = kindProvider ∨ (r.kind = kindImmutable ∧ hashValue r.value = k))
  | putImmutableTtl _ value _ => value.length ≤ pmtuFloor * 64 ∧ hashValue value = k
  | _ => False

theorem StoreOp.takesUnsigned_iff {s : Store} {op : StoreOp} {k : Key} :
    op.TakesUnsigned k ↔ ∃ q, op.inserted s = some q ∧ q.key = k ∧ ¬q.Signed := by
  cases op with
  | putImmutableTtl now value ttlSecs =>
    rw [TakesUnsigned, inserted]
    constructor
    · rintro ⟨hlen, hkey⟩
      exact ⟨_, if_neg (not_lt.mpr hlen), hkey, StoredRecord.not_signed_of_immutable rfl⟩
    · rintro ⟨q, hq, hkey, -⟩
      split_ifs at hq with hlen
      cases hq
      exact ⟨not_lt.mp hlen, hkey⟩
  | putRecord r probe =>
    rw [TakesUnsigned]
    constructor
    · rintro ⟨hkey, hfit, hprobe, hkind⟩
      refine ⟨r, inserted_putRecord_eq_some.mpr ⟨hfit, ?_, Or.inr hprobe, rfl⟩, hkey, ?_⟩
      · rcases hkind with hk | ⟨hk, hv⟩
        · exact Or.inr (Or.inr (Or.inr hk))
        · exact Or.inl ⟨hk, hv.trans hkey.symm⟩
      · rcases hkind with hk | ⟨hk, -⟩
        · exact StoredRecord.not_signed_of_provider hk
        · exact StoredRecord.not_signed_of_immutable hk
    · rintro ⟨q, hq, hkey, hns⟩
      obtain ⟨hfit, hacc, hprobe, rfl⟩ := inserted_putRecord_eq_some.mp hq
      have hp : probe = false := hprobe.resolve_left fun hk ↦ hns (Or.inr hk)
      refine ⟨hkey, hfit, hp, ?_⟩
      rcases hacc with ⟨hk, hv⟩ | ⟨hk, -, -⟩ | ⟨hk, -⟩ | hk
      · exact Or.inr ⟨hk, hv.trans hkey⟩
      · exact absurd (Or.inl hk) hns
      · exact absurd (Or.inr hk) hns
      · exact Or.inl hk
  | cacheHit now r checked => simp [TakesUnsigned, inserted]
  | announceProvider now key peerId metadata => simp [TakesUnsigned, inserted]
  | gc now => simp [TakesUnsigned, inserted]
  | flushWal => simp [TakesUnsigned, inserted]

/-- The owner of the record under `k` keeps the slot along a history that files no unsigned record
there and does not collect garbage. -/
theorem keepsOwner_foldl {s : Store} (hsound : s.Sound) {k : Key} {old : StoredRecord}
    (hold : s.records.lookup k = some old) (hs : old.Signed) {ops : List StoreOp}
    (hops : ∀ op ∈ ops, op.NoGc ∧ ¬op.TakesUnsigned k)
    (hcol : ∀ op ∈ ops, ∀ r, op.submitted = some r → r.Signed → r.key = k →
      NoCollision r.slot old.slot) :
    KeepsOwner old ((ops.foldl StoreOp.exec s).records.lookup k) := by
  -- The slot is never emptied, and what it holds is `old` or was handed over by an operation.
  have hrun : ∃ q, (ops.foldl StoreOp.exec s).records.lookup k = some q ∧ q.Signed ∧
      (q = old ∨ NoCollision q.slot old.slot) := by
    refine List.foldlRecOn (motive := fun s ↦ ∃ q, s.records.lookup k = some q ∧ q.Signed ∧
      (q = old ∨ NoCollision q.slot old.slot)) ops StoreOp.exec ⟨old, hold, hs, Or.inl rfl⟩ ?_
    rintro s' ⟨q, hq, hqs, hqo⟩ op hop
    rcases op.lookup_exec_cases s' k with h | ⟨r, hr, hk, h⟩ | ⟨now, rfl, -⟩
    · exact ⟨q, h.trans hq, hqs, hqo⟩
    · have hrs : r.Signed := by
        by_contra hns
        exact (hops op hop).2 (StoreOp.takesUnsigned_iff.mpr ⟨r, hr, hk, hns⟩)
      exact ⟨r, h, hrs, Or.inr (hcol op hop r (StoreOp.submitted_of_inserted hr hrs) hrs hk)⟩
    · exact absurd (hops _ hop).1 id
  obtain ⟨q, hq, hqs, hqo⟩ := hrun
  rcases hqo with rfl | hqo
  · exact Or.inl hq
  have hsound' := Store.sound_foldl hsound ops
  have hkey : q.key = old.key := by rw [(hsound'.records hq).1, (hsound.records hold).1]
  exact Or.inr ⟨q, hq, hqs, hsound'.envelopeOk hq hqs, StoredRecord.owner_eq_of_envelopeOk
    (hsound'.envelopeOk hq hqs) (hsound.envelopeOk hold hs) hkey hqo⟩

/-- An unsigned record that is filed under the key of a signed one displaces it. -/
theorem not_keepsOwner_of_takesUnsigned {s : Store} {k : Key} {old : StoredRecord}
    (hs : old.Signed) {op : StoreOp} (hgc : op.NoGc) (h : op.TakesUnsigned k) :
    ¬KeepsOwner old ((op.exec s).records.lookup k) := by
  obtain ⟨q, hq, rfl, hns⟩ := (StoreOp.takesUnsigned_iff (s := s)).mp h
  have hafter : (op.exec s).records.lookup q.key = some q := by
    rw [StoreOp.lookup_exec_of_inserted hgc, hq]
    exact if_pos rfl
  rw [hafter]
  rintro (hsame | ⟨r, hr, hrs, -⟩)
  · cases hsame
    exact hns hs
  · cases hr
    exact hns hrs

/-- From every reachable store that holds a signed record under `k`: an operation other than the
garbage collector keeps the slot with its owner exactly when it does not file an unsigned record
there, and the owner keeps the slot in every state of a history of such operations. -/
theorem displaced_only_by_owner (run : StoreRun) (k : Key) (old : StoredRecord)
    (hold : run.final.records.lookup k = some old) (hs : old.Signed) (ops : List StoreOp)
    (hgc : ∀ op ∈ ops, op.NoGc)
    (hcol : ∀ op ∈ ops, ∀ r, op.submitted = some r → r.Signed → r.key = k →
      NoCollision r.slot old.slot) :
    (∀ op ∈ ops, (KeepsOwner old ((op.exec run.final).records.lookup k) ↔
      ¬op.TakesUnsigned k)) ∧
    ((∀ op ∈ ops, ¬op.TakesUnsigned k) →
      KeepsOwner old ((ops.foldl StoreOp.exec run.final).records.lookup k)) := by
  refine ⟨fun op hop ↦ ⟨fun hkeep htakes ↦ ?_, fun hno ↦ ?_⟩, fun hno ↦ ?_⟩
  · exact not_keepsOwner_of_takesUnsigned hs (hgc op hop) htakes hkeep
  · have hgood : ∀ o ∈ [op], o.NoGc ∧ ¬o.TakesUnsigned k := by
      rw [List.forall_mem_singleton]
      exact ⟨hgc op hop, hno⟩
    refine keepsOwner_foldl run.sound hold hs hgood ?_
    rw [List.forall_mem_singleton]
    exact hcol op hop
  · exact keepsOwner_foldl run.sound hold hs (fun op hop ↦ ⟨hgc op hop, hno op hop⟩) hcol

end

section

open Sample

attribute [local instance] Sample.crates

/-- An owner's second version over the first: nothing unsigned, and the owner is kept. -/
theorem displaced_only_by_owner_second_version :
    ¬(StoreOp.putRecord recordTwo false).TakesUnsigned slotKey ∧
      KeepsOwner recordOne (((StoreOp.putRecord recordTwo false).exec
        (StoreRun.mk .new [.putRecord recordOne false]).final).records.lookup slotKey) := by
  have hno : ¬(StoreOp.putRecord recordTwo false).TakesUnsigned slotKey := by
    rintro ⟨-, -, -, hk | ⟨hk, -⟩⟩ <;> exact absurd hk (by decide)
  refine ⟨hno, ((displaced_only_by_owner ⟨.new, [.putRecord recordOne false]⟩ slotKey recordOne
    (by decide +kernel) (by decide) [.putRecord recordTwo false] ?_ ?_).1
    (.putRecord recordTwo false) (List.mem_singleton_self _)).mpr hno⟩
  · rw [List.forall_mem_singleton]
    trivial
  · rw [List.forall_mem_singleton]
    intro r hr _ _ _
    obtain rfl : recordTwo = r := Option.some.inj hr
    rfl

/-- A provider record, which carries no signature, displaces an owner's record. -/
theorem displaced_only_by_owner_fails :
    ¬∀ (_ : Crates) (run : StoreRun) (k : Key) (old : StoredRecord) (op : StoreOp),
      run.final.records.lookup k = some old → old.Signed → op.NoGc →
      (∀ r, op.submitted = some r → r.Signed → r.key = k → NoCollision r.slot old.slot) →
      KeepsOwner old ((op.exec run.final).records.lookup k) := by
  intro h
  have hkeep := h Sample.crates ⟨.new, [.putRecord recordOne false]⟩ slotKey recordOne
    (.putRecord squatter false) (by decide +kernel) (by decide) trivial
    (by
      intro r hr hs
      obtain rfl : squatter = r := Option.some.inj hr
      exact absurd hs (by decide))
  have hafter : ((StoreOp.putRecord squatter false).exec
      (StoreRun.mk .new [.putRecord recordOne false]).final).records.lookup slotKey
        = some squatter := by
    decide +kernel
  rw [hafter] at hkeep
  rcases hkeep with hkeep | ⟨r, hr, hs, -⟩
  · exact absurd hkeep (by decide)
  · obtain rfl : squatter = r := Option.some.inj hr
    exact absurd hs (by decide)

end

/-! ## Publishing the next version -/

section

variable [Crates]

namespace Store

/-- The record is accepted, and read back for as long as it lives. -/
def Publishes (s : Store) (r : StoredRecord) : Prop :=
  (s.putRecord r false).1 = .ok () ∧
    ∀ now, r.expired now = false → (s.putRecord r false).2.get now r.key = some r

/-- An unsigned record sits in the slot of `r` with a sequence that is not smaller. -/
def HeldAhead (s : Store) (r : StoredRecord) : Prop :=
  ∃ old, s.records.lookup r.key = some old ∧ ¬old.Signed ∧ r.sequence ≤ old.sequence

omit [Crates] in
theorem get_of_lookup {s : Store} {k : Key} {r : StoredRecord} {now : UInt64}
    (h : s.records.lookup k = some r) (hexp : r.expired now = false)
    (hk : r.kind ≠ kindTombstone) : s.get now k = some r := by
  rw [get, h]
  simp [hexp, hk]

/-- For a valid mutable record, publishing is a matter of the record already in the slot. -/
theorem publishes_iff_sequence {s : Store} {r : StoredRecord} (hkind : r.kind = kindMutable)
    (henv : r.envelopeOk = true) (hfit : r.Fits) :
    s.Publishes r ↔ ∀ old, s.records.lookup r.key = some old →
      old.kind = kindTombstone ∨ old.sequence < r.sequence := by
  have hne : r.kind ≠ kindTombstone := by rw [hkind]; decide
  constructor
  · rintro ⟨hok, -⟩
    by_contra hno
    have hadm : s.validate r ≠ .ok () := by
      rw [Ne, validate_eq_ok_iff]
      rintro ⟨-, ⟨hk, -⟩ | ⟨-, -, hseq⟩ | ⟨hk, -⟩ | hk⟩
      · rw [hkind] at hk
        exact absurd hk (by decide)
      · exact hno hseq
      · exact hne hk
      · rw [hkind] at hk
        exact absurd hk (by decide)
    obtain ⟨e, he⟩ := putRecord_of_not_admitted false hadm
    rw [he] at hok
    cases hok
  · intro hseq
    have hadm : s.validate r = .ok () :=
      validate_eq_ok_iff.mpr ⟨hfit, Or.inr (Or.inl ⟨hkind, henv, hseq⟩)⟩
    rw [Publishes, putRecord_of_admitted false hadm, if_pos (Or.inr rfl)]
    refine ⟨rfl, fun now hexp ↦ get_of_lookup ?_ hexp hne⟩
    rw [records_insertRecord, AList.lookup_insert]

end Store

/-- The operation hands over an unsigned record for `k` whose sequence is at least `sequence`; a
record made by `putImmutableTtl` has sequence zero. -/
def StoreOp.UnsignedAhead (k : Key) (sequence : UInt64) : StoreOp → Prop
  | putRecord q _ => q.key = k ∧ ¬q.Signed ∧ sequence ≤ q.sequence
  | putImmutableTtl _ value _ => hashValue value = k ∧ sequence ≤ 0
  | _ => False

theorem StoreOp.unsignedAhead_of_inserted {s : Store} {op : StoreOp} {q : StoredRecord}
    {sequence : UInt64} (h : op.inserted s = some q) (hns : ¬q.Signed)
    (hseq : sequence ≤ q.sequence) : op.UnsignedAhead q.key sequence := by
  cases op with
  | putImmutableTtl now value ttlSecs =>
    rw [inserted] at h
    split_ifs at h
    cases h
    exact ⟨rfl, hseq⟩
  | putRecord r probe =>
    obtain ⟨-, -, -, rfl⟩ := inserted_putRecord_eq_some.mp h
    exact ⟨rfl, hns, hseq⟩
  | cacheHit now r checked => cases h
  | announceProvider now key peerId metadata => cases h
  | gc now => cases h
  | flushWal => cases h

/-- A valid mutable record that is newer than everything its owner signed for the key is published
exactly when no unsigned record with an equal or larger sequence sits in the slot; and none does
after a history in which nobody handed over such a record. -/
theorem publishes_iff_not_heldAhead (run : StoreRun) (r : StoredRecord)
    (hkind : r.kind = kindMutable) (hauth : r.authentic = true) (hfit : r.Fits)
    (hfresh : ∀ q ∈ run.submitted, q.Signed → q.authentic = true → q.key = r.key →
      q.ownerPubkey = r.ownerPubkey → q.sequence < r.sequence)
    (hcol : ∀ q ∈ run.submitted, q.Signed → q.authentic = true → q.key = r.key →
      NoCollision q.slot r.slot) :
    (run.final.Publishes r ↔ ¬run.final.HeldAhead r) ∧
      ((∀ q ∈ run.start.recovered, q.key = r.key → ¬q.Signed → q.sequence < r.sequence) →
        (∀ op ∈ run.ops, ¬op.UnsignedAhead r.key r.sequence) → run.final.Publishes r) := by
  have henv : r.envelopeOk = true := by
    rw [← StoredRecord.authentic_of_signed (Or.inl hkind)]
    exact hauth
  have hiff : run.final.Publishes r ↔ ¬run.final.HeldAhead r := by
    rw [Store.publishes_iff_sequence hkind henv hfit]
    constructor
    · rintro hseq ⟨old, hold, hns, hle⟩
      rcases hseq old hold with hk | hlt
      · exact hns (Or.inr hk)
      · exact absurd hle (UInt64.not_le.mpr hlt)
    · intro hno old hold
      by_cases hs : old.Signed
      · right
        obtain ⟨hk, ha⟩ := run.sound.records hold
        have hmem := StoreRun.mem_submitted hold hs
        have howner := StoredRecord.owner_eq_of_envelopeOk (run.sound.envelopeOk hold hs) henv hk
          (hcol old hmem hs ha hk)
        exact hfresh old hmem hs ha hk howner
      · exact Or.inr (UInt64.not_le.mp fun hle ↦ hno ⟨old, hold, hs, hle⟩)
  refine ⟨hiff, fun hrec hops ↦ hiff.mpr ?_⟩
  rintro ⟨old, hold, hns, hle⟩
  obtain ⟨hk, hmem | ⟨op, hop, s, hins⟩⟩ := StoreRun.lookup_origin hold
  · exact absurd hle (UInt64.not_le.mpr (hrec old hmem hk hns))
  · exact hops op hop (hk ▸ StoreOp.unsignedAhead_of_inserted hins hns hle)

end

section

open Sample

attribute [local instance] Sample.crates

/-- The second version over the first. -/
theorem publishes_second_version :
    (StoreRun.mk .new [.putRecord recordOne false]).final.Publishes recordTwo := by
  refine (publishes_iff_not_heldAhead (StoreRun.mk .new [.putRecord recordOne false]) recordTwo rfl
    ?_ (by decide) ?_ ?_).2 ?_ ?_
  · rw [StoredRecord.authentic_of_signed (Or.inl rfl)]
    exact envelopeOk_recordTwo
  · intro q hq _ _ _ _
    obtain rfl : q = recordOne := List.mem_singleton.mp hq
    decide
  · intro q hq _ _ _ _
    obtain rfl : q = recordOne := List.mem_singleton.mp hq
    rfl
  · intro q hq
    cases hq
  · intro op hop
    obtain rfl : op = .putRecord recordOne false := List.mem_singleton.mp hop
    rintro ⟨-, hns, -⟩
    exact hns (by decide)

/-- One unsigned record with the largest sequence blocks the owner's first version. -/
theorem publishes_fails :
    ¬∀ (_ : Crates) (run : StoreRun) (r : StoredRecord), r.kind = kindMutable →
      r.authentic = true → r.Fits →
      (∀ q ∈ run.submitted, q.Signed → q.authentic = true → q.key = r.key →
        q.ownerPubkey = r.ownerPubkey → q.sequence < r.sequence) →
      (∀ q ∈ run.submitted, q.Signed → q.authentic = true → q.key = r.key →
        NoCollision q.slot r.slot) →
      run.final.Publishes r := by
  intro h
  have hsquat : ∀ q ∈ (StoreRun.mk .new [.putRecord squatter false]).submitted, ¬q.Signed := by
    intro q hq
    obtain rfl : q = squatter := List.mem_singleton.mp hq
    decide
  have hpub := h Sample.crates ⟨.new, [.putRecord squatter false]⟩ recordOne rfl
    (by rw [StoredRecord.authentic_of_signed (Or.inl rfl)]; exact envelopeOk_recordOne) (by decide)
    (fun q hq hs ↦ absurd hs (hsquat q hq)) (fun q hq hs ↦ absurd hs (hsquat q hq))
  rw [Store.publishes_iff_sequence rfl envelopeOk_recordOne (by decide)] at hpub
  rcases hpub squatter (by decide +kernel) with hk | hlt
  · exact absurd hk (by decide)
  · exact absurd hlt (by decide)

end

/-! ## Deleting -/

section

variable [Crates]

namespace StoredRecord

/-- The same record with its kind changed to tombstone. -/
def relabel (r : StoredRecord) : StoredRecord := { r with kind := kindTombstone }

/-- The envelope does not cover the kind. -/
theorem envelopeOk_relabel (r : StoredRecord) : r.relabel.envelopeOk = r.envelopeOk := rfl

theorem authentic_relabel {r : StoredRecord} (hkind : r.kind = kindMutable)
    (h : r.authentic = true) : r.relabel.authentic = true := by
  rw [authentic_of_signed (Or.inl hkind)] at h
  rw [authentic_of_signed (Or.inr rfl), envelopeOk_relabel, h]

end StoredRecord

/-- Nobody forges a signature: a valid signed record for `k` carries a signature that occurs in a
record of `published`. Anything else may be handed over. -/
def StoreRun.Unforged (run : StoreRun) (k : Key) (published : Set StoredRecord) : Prop :=
  ∀ q ∈ run.submitted, q.Signed → q.authentic = true → q.key = k →
    ∃ p ∈ published, p.signature = q.signature

/-- Somebody hands over a tombstone for `k` that carries the signature of a published record. -/
def StoreRun.Relabels (run : StoreRun) (k : Key) (published : Set StoredRecord) : Prop :=
  ∃ q ∈ run.submitted, q.kind = kindTombstone ∧ q.key = k ∧
    ∃ p ∈ published, p.signature = q.signature

/-- A tombstone in the slot is a forgery or a relabelled record. -/
theorem StoreRun.relabels_of_tombstone {run : StoreRun} {k : Key} {published : Set StoredRecord}
    (hun : run.Unforged k published) {r : StoredRecord}
    (hr : run.final.records.lookup k = some r) (hk : r.kind = kindTombstone) :
    run.Relabels k published := by
  have hs : r.Signed := Or.inr hk
  obtain ⟨hkey, ha⟩ := run.sound.records hr
  have hmem := StoreRun.mem_submitted hr hs
  exact ⟨r, hmem, hk, hkey, hun r hmem hs ha hkey⟩

/-- Let an owner publish only mutable records for `k`. Without forging a signature, the slot never
becomes a tombstone in a history in which no published record is handed over again as a tombstone.
That this never happens is certain only if nothing was published: every valid mutable record is a
valid tombstone. -/
theorem never_tombstone_iff (k : Key) (published : Set StoredRecord)
    (hpub : ∀ p ∈ published, p.key = k ∧ p.kind = kindMutable ∧ p.authentic = true ∧ p.Fits) :
    (∀ run : StoreRun, run.Unforged k published → ¬run.Relabels k published →
      ∀ r, run.final.records.lookup k = some r → r.kind ≠ kindTombstone) ∧
    ((∀ run : StoreRun, run.Unforged k published →
      ∀ r, run.final.records.lookup k = some r → r.kind ≠ kindTombstone) ↔ published = ∅) ∧
    ∀ r : StoredRecord, r.kind = kindMutable → r.authentic = true → r.relabel.authentic = true := by
  refine ⟨fun run hun hno r hr hk ↦ hno (StoreRun.relabels_of_tombstone hun hr hk),
    ⟨fun h ↦ ?_, fun hempty run hun r hr hk ↦ ?_⟩, fun r ↦ StoredRecord.authentic_relabel⟩
  · by_contra hne
    obtain ⟨p, hp⟩ := Set.nonempty_iff_ne_empty.mpr hne
    obtain ⟨hkey, hkind, hauth, hfit⟩ := hpub p hp
    -- the attack: hand the published record over again, relabelled
    have hun : (StoreRun.mk .new [.putRecord p.relabel false]).Unforged k published := by
      intro q hq _ _ _
      obtain rfl : q = p.relabel := List.mem_singleton.mp hq
      exact ⟨p, hp, rfl⟩
    have hadm : Store.new.validate p.relabel = .ok () := by
      refine Store.validate_eq_ok_iff.mpr ⟨hfit, Or.inr (Or.inr (Or.inl ⟨rfl, ?_⟩))⟩
      rw [← StoredRecord.authentic_of_signed (Or.inr rfl)]
      exact StoredRecord.authentic_relabel hkind hauth
    have hheld : (StoreRun.mk .new [.putRecord p.relabel false]).final.records.lookup k
        = some p.relabel := by
      have hfinal : (StoreRun.mk .new [.putRecord p.relabel false]).final
          = (Store.new.putRecord p.relabel false).2 := rfl
      rw [hfinal, Store.putRecord_of_admitted false hadm, if_pos (Or.inr rfl),
        Store.records_insertRecord, ← hkey]
      exact AList.lookup_insert _
    exact h _ hun _ hheld rfl
  · obtain ⟨q, -, -, -, p, hp, -⟩ := StoreRun.relabels_of_tombstone hun hr hk
    rw [hempty] at hp
    exact hp

end

section

open Sample

attribute [local instance] Sample.crates

theorem authentic_recordOne : recordOne.authentic = true := by
  rw [StoredRecord.authentic_of_signed (Or.inl rfl)]
  exact envelopeOk_recordOne

/-- One published version, and the slot is not safe from deletion. -/
theorem never_tombstone_one_version :
    ¬∀ run : StoreRun, run.Unforged slotKey {recordOne} →
      ∀ r, run.final.records.lookup slotKey = some r → r.kind ≠ kindTombstone := by
  rw [(never_tombstone_iff slotKey {recordOne} ?_).2.1]
  · exact Set.singleton_ne_empty _
  · intro p hp
    obtain rfl : p = recordOne := hp
    exact ⟨rfl, rfl, authentic_recordOne, by decide⟩

/-- The owner published one mutable version; a copy of it with the kind changed deletes it. -/
theorem never_tombstone_fails :
    ¬∀ (_ : Crates) (k : Key) (published : Set StoredRecord),
      (∀ p ∈ published, p.key = k ∧ p.kind = kindMutable ∧ p.authentic = true) →
      ∀ run : StoreRun, run.Unforged k published →
        ∀ r, run.final.records.lookup k = some r → r.kind ≠ kindTombstone := by
  intro h
  refine h Sample.crates slotKey {recordOne} ?_
    ⟨.new, [.putRecord recordOne false, .putRecord recordOne.relabel false]⟩ ?_ recordOne.relabel
    (by decide +kernel) rfl
  · intro p hp
    obtain rfl : p = recordOne := hp
    exact ⟨rfl, rfl, authentic_recordOne⟩
  · intro q hq _ _ _
    refine ⟨recordOne, rfl, ?_⟩
    rcases List.mem_cons.mp hq with rfl | hq
    · rfl
    · obtain rfl : q = recordOne.relabel := List.mem_singleton.mp hq
      rfl

end

end Molia
