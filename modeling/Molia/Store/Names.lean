import Molia.Core.Wire
import Molia.Store.Recovery

/-!
# Names, keys and copies of records

The store files records of all kinds in one map, under keys that are hashes of byte strings: the
value of an immutable record, and the name of its slot for a signed one. The first part of this
module compares these byte strings. Neither of them says which kind it is, so a value that is long
enough to begin with a public key is also the name of a slot.

The second part follows a record that a store has taken to another store: encoded, sent or logged,
and decoded there. The copy has the fields of the original, but for a time to live of zero. The
decoder replaces it by a day, and the time to live is part of what the owner signed.
-/

namespace Molia

section

variable [Crates]

/-! ## Values and slot names -/

omit [Crates] in
theorem ne_slotName_iff (v : Bytes) :
    (∀ owner ns salt : Bytes, owner.length = 32 → v ≠ slotName owner ns salt) ↔ v.length < 32 := by
  constructor
  · intro h
    by_contra hlen
    refine h (v.take 32) (v.drop 32) [] ?_ ?_
    · rw [List.length_take]
      omega
    · rw [slotName, List.append_nil, List.take_append_drop]
  · intro hlen owner ns salt howner heq
    have hsum := congrArg List.length heq
    rw [slotName, List.length_append, List.length_append] at hsum
    omega

/-- **The two key spaces.** A value is hashed from another byte string than every named slot exactly
if it is shorter than 32 bytes. Such a value does not have the key of a signed record, unless the
two byte strings collide. -/
theorem immutable_keys_apart (v : Bytes) :
    ((∀ owner ns salt : Bytes, owner.length = 32 → v ≠ slotName owner ns salt) ↔ v.length < 32) ∧
      (v.length < 32 → ∀ r : StoredRecord, r.Signed → r.authentic = true →
        NoCollision v r.slot → hashValue v ≠ r.key) := by
  refine ⟨ne_slotName_iff v, ?_⟩
  intro hlen r hsigned hauth hcol hkey
  rw [StoredRecord.authentic_of_signed hsigned] at hauth
  have hslot : mutableKey r.ownerPubkey r.ns r.salt = r.key :=
    (StoredRecord.envelopeOk_iff.mp hauth).2.1
  have hname : v = r.slot := hcol (Key.mk.inj (hkey.trans hslot.symm))
  exact (ne_slotName_iff v).mpr hlen _ _ _ (StoredRecord.length_owner_of_envelopeOk hauth) hname

omit [Crates] in
/-- The value that spells out the name of a slot is hashed to the key of the slot. -/
theorem immutable_keys_apart_fails :
    ¬∀ v owner ns salt : Bytes, owner.length = 32 → v ≠ slotName owner ns salt := by
  intro h
  exact h (slotName Sample.owner Sample.ns Sample.salt) Sample.owner Sample.ns Sample.salt rfl rfl

/-! ## Copies -/

/-- The record as another store takes it in at the given time. -/
def StoredRecord.received (r : StoredRecord) (now : UInt64) : StoredRecord :=
  { r with storedUnix := now, cache := false }

theorem StoredRecord.authentic_received (r : StoredRecord) (now : UInt64) :
    (r.received now).authentic = r.authentic := rfl

theorem decode_encode (hcodec : Crates.record.RoundTrips) (r : StoredRecord) (now : UInt64) :
    (Crates.record.decode r.encode).bind (recordFromProto now) =
      some { r.received now with
        ttlSecs := if r.ttlSecs = 0 then mutableTtlSecs else r.ttlSecs } := by
  rw [StoredRecord.encode, hcodec, Option.bind_some, recordFromProto_toProto]
  rfl

/-- A record that one store takes is taken by every store that has nothing newer under its key. -/
theorem Store.Accepts.elsewhere {s s' : Store} {r : StoredRecord} (h : s.Accepts r)
    (hseq : s'.checkSequence r = .ok ()) : s'.Accepts r := by
  rcases h with himm | ⟨hkind, henv, -⟩ | htomb | hprov
  · exact Or.inl himm
  · exact Or.inr (Or.inl ⟨hkind, henv, Store.checkSequence_eq_ok_iff.mp hseq⟩)
  · exact Or.inr (Or.inr (Or.inl htomb))
  · exact Or.inr (Or.inr (Or.inr hprov))

/-- **Copies.** A record that a store has taken comes out of the codec as it was, and authentic,
exactly if its time to live is not zero. It is then recovered from the log, and taken by every
replica that has nothing newer under its key. -/
theorem replicable_iff (hcodec : Crates.record.RoundTrips) (s : Store) (r : StoredRecord)
    (hok : (s.putRecord r false).1 = .ok ()) (now : UInt64) :
    ((Crates.record.decode r.encode).bind (recordFromProto now) = some (r.received now) ∧
        (r.received now).authentic = true ↔ r.ttlSecs ≠ 0) ∧
      (r.ttlSecs ≠ 0 →
        Store.frameRecord now (Store.recordFrame r.encode) = some (r.received now) ∧
        ∀ s' : Store, s'.checkSequence r = .ok () →
          (s'.putRecord (r.received now) false).1 = .ok ()) := by
  rw [Store.putRecord_fst] at hok
  obtain ⟨hfit, haccepts⟩ := Store.validate_eq_ok_iff.mp hok
  have hauth := haccepts.authentic
  refine ⟨?_, ?_⟩
  · rw [decode_encode hcodec, r.authentic_received now]
    constructor
    · rintro ⟨hsame, -⟩ hzero
      have httl := congrArg StoredRecord.ttlSecs (Option.some.inj hsame)
      rw [if_pos hzero] at httl
      have hday : mutableTtlSecs = 0 := httl.trans hzero
      exact absurd hday (by decide)
    · intro hne
      refine ⟨?_, hauth⟩
      rw [if_neg hne]
      rfl
  · intro hne
    refine ⟨Store.frameRecord_recordFrame hcodec now hauth hne, ?_⟩
    intro s' hseq
    rw [Store.putRecord_fst]
    exact Store.validate_eq_ok_iff.mpr ⟨hfit, haccepts.elsewhere hseq⟩

end

/-! ## A record that does not survive -/

section

open Sample

attribute [local instance] wireCrates

theorem replicable_recordOne :
    (Store.new.putRecord recordOne false).1 = .ok () ∧
      (Crates.record.decode recordOne.encode).bind (recordFromProto 500)
        = some (recordOne.received 500) ∧
      (recordOne.received 500).authentic = true := by
  have hok : (Store.new.putRecord recordOne false).1 = .ok () := by decide +kernel
  have hiff := (replicable_iff Proto.roundTrips_recordWire Store.new recordOne hok 500).1
  exact ⟨hok, hiff.mpr (by decide)⟩

end

section

open Sample

/-- The owner's signature over the value `v` with sequence 1 and a time to live of zero. -/
private def sigZero : Bytes :=
  [228, 58, 158, 54, 46, 142, 202, 16, 60, 80, 17, 129, 45, 183, 26, 206, 70, 210, 136, 149, 46, 58,
    58, 38, 1, 139, 153, 51, 158, 152, 188, 20, 197, 172, 14, 198, 67, 203, 111, 15, 128, 173, 113,
    175, 185, 58, 222, 112, 157, 229, 101, 107, 119, 119, 15, 180, 209, 48, 21, 231, 220, 200, 200,
    10]

private def zeroVerify (pk : Bytes32) (msg sig : Bytes) : Bool :=
  nodeVerify pk msg sig ||
    (pk.val == owner && msg == recordBytes slotKey [118] 1 0 0 && sig == sigZero)

/-- The sample instance, with that signature. -/
@[reducible] private def zeroCrates : Crates := { wireCrates with verify := zeroVerify }

attribute [local instance] zeroCrates

/-- The record that `put_mutable_ttl` makes for the value with a time to live of zero. -/
private def timeless : StoredRecord := { recordOne with ttlSecs := 0, signature := sigZero }

/-- A record with a time to live of zero is taken, and its copy is not authentic. -/
theorem replicable_fails :
    ¬∀ (_ : Crates), Crates.record.RoundTrips → ∀ (s : Store) (r : StoredRecord) (now : UInt64),
      (s.putRecord r false).1 = .ok () →
      ∃ r', (Crates.record.decode r.encode).bind (recordFromProto now) = some r' ∧
        r'.ttlSecs = r.ttlSecs ∧ r'.authentic = true := by
  intro h
  have hok : (Store.new.putRecord timeless false).1 = .ok () := by decide +kernel
  obtain ⟨r', hcopy, -, hauth⟩ :=
    h zeroCrates Proto.roundTrips_recordWire Store.new timeless 500 hok
  have hforged : ((Crates.record.decode timeless.encode).bind (recordFromProto 500)).map
      StoredRecord.authentic = some false := by decide +kernel
  rw [hcopy, Option.map_some, hauth] at hforged
  cases hforged

end

end Molia
