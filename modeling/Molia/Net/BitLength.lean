import Molia.Core.Crypto
import Molia.Net.Distance
import Molia.Net.TableShape

/-!
# Leading zeros and bit lengths

The count of leading zero bits of a digest, and of the distance between two ids, stops at the first
byte that is not zero. It is 256 minus the bit length of the number that the bytes spell, so the
bucket of a peer is the binary logarithm of its distance, and a proof of work is a bound on a digest
read as a number.
-/

namespace Molia

open BigEndian

/-! ## The loop -/

theorem leadingZeros8_eq (b : UInt8) : leadingZeros8 b = 8 - b.toNat.size := by
  rw [leadingZeros8]
  split_ifs with hb
  · rw [hb, UInt8.toNat_zero, Nat.size_zero]
  · have hne : b.toNat ≠ 0 := fun h ↦ hb (UInt8.toNat_inj.mp h)
    have hsize : b.toNat.size = b.toNat.log2 + 1 :=
      eq_of_forall_ge_iff fun k ↦ by
        rw [Nat.size_le, ← Nat.log2_lt hne, Nat.succ_le_iff]
    omega

/-- The loop adds the leading zeros of what is left to what it has counted. -/
theorem leadingZerosLoop_eq (bs : Bytes) (n : ℕ) :
    leadingZerosLoop bs n = n + (8 * bs.length - (beValue bs).size) := by
  induction bs generalizing n with
  | nil => rfl
  | cons b bs ih =>
    rw [leadingZerosLoop, List.length_cons]
    split_ifs with hb
    · have hle := size_beValue_le bs
      rw [ih, hb, beValue_zero_cons]
      omega
    · rw [leadingZeros8_eq, size_beValue_cons hb]
      omega

theorem leadingZeroBits_eq (d : Bytes32) : leadingZeroBits d = 256 - d.toNat.size := by
  rw [leadingZeroBits, leadingZerosLoop_eq, d.length_val, Nat.zero_add]
  rfl

theorem leadingZeros256_eq (d : Bytes32) : leadingZeros256 d = 256 - d.toNat.size := by
  have hloop : leadingZerosLoop d.val 0 = 256 - d.toNat.size := leadingZeroBits_eq d
  rw [leadingZeros256, hloop]
  exact min_eq_left (Nat.sub_le _ _)

theorem Bytes32.toNat_lt (d : Bytes32) : d.toNat < 2 ^ 256 := by
  have hlt := beValue_lt d.val
  rw [d.length_val] at hlt
  exact hlt

theorem le_leadingZeroBits_iff {d : Bytes32} {n : ℕ} (hn : n ≤ 256) :
    n ≤ leadingZeroBits d ↔ d.toNat < 2 ^ (256 - n) := by
  have hle : d.toNat.size ≤ 256 := Nat.size_le.mpr d.toNat_lt
  rw [leadingZeroBits_eq, ← Nat.size_le]
  omega

/-! ## Buckets -/

variable {selfId a b : NodeId}

theorem bucketIndex_eq (selfId other : NodeId) :
    bucketIndex selfId other = (selfId.val.toNat ^^^ other.val.toNat).size - 1 := by
  have hle : (xorDistance selfId.val other.val).toNat.size ≤ 256 :=
    Nat.size_le.mpr (Bytes32.toNat_lt _)
  rw [bucketIndex, leadingZeros256_eq, ← toNat_xorDistance]
  split_ifs
  · omega
  · omega

theorem xor_toNat_pos (h : a ≠ b) : 0 < a.val.toNat ^^^ b.val.toNat := by
  rw [Nat.pos_iff_ne_zero, Ne, Nat.xor_eq_zero_iff, Bytes32.toNat_inj]
  intro heq
  obtain ⟨a⟩ := a
  obtain ⟨b⟩ := b
  exact h (congrArg NodeId.mk heq)

theorem two_pow_bucketIndex_le (h : selfId ≠ a) :
    2 ^ bucketIndex selfId a ≤ selfId.val.toNat ^^^ a.val.toNat := by
  have hpos := Nat.size_pos.mpr (xor_toNat_pos h)
  rw [← Nat.lt_size, bucketIndex_eq]
  omega

theorem lt_two_pow_bucketIndex (selfId a : NodeId) :
    selfId.val.toNat ^^^ a.val.toNat < 2 ^ (bucketIndex selfId a + 1) := by
  rw [← Nat.size_le, bucketIndex_eq]
  omega

theorem xor_lt_of_bucketIndex_lt (h : bucketIndex selfId a < bucketIndex selfId b) :
    selfId.val.toNat ^^^ a.val.toNat < selfId.val.toNat ^^^ b.val.toNat := by
  have hne : selfId ≠ b := by
    rintro rfl
    rw [bucketIndex_eq selfId selfId, Nat.xor_self] at h
    exact absurd h (Nat.not_lt_zero _)
  calc selfId.val.toNat ^^^ a.val.toNat < 2 ^ (bucketIndex selfId a + 1) :=
        lt_two_pow_bucketIndex selfId a
    _ ≤ 2 ^ bucketIndex selfId b := Nat.pow_le_pow_right (by decide) h
    _ ≤ selfId.val.toNat ^^^ b.val.toNat := two_pow_bucketIndex_le hne

namespace RoutingTable

theorem Placed.xor_lt {t : RoutingTable} (h : t.Placed) {i j : ℕ} (hij : i < j) {e f : PeerEntry}
    (he : e ∈ t.buckets i) (hf : f ∈ t.buckets j) :
    t.selfId.val.toNat ^^^ e.id.val.toNat < t.selfId.val.toNat ^^^ f.id.val.toNat := by
  have hi := (h.buckets i e he).1
  have hj := (h.buckets j f hf).1
  exact xor_lt_of_bucketIndex_lt (hi.trans_lt (hij.trans_eq hj.symm))

end RoutingTable

/-! ## Proofs of work -/

section

variable [Crates]

open Crates

theorem verifyEphemeralPow_iff (ephemeralPub : Bytes32) (nonce : Bytes) (bits : UInt8) :
    verifyEphemeralPow ephemeralPub nonce bits = true ↔
      (blake3 (ephemeralPub.val ++ nonce)).toNat < 2 ^ (256 - bits.toNat) := by
  rw [verifyEphemeralPow, decide_eq_true_iff]
  exact le_leadingZeroBits_iff bits.toNat_lt.le

theorem verifyCostStamp_iff (key : Key) (salt nonce : Bytes) (bits : UInt8) :
    verifyCostStamp key salt nonce bits = true ↔
      (costStamp key salt nonce).toNat < 2 ^ (256 - bits.toNat) := by
  rw [verifyCostStamp, decide_eq_true_iff]
  exact le_leadingZeroBits_iff bits.toNat_lt.le

/-- **Bit lengths.** Both loops count 256 minus the bit length of the number; the bucket of a peer
is the binary logarithm of its distance, so that whatever was done to a table its lower buckets
hold the closer peers; and a proof of work is accepted if and only if the digest is below the
bound. -/
theorem bit_length_exact :
    (∀ d : Bytes32, leadingZeros256 d = 256 - d.toNat.size ∧
      leadingZeroBits d = 256 - d.toNat.size) ∧
    (∀ selfId other : NodeId, selfId ≠ other →
      2 ^ bucketIndex selfId other ≤ selfId.val.toNat ^^^ other.val.toNat ∧
        selfId.val.toNat ^^^ other.val.toNat < 2 ^ (bucketIndex selfId other + 1)) ∧
    (∀ selfId a b : NodeId, bucketIndex selfId a < bucketIndex selfId b →
      selfId.val.toNat ^^^ a.val.toNat < selfId.val.toNat ^^^ b.val.toNat) ∧
    (∀ (selfId : NodeId) (ops : List TableOp) (i j : ℕ), i < j →
      let t := ops.foldl RoutingTable.apply (RoutingTable.new selfId)
      ∀ e ∈ t.buckets i, ∀ f ∈ t.buckets j,
        t.selfId.val.toNat ^^^ e.id.val.toNat < t.selfId.val.toNat ^^^ f.id.val.toNat) ∧
    (∀ (ephemeralPub : Bytes32) (nonce : Bytes) (bits : UInt8),
      verifyEphemeralPow ephemeralPub nonce bits = true ↔
        (blake3 (ephemeralPub.val ++ nonce)).toNat < 2 ^ (256 - bits.toNat)) ∧
    ∀ (key : Key) (salt nonce : Bytes) (bits : UInt8),
      verifyCostStamp key salt nonce bits = true ↔
        (costStamp key salt nonce).toNat < 2 ^ (256 - bits.toNat) := by
  refine ⟨fun d ↦ ⟨leadingZeros256_eq d, leadingZeroBits_eq d⟩, ?_, ?_, ?_,
    verifyEphemeralPow_iff, verifyCostStamp_iff⟩
  · intro selfId other hne
    exact ⟨two_pow_bucketIndex_le hne, lt_two_pow_bucketIndex selfId other⟩
  · intro selfId a b hlt
    exact xor_lt_of_bucketIndex_lt hlt
  · intro selfId ops i j hij t e he f hf
    exact (RoutingTable.placed_foldl selfId ops).xor_lt hij he hf

end

end Molia
