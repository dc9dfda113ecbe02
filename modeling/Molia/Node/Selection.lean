import Mathlib.Data.Nat.Log
import Molia.Core.Words
import Molia.Net.BitLength
import Molia.Node.Basic

/-!
# Which shard owns a key

A shard is chosen by the leading bits of `self XOR key`. Read as numbers, the choice is one formula
for every number of shards, `toNat_shardId`: the first `⌈log₂ S⌉` bits of the distance, reduced
modulo `S`. The branch on powers of two only saves a division.

The arithmetic of the source is on 32-bit words, where a subtraction below zero and a shift by the
whole width are errors. `shardIdChecked` is the same program with those checks made.
-/

namespace Molia

open BigEndian

/-! ## The formula -/

theorem toNat_sub_one {S : UInt32} (hS : 1 < S.toNat) : (S - 1).toNat = S.toNat - 1 :=
  UInt32.toNat_sub_of_le S 1 (UInt32.le_iff_toNat_le.mpr hS.le)

theorem bits_eq_clog {S : UInt32} (hS : 1 < S.toNat) :
    32 - leadingZeros32 (S - 1) = Nat.clog 2 S.toNat := by
  have hsub := toNat_sub_one hS
  have hne : (S - 1).toNat ≠ 0 := by omega
  have hzero : S - 1 ≠ 0 := fun h ↦ hne (by rw [h, UInt32.toNat_zero])
  have hlog : (S - 1).toNat.log2 + 1 = Nat.clog 2 S.toNat :=
    eq_of_forall_ge_iff fun k ↦ by
      rw [Nat.clog_le_iff_le_pow (by decide), Nat.succ_le_iff, Nat.log2_lt hne, hsub]
      omega
  have hlt : (S - 1).toNat.log2 < 32 := (Nat.log2_lt hne).mpr (S - 1).toNat_lt
  rw [leadingZeros32, if_neg hzero]
  omega

theorem clog_le (S : UInt32) : Nat.clog 2 S.toNat ≤ 32 :=
  (Nat.clog_le_iff_le_pow (by decide)).mpr S.toNat_lt.le

theorem clog_pos {S : UInt32} (hS : 1 < S.toNat) : 0 < Nat.clog 2 S.toNat :=
  Nat.clog_pos (by decide) hS

theorem eq_two_pow_clog {S : UInt32} (hS : 1 < S.toNat) (h : S &&& (S - 1) = 0) :
    S.toNat = 2 ^ Nat.clog 2 S.toNat := by
  have hand : S.toNat &&& (S.toNat - 1) = 0 := by
    rw [← toNat_sub_one hS, ← UInt32.toNat_and, h, UInt32.toNat_zero]
  obtain ⟨k, hk⟩ := (Nat.and_sub_one_eq_zero_iff_isPowerOfTwo (by omega)).mp hand
  rw [hk, Nat.clog_pow _ _ (by decide)]

theorem toNat_u32FromBe_val (d : Bytes32) : (u32FromBe d.val).toNat = d.toNat / 2 ^ 224 := by
  have hlen : 4 ≤ d.val.length := by
    rw [d.length_val]
    decide
  rw [toNat_u32FromBe hlen, beValue_take, List.length_drop, d.length_val]
  rfl

/-- The leading bits of the distance that the choice of a shard reads. -/
def topBits (selfId : NodeId) (key : Key) (k : ℕ) : ℕ :=
  (selfId.val.toNat ^^^ key.val.toNat) / 2 ^ (256 - k)

theorem topBits_lt (selfId : NodeId) (key : Key) {k : ℕ} (hk : k ≤ 256) :
    topBits selfId key k < 2 ^ k := by
  have hlt := (xorDistance selfId.val key.val).toNat_lt
  rw [toNat_xorDistance] at hlt
  rw [topBits, Nat.div_lt_iff_lt_mul (Nat.two_pow_pos _), ← pow_add, Nat.add_sub_cancel' hk]
  exact hlt

theorem toNat_shiftRight_top (selfId : NodeId) (key : Key) {k : ℕ} (hpos : 0 < k) (hk : k ≤ 32) :
    (u32FromBe (xorDistance selfId.val key.val).val >>> UInt32.ofNat (32 - k)).toNat
      = topBits selfId key k := by
  have hshift : (UInt32.ofNat (32 - k)).toNat % 32 = 32 - k := by
    rw [UInt32.toNat_ofNat']
    omega
  rw [UInt32.toNat_shiftRight, hshift, Nat.shiftRight_eq_div_pow, toNat_u32FromBe_val,
    Nat.div_div_eq_div_mul, ← pow_add, toNat_xorDistance, topBits]
  congr 2
  omega

theorem shardId_of_one_lt (selfId : NodeId) (key : Key) {S : UInt32} (hS : 1 < S.toNat) :
    shardId selfId key S =
      let raw := u32FromBe (xorDistance selfId.val key.val).val >>>
        UInt32.ofNat (32 - Nat.clog 2 S.toNat)
      if S &&& (S - 1) = 0 then raw else raw % S := by
  have hmany : ¬S ≤ 1 := fun h ↦ absurd (UInt32.le_iff_toNat_le.mp h) (not_le.mpr hS)
  rw [shardId, if_neg hmany]
  dsimp only
  rw [bits_eq_clog hS, if_neg (clog_pos hS).ne']

/-- **The shard of a key.** -/
theorem toNat_shardId (selfId : NodeId) (key : Key) (S : UInt32) :
    (shardId selfId key S).toNat = topBits selfId key (Nat.clog 2 S.toNat) % S.toNat := by
  by_cases hS : 1 < S.toNat
  · have htop := toNat_shiftRight_top selfId key (clog_pos hS) (clog_le S)
    rw [shardId_of_one_lt selfId key hS]
    dsimp only
    split_ifs with hpow
    · -- the bits are below the count already
      have hlt := topBits_lt selfId key ((clog_le S).trans (by decide))
      rw [← eq_two_pow_clog hS hpow] at hlt
      rw [htop, Nat.mod_eq_of_lt hlt]
    · rw [UInt32.toNat_mod, htop]
  · have hle : S.toNat ≤ 1 := not_lt.mp hS
    have hzero : topBits selfId key 0 = 0 :=
      Nat.lt_one_iff.mp (topBits_lt selfId key (Nat.zero_le _))
    rw [shardId, if_pos (UInt32.le_iff_toNat_le.mpr hle), Nat.clog_of_right_le_one hle, hzero,
      Nat.zero_mod, UInt32.toNat_zero]

theorem toNat_shardId_lt (selfId : NodeId) (key : Key) (S : UInt32) :
    (shardId selfId key S).toNat < max 1 S.toNat := by
  rw [toNat_shardId]
  rcases Nat.eq_zero_or_pos S.toNat with hzero | hpos
  · have hbits : topBits selfId key 0 < 1 := topBits_lt selfId key (Nat.zero_le _)
    rw [hzero, Nat.clog_zero_right, Nat.mod_zero]
    exact hbits.trans_le (le_max_left _ _)
  · exact (Nat.mod_lt _ hpos).trans_le (le_max_right _ _)

theorem shardId_congr {selfId selfId' : NodeId} {key key' : Key} {S : UInt32}
    (h : topBits selfId key (Nat.clog 2 S.toNat) = topBits selfId' key' (Nat.clog 2 S.toNat)) :
    shardId selfId key S = shardId selfId' key' S := by
  apply UInt32.toNat_inj.mp
  rw [toNat_shardId, toNat_shardId, h]

/-! ## Every shard owns a key -/

/-- The array that spells a number. -/
def Bytes32.ofNat (n : ℕ) : Bytes32 := ⟨beBytes 32 n, length_beBytes 32 n⟩

theorem Bytes32.toNat_ofNat {n : ℕ} (h : n < 2 ^ 256) : (ofNat n).toNat = n := by
  rw [toNat, ofNat, beValue_beBytes]
  exact Nat.mod_eq_of_lt h

/-- The key at the distance that starts with the bits of `s`. -/
def keyOfShard (selfId : NodeId) (S s : UInt32) : Key :=
  ⟨xorDistance selfId.val (.ofNat (s.toNat * 2 ^ (256 - Nat.clog 2 S.toNat)))⟩

theorem shardId_keyOfShard (selfId : NodeId) {S s : UInt32} (h : s < S) :
    shardId selfId (keyOfShard selfId S s) S = s := by
  have hs : s.toNat < S.toNat := UInt32.lt_iff_toNat_lt.mp h
  have hpow : S.toNat ≤ 2 ^ Nat.clog 2 S.toNat := Nat.le_pow_clog (by decide) _
  have hclog : Nat.clog 2 S.toNat ≤ 256 := (clog_le S).trans (by decide)
  have hlt : s.toNat * 2 ^ (256 - Nat.clog 2 S.toNat) < 2 ^ 256 := by
    calc s.toNat * 2 ^ (256 - Nat.clog 2 S.toNat)
        < 2 ^ Nat.clog 2 S.toNat * 2 ^ (256 - Nat.clog 2 S.toNat) :=
          Nat.mul_lt_mul_of_pos_right (hs.trans_le hpow) (Nat.two_pow_pos _)
      _ = 2 ^ 256 := by rw [← pow_add, Nat.add_sub_cancel' hclog]
  apply UInt32.toNat_inj.mp
  rw [toNat_shardId, topBits, keyOfShard, toNat_xorDistance, Bytes32.toNat_ofNat hlt,
    ← Nat.xor_assoc, Nat.xor_self, Nat.zero_xor, Nat.mul_div_cancel _ (Nat.two_pow_pos _),
    Nat.mod_eq_of_lt hs]

/-! ## The arithmetic -/

/-- A subtraction of `u32` that must not go below zero. -/
def checkedSub (a b : UInt32) : Option UInt32 := if b ≤ a then some (a - b) else none

/-- A shift of a `u32` that must be by less than its width. -/
def checkedShr (a n : UInt32) : Option UInt32 := if n < 32 then some (a >>> n) else none

/-- A remainder, whose divisor must not be zero. -/
def checkedRem (a b : UInt32) : Option UInt32 := if b = 0 then none else some (a % b)

/-- The choice of a shard with every operation checked. -/
def shardIdChecked (selfId : NodeId) (key : Key) (shardCount : UInt32) : Option UInt32 :=
  if shardCount ≤ 1 then some 0
  else do
    let last ← checkedSub shardCount 1
    let k ← checkedSub 32 (UInt32.ofNat (leadingZeros32 last))
    let d := xorDistance selfId.val key.val
    let top := u32FromBe d.val
    let raw ← if k = 0 then some 0 else (checkedSub 32 k).bind (checkedShr top)
    if shardCount &&& (shardCount - 1) = 0 then some raw else checkedRem raw shardCount

theorem checkedSub_ofNat {m : ℕ} (h : m ≤ 32) :
    checkedSub 32 (UInt32.ofNat m) = some (UInt32.ofNat (32 - m)) := by
  have hm : (UInt32.ofNat m).toNat = m := by
    rw [UInt32.toNat_ofNat']
    omega
  have hle : UInt32.ofNat m ≤ 32 := by
    rw [UInt32.le_iff_toNat_le, hm]
    exact h
  rw [checkedSub, if_pos hle, Option.some_inj, ← UInt32.toNat_inj, UInt32.toNat_sub_of_le _ _ hle,
    hm, UInt32.toNat_ofNat', Nat.mod_eq_of_lt (by omega)]
  rfl

theorem leadingZeros32_le (n : UInt32) : leadingZeros32 n ≤ 32 := by
  rw [leadingZeros32]
  split_ifs
  · exact le_rfl
  · omega

theorem shardIdChecked_eq (selfId : NodeId) (key : Key) (S : UInt32) :
    shardIdChecked selfId key S = some (shardId selfId key S) := by
  by_cases hle : S ≤ 1
  · rw [shardIdChecked, shardId, if_pos hle, if_pos hle]
  · have hS : 1 < S.toNat := not_le.mp fun h ↦ hle (UInt32.le_iff_toNat_le.mpr h)
    have hone : (1 : UInt32) ≤ S := UInt32.le_iff_toNat_le.mpr hS.le
    have hlast : checkedSub S 1 = some (S - 1) := if_pos hone
    have hbits : checkedSub 32 (UInt32.ofNat (leadingZeros32 (S - 1)))
        = some (UInt32.ofNat (Nat.clog 2 S.toNat)) := by
      rw [checkedSub_ofNat (leadingZeros32_le _), bits_eq_clog hS]
    have hk : UInt32.ofNat (Nat.clog 2 S.toNat) ≠ 0 := by
      have hpos := clog_pos hS
      have hle := clog_le S
      rw [Ne, ← UInt32.toNat_inj, UInt32.toNat_ofNat', UInt32.toNat_zero]
      omega
    -- at least one bit is in use, so the shift is by less than the width
    have hshift : UInt32.ofNat (32 - Nat.clog 2 S.toNat) < 32 := by
      have hpos := clog_pos hS
      rw [UInt32.lt_iff_toNat_lt, UInt32.toNat_ofNat']
      change (32 - Nat.clog 2 S.toNat) % 2 ^ 32 < 32
      omega
    have hne : S ≠ 0 := by
      rintro rfl
      exact absurd hS (by decide)
    rw [shardIdChecked, if_neg hle, shardId_of_one_lt selfId key hS]
    simp only [hlast, hbits, Option.bind_eq_bind, Option.bind_some, if_neg hk,
      checkedSub_ofNat (clog_le S), checkedShr, if_pos hshift, checkedRem, if_neg hne]
    split_ifs
    · rfl
    · rfl

/-! ## The shards of a node -/

section

variable [Crates]

theorem Node.owner_lt {node : Node} {S : UInt32} (h : node.shards.length = max 1 S.toNat)
    (key : Key) : node.owner key < node.shards.length := by
  have hS := S.toNat_lt
  have hcount : (UInt32.ofNat node.shards.length).toNat = max 1 S.toNat := by
    rw [h, UInt32.toNat_ofNat']
    omega
  have hlt := toNat_shardId_lt node.identity.nodeId key (UInt32.ofNat node.shards.length)
  rw [hcount, ← max_assoc, max_self, ← h] at hlt
  exact hlt

/-- **The choice of a shard.** For every count of shards: no operation of the choice fails, and the
result is below the count, or zero where there is none; so a node started with that count has the
shard. The result depends on the first `⌈log₂ S⌉` bits of the distance only, and every shard is
chosen for some key. -/
theorem shard_selection (selfId : NodeId) (S : UInt32) :
    (∀ key, shardIdChecked selfId key S = some (shardId selfId key S) ∧
      (shardId selfId key S).toNat < max 1 S.toNat) ∧
    (∀ node : Node, node.shards.length = max 1 S.toNat →
      ∀ key, node.owner key < node.shards.length) ∧
    (∀ key selfId' key',
      (selfId.val.toNat ^^^ key.val.toNat) / 2 ^ (256 - Nat.clog 2 S.toNat)
        = (selfId'.val.toNat ^^^ key'.val.toNat) / 2 ^ (256 - Nat.clog 2 S.toNat) →
      shardId selfId key S = shardId selfId' key' S) ∧
    ∀ s < S, ∃ key, shardId selfId key S = s := by
  refine ⟨?_, ?_, ?_, ?_⟩
  · intro key
    exact ⟨shardIdChecked_eq selfId key S, toNat_shardId_lt selfId key S⟩
  · intro node hnode key
    exact Node.owner_lt hnode key
  · intro key selfId' key' hbits
    exact shardId_congr hbits
  · intro s hs
    exact ⟨keyOfShard selfId S s, shardId_keyOfShard selfId hs⟩

end

end Molia
