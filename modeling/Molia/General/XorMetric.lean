import Mathlib.Data.Nat.Bitwise
import Mathlib.Data.Nat.Size

/-!
# The exclusive-or metric

Points are natural numbers, and the distance of two points is their exclusive or. Its bit length
says from which bit on the points agree, and two points that first differ from a third one at the
same bit are closer to each other than to that one (`xor_lt_of_size_eq`).

This is what greedy routing rests on. Let `z` be nearest to a target among the points of a network.
A point that is at least as near to the target as some point agreeing with `z` from a bit on agrees
with `z` from that bit on too (`xor_lt_of_between`): there is no room in between.
-/

namespace XorMetric

variable {a b i p q t x z : ℕ}

theorem lt_two_pow_iff_shiftRight : a < 2 ^ i ↔ a >>> i = 0 := by
  rw [Nat.shiftRight_eq_div_pow, Nat.div_eq_zero_iff]
  exact (or_iff_right (Nat.two_pow_pos i).ne').symm

theorem xor_lt_two_pow_iff : a ^^^ b < 2 ^ i ↔ a >>> i = b >>> i := by
  rw [lt_two_pow_iff_shiftRight, Nat.shiftRight_xor_distrib, Nat.xor_eq_zero_iff]

theorem xor_xor_xor (a b t : ℕ) : (a ^^^ t) ^^^ (b ^^^ t) = a ^^^ b := by
  rw [Nat.xor_comm b t, Nat.xor_assoc, ← Nat.xor_assoc t t b, Nat.xor_self, Nat.zero_xor]

/-- The leading bit of a number is all that is left of it when the others are shifted out. -/
theorem shiftRight_size_pred (h : 0 < a) : a >>> (a.size - 1) = 1 := by
  have hpos := Nat.size_pos.mpr h
  have hle : 2 ^ (a.size - 1) ≤ a := Nat.lt_size.mp (by omega)
  have hlt : a < 2 * 2 ^ (a.size - 1) := by
    rw [← Nat.pow_succ', Nat.succ_eq_add_one, Nat.sub_add_cancel hpos]
    exact Nat.lt_size_self a
  rw [Nat.shiftRight_eq_div_pow]
  exact Nat.div_eq_of_lt_le (by rwa [Nat.one_mul]) hlt

/-- Points at distances of one bit length are closer to each other. -/
theorem xor_lt_of_size_eq (hne : 0 < x ^^^ z) (h : (x ^^^ p).size = (x ^^^ z).size) :
    p ^^^ z < 2 ^ ((x ^^^ z).size - 1) := by
  have hp : 0 < x ^^^ p := by
    rw [← Nat.size_pos, h]
    exact Nat.size_pos.mpr hne
  have hagree : (x ^^^ p) >>> ((x ^^^ z).size - 1) = (x ^^^ z) >>> ((x ^^^ z).size - 1) := by
    rw [shiftRight_size_pred hne, ← h, shiftRight_size_pred hp]
  calc p ^^^ z = (x ^^^ p) ^^^ (x ^^^ z) := by
        rw [Nat.xor_comm x p, Nat.xor_comm x z, xor_xor_xor]
    _ < 2 ^ ((x ^^^ z).size - 1) := xor_lt_two_pow_iff.mpr hagree

/-- What lies between two points that agree from a bit on agrees with them. -/
theorem xor_lt_of_between (hzq : z ^^^ t ≤ q ^^^ t) (hqp : q ^^^ t ≤ p ^^^ t)
    (hpz : p ^^^ z < 2 ^ i) : q ^^^ z < 2 ^ i := by
  rw [← xor_xor_xor p z t, xor_lt_two_pow_iff, Nat.shiftRight_eq_div_pow,
    Nat.shiftRight_eq_div_pow] at hpz
  rw [← xor_xor_xor q z t, xor_lt_two_pow_iff, Nat.shiftRight_eq_div_pow,
    Nat.shiftRight_eq_div_pow]
  have hlow := Nat.div_le_div_right (c := 2 ^ i) hzq
  have hhigh := Nat.div_le_div_right (c := 2 ^ i) hqp
  omega

/-- **One hop.** If `p` is in the range of `z` as seen from `x`, and `q` is at least as near to the
target as `p`, then `q` is nearer to `z` than `x` is, by at least one bit. -/
theorem size_xor_lt (hne : 0 < x ^^^ z) (hp : (x ^^^ p).size = (x ^^^ z).size)
    (hzq : z ^^^ t ≤ q ^^^ t) (hqp : q ^^^ t ≤ p ^^^ t) : (q ^^^ z).size < (x ^^^ z).size := by
  have hlt := xor_lt_of_between hzq hqp (xor_lt_of_size_eq hne hp)
  have hpos := Nat.size_pos.mpr hne
  have hle := Nat.size_le.mpr hlt
  omega

/-- Nearer to the nearest point by a bit is nearer to the target. -/
theorem xor_lt_of_size_lt (hzx : z ^^^ t ≤ x ^^^ t) (h : (q ^^^ z).size < (x ^^^ z).size) :
    q ^^^ t < x ^^^ t := by
  by_contra hle
  have hqz : q ^^^ z < 2 ^ (q ^^^ z).size := Nat.lt_size_self _
  have hxz := xor_lt_of_between hzx (Nat.not_lt.mp hle) hqz
  exact absurd (Nat.size_le.mpr hxz) (Nat.not_le.mpr h)

end XorMetric
