import Mathlib.Algebra.Order.Ring.Nat
import Mathlib.Data.Nat.Size

/-!
# Byte strings as numbers

The number with given bytes, the most significant byte first. Two byte strings of one length are
compared byte by byte, and that is the order of their numbers; a byte-wise exclusive or is the
exclusive or of the numbers. A metric that is computed on byte arrays can so be spoken of as a
metric on numbers.

The bit length of the number is found from the first byte that is not zero (`size_beValue_cons`), so
a count of leading zeros can stop there.
-/

namespace BigEndian

/-- The number with the given bytes. -/
def beValue : List UInt8 → ℕ
  | [] => 0
  | b :: bs => 2 ^ (8 * bs.length) * b.toNat + beValue bs

theorem beValue_lt (bs : List UInt8) : beValue bs < 2 ^ (8 * bs.length) := by
  induction bs with
  | nil => decide
  | cons b bs ih =>
    have hexp : 8 * (b :: bs).length = 8 * bs.length + 8 := by
      rw [List.length_cons]
      omega
    have hbyte : b.toNat + 1 ≤ 2 ^ 8 := UInt8.toNat_lt b
    calc 2 ^ (8 * bs.length) * b.toNat + beValue bs
        < 2 ^ (8 * bs.length) * b.toNat + 2 ^ (8 * bs.length) := Nat.add_lt_add_left ih _
      _ = 2 ^ (8 * bs.length) * (b.toNat + 1) := by rw [Nat.mul_succ]
      _ ≤ 2 ^ (8 * bs.length) * 2 ^ 8 := Nat.mul_le_mul_left _ hbyte
      _ = 2 ^ (8 * (b :: bs).length) := by rw [hexp, pow_add]

/-- The first byte decides, and where it does not the rest does. -/
theorem beValue_cons_lt_cons_iff {a b : UInt8} {as bs : List UInt8} (h : as.length = bs.length) :
    beValue (a :: as) < beValue (b :: bs) ↔ a < b ∨ (a = b ∧ beValue as < beValue bs) := by
  have has := beValue_lt as
  have hbs := beValue_lt bs
  rw [beValue, beValue, UInt8.lt_iff_toNat_lt, ← UInt8.toNat_inj]
  rw [h] at has ⊢
  generalize 2 ^ (8 * bs.length) = m at has hbs ⊢
  rcases Nat.lt_trichotomy a.toNat b.toNat with hlt | heq | hgt
  · have hmul : m * (a.toNat + 1) ≤ m * b.toNat := Nat.mul_le_mul_left m hlt
    rw [Nat.mul_succ] at hmul
    exact iff_of_true (by omega) (Or.inl hlt)
  · rw [heq]
    simp
  · have hmul : m * (b.toNat + 1) ≤ m * a.toNat := Nat.mul_le_mul_left m hgt
    rw [Nat.mul_succ] at hmul
    exact iff_of_false (by omega) (by omega)

/-- **Order.** Strings of one length are ordered as their numbers. -/
theorem beValue_lt_iff {as bs : List UInt8} (h : as.length = bs.length) :
    beValue as < beValue bs ↔ as < bs := by
  induction as generalizing bs with
  | nil =>
    rw [List.length_nil, eq_comm, List.length_eq_zero_iff] at h
    subst h
    exact iff_of_false (Nat.lt_irrefl _) (List.lt_irrefl _)
  | cons a as ih =>
    rcases bs with _ | ⟨b, bs⟩
    · cases h
    · have htail : as.length = bs.length := Nat.succ.inj h
      rw [beValue_cons_lt_cons_iff htail, ih htail, List.cons_lt_cons_iff]

theorem beValue_inj {as bs : List UInt8} (h : as.length = bs.length) :
    beValue as = beValue bs ↔ as = bs := by
  refine ⟨fun heq ↦ ?_, congrArg beValue⟩
  have hle : ¬as < bs := by
    rw [← beValue_lt_iff h, heq]
    exact Nat.lt_irrefl _
  have hge : ¬bs < as := by
    rw [← beValue_lt_iff h.symm, heq]
    exact Nat.lt_irrefl _
  exact List.le_antisymm (List.not_lt.mp hge) (List.not_lt.mp hle)

/-- **Exclusive or.** Both sides have the same bits: those of the rest below, those of the first
byte above. -/
theorem beValue_zipWith_xor {as bs : List UInt8} (h : as.length = bs.length) :
    beValue (List.zipWith (· ^^^ ·) as bs) = beValue as ^^^ beValue bs := by
  induction as generalizing bs with
  | nil =>
    rw [List.length_nil, eq_comm, List.length_eq_zero_iff] at h
    subst h
    rfl
  | cons a as ih =>
    rcases bs with _ | ⟨b, bs⟩
    · cases h
    · have htail : as.length = bs.length := Nat.succ.inj h
      have hlen : (List.zipWith (· ^^^ ·) as bs).length = bs.length := by
        rw [List.length_zipWith, htail, min_self]
      have hbelow := beValue_lt (List.zipWith (· ^^^ ·) as bs)
      have has := beValue_lt as
      rw [hlen, ih htail] at hbelow
      rw [htail] at has
      rw [List.zipWith_cons_cons, beValue, beValue, beValue, hlen, ih htail, htail,
        UInt8.toNat_xor]
      refine Nat.eq_of_testBit_eq fun i ↦ ?_
      rw [Nat.testBit_xor, Nat.testBit_two_pow_mul_add _ hbelow, Nat.testBit_two_pow_mul_add _ has,
        Nat.testBit_two_pow_mul_add _ (beValue_lt bs), Nat.testBit_xor, Nat.testBit_xor]
      split_ifs
      · rfl
      · rfl

/-! ## Leading bytes -/

theorem beValue_append (as bs : List UInt8) :
    beValue (as ++ bs) = 2 ^ (8 * bs.length) * beValue as + beValue bs := by
  induction as with
  | nil => rw [List.nil_append, beValue, Nat.mul_zero, Nat.zero_add]
  | cons a as ih =>
    have hpow : 2 ^ (8 * (as ++ bs).length) = 2 ^ (8 * bs.length) * 2 ^ (8 * as.length) := by
      rw [List.length_append, Nat.mul_add, pow_add, Nat.mul_comm]
    rw [List.cons_append, beValue, beValue, ih, hpow, Nat.mul_add, Nat.mul_assoc, Nat.add_assoc]

/-- The first bytes are what division leaves. -/
theorem beValue_take (bs : List UInt8) (n : ℕ) :
    beValue (bs.take n) = beValue bs / 2 ^ (8 * (bs.drop n).length) := by
  have hsplit := beValue_append (bs.take n) (bs.drop n)
  rw [List.take_append_drop] at hsplit
  rw [hsplit, Nat.mul_add_div (Nat.two_pow_pos _), Nat.div_eq_of_lt (beValue_lt _), Nat.add_zero]

/-! ## The bytes of a number -/

/-- The `k` lowest bytes of a number, the most significant first. -/
def beBytes : ℕ → ℕ → List UInt8
  | 0, _ => []
  | k + 1, n => UInt8.ofNat (n / 2 ^ (8 * k)) :: beBytes k n

@[simp] theorem length_beBytes (k n : ℕ) : (beBytes k n).length = k := by
  induction k with
  | zero => rfl
  | succ k ih => rw [beBytes, List.length_cons, ih]

theorem beValue_beBytes (k n : ℕ) : beValue (beBytes k n) = n % 2 ^ (8 * k) := by
  induction k with
  | zero => rw [Nat.mul_zero, pow_zero, Nat.mod_one, beBytes, beValue]
  | succ k ih =>
    calc beValue (beBytes (k + 1) n)
        = 2 ^ (8 * k) * (n / 2 ^ (8 * k) % 2 ^ 8) + n % 2 ^ (8 * k) := by
          rw [beBytes, beValue, length_beBytes, ih, UInt8.toNat_ofNat']
      _ = n % (2 ^ (8 * k) * 2 ^ 8) := by rw [Nat.mod_mul, Nat.add_comm]
      _ = n % 2 ^ (8 * (k + 1)) := by rw [← pow_add, Nat.mul_succ]

/-! ## Bit length -/

theorem size_two_pow_mul_add {k x y : ℕ} (hx : x ≠ 0) (hy : y < 2 ^ k) :
    (2 ^ k * x + y).size = k + x.size := by
  apply le_antisymm
  · rw [Nat.size_le]
    calc 2 ^ k * x + y < 2 ^ k * x + 2 ^ k := Nat.add_lt_add_left hy _
      _ = 2 ^ k * (x + 1) := by rw [Nat.mul_succ]
      _ ≤ 2 ^ k * 2 ^ x.size := Nat.mul_le_mul_left _ (Nat.lt_size_self x)
      _ = 2 ^ (k + x.size) := by rw [pow_add]
  · calc k + x.size = (x <<< k).size := by rw [Nat.size_shiftLeft hx, Nat.add_comm]
      _ = (2 ^ k * x).size := by rw [Nat.shiftLeft_eq, Nat.mul_comm]
      _ ≤ (2 ^ k * x + y).size := Nat.size_le_size (Nat.le_add_right _ _)

@[simp] theorem beValue_zero_cons (bs : List UInt8) : beValue (0 :: bs) = beValue bs := by
  rw [beValue, UInt8.toNat_zero, Nat.mul_zero, Nat.zero_add]

theorem size_beValue_cons {b : UInt8} (hb : b ≠ 0) (bs : List UInt8) :
    (beValue (b :: bs)).size = 8 * bs.length + b.toNat.size :=
  size_two_pow_mul_add (fun h ↦ hb (UInt8.toNat_inj.mp h)) (beValue_lt bs)

theorem size_beValue_le (bs : List UInt8) : (beValue bs).size ≤ 8 * bs.length :=
  Nat.size_le.mpr (beValue_lt bs)

end BigEndian
