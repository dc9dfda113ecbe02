import Molia.Core.Types
import Molia.General.BigEndian

/-!
# Words in big-endian order

The program assembles a word from its bytes with shifts and takes it apart the same way. Both are
read here as the number the bytes spell: four bytes determine a `u32` and are determined by it, and
so are eight bytes and a `u64`.
-/

namespace Molia

open BigEndian

private theorem or_bytes {a b c d : ℕ} (hb : b < 2 ^ 8) (hc : c < 2 ^ 8) (hd : d < 2 ^ 8) :
    a * 2 ^ 24 ||| b * 2 ^ 16 ||| c * 2 ^ 8 ||| d
      = a * 2 ^ 24 + (b * 2 ^ 16 + (c * 2 ^ 8 + d)) := by
  have hlow : c * 2 ^ 8 ||| d = c * 2 ^ 8 + d := by
    rw [Nat.mul_comm, Nat.two_pow_add_eq_or_of_lt hd]
  have hmid : b * 2 ^ 16 ||| (c * 2 ^ 8 + d) = b * 2 ^ 16 + (c * 2 ^ 8 + d) := by
    rw [Nat.mul_comm b, Nat.two_pow_add_eq_or_of_lt (by omega)]
  have hhigh : a * 2 ^ 24 ||| (b * 2 ^ 16 + (c * 2 ^ 8 + d))
      = a * 2 ^ 24 + (b * 2 ^ 16 + (c * 2 ^ 8 + d)) := by
    rw [Nat.mul_comm a, Nat.two_pow_add_eq_or_of_lt (by omega)]
  rw [Nat.or_assoc, Nat.or_assoc, hlow, hmid, hhigh]

theorem exists_eq_cons_four {bs : Bytes} (h : 4 ≤ bs.length) :
    ∃ a b c d rest, bs = a :: b :: c :: d :: rest := by
  rcases bs with _ | ⟨a, _ | ⟨b, _ | ⟨c, _ | ⟨d, rest⟩⟩⟩⟩
  case cons.cons.cons.cons => exact ⟨a, b, c, d, rest, rfl⟩
  all_goals simp at h

theorem toNat_u32FromBe {bs : Bytes} (h : 4 ≤ bs.length) :
    (u32FromBe bs).toNat = beValue (bs.take 4) := by
  obtain ⟨a, b, c, d, rest, rfl⟩ := exists_eq_cons_four h
  have ha := a.toNat_lt
  have hb := b.toNat_lt
  have hc := c.toNat_lt
  have hd := d.toNat_lt
  simp only [u32FromBe, UInt32.toNat_or, UInt32.toNat_shiftLeft, UInt8.toNat_toUInt32,
    UInt32.reduceToNat, Nat.reduceMod, Nat.shiftLeft_eq]
  rw [Nat.mod_eq_of_lt (show a.toNat * 2 ^ 24 < 2 ^ 32 by omega),
    Nat.mod_eq_of_lt (show b.toNat * 2 ^ 16 < 2 ^ 32 by omega),
    Nat.mod_eq_of_lt (show c.toNat * 2 ^ 8 < 2 ^ 32 by omega), or_bytes hb hc hd]
  simp only [List.take_succ_cons, List.take_zero, beValue, List.length_cons, List.length_nil]
  omega

theorem beValue_u32ToBe (n : UInt32) : beValue (u32ToBe n) = n.toNat := by
  have hbytes : u32ToBe n = beBytes 4 n.toNat := by
    simp [u32ToBe, beBytes, ← UInt8.toNat_inj, Nat.shiftRight_eq_div_pow]
  rw [hbytes, beValue_beBytes]
  exact Nat.mod_eq_of_lt n.toNat_lt

theorem beValue_u64ToBe (n : UInt64) : beValue (u64ToBe n) = n.toNat := by
  have hbytes : u64ToBe n = beBytes 8 n.toNat := by
    simp [u64ToBe, beBytes, ← UInt8.toNat_inj, Nat.shiftRight_eq_div_pow]
  rw [hbytes, beValue_beBytes]
  exact Nat.mod_eq_of_lt n.toNat_lt

theorem u32FromBe_u32ToBe (n : UInt32) (rest : Bytes) : u32FromBe (u32ToBe n ++ rest) = n := by
  have hlen : 4 ≤ (u32ToBe n ++ rest).length := Nat.le_add_left 4 rest.length
  apply UInt32.toNat_inj.mp
  rw [toNat_u32FromBe hlen, ← beValue_u32ToBe n]
  rfl

theorem u32ToBe_u32FromBe {bs : Bytes} (h : 4 ≤ bs.length) :
    u32ToBe (u32FromBe bs) = bs.take 4 := by
  have hlen : (u32ToBe (u32FromBe bs)).length = (bs.take 4).length :=
    (List.length_take_of_le h).symm
  rw [← beValue_inj hlen, beValue_u32ToBe, toNat_u32FromBe h]

theorem u64ToBe_inj {m n : UInt64} (h : u64ToBe m = u64ToBe n) : m = n := by
  apply UInt64.toNat_inj.mp
  rw [← beValue_u64ToBe m, h, beValue_u64ToBe n]

end Molia
