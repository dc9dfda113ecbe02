import Mathlib.Data.ZMod.Basic
import Mathlib.Data.Nat.Bits
import Molia.Core.Crypto

/-!
# Ed25519

The signature check of the release that the repository builds with. A public key is the encoding of
a point `A` of the curve, a signature is the encoding of a point `R` and a scalar `s`, and the check
is that `s B - k A` has the encoding `R`, where `k` is a hash of `R`, of the key and of the message.

The check does not ask for the order of `A`. If `A` is the neutral element, then `k A` is the
neutral element for every `k`, and the message is not in the equation any more (`verify_neutral`).
-/

namespace Molia

namespace Ed25519

/-! ## The curve -/

/-- The field of the curve. -/
abbrev Coord := ZMod (2 ^ 255 - 19)

/-- The order of the base point. -/
def order : ℕ := 2 ^ 252 + 27742317777372353535851937790883648493

/-- The coefficient of the curve `-x² + y² = 1 + d x² y²`. -/
def d : Coord := -121665 * (121666 : Coord)⁻¹

/-- A power with a large exponent, from its highest bit: square, and multiply where the bit is
set. -/
def power (x : Coord) (k : ℕ) : Coord :=
  k.bits.foldr (fun bit r ↦ if bit then r * r * x else r * r) 1

/-- A square root of -1. -/
def sqrtM1 : Coord := power 2 ((2 ^ 255 - 20) / 4)

@[ext]
structure Point where
  x : Coord
  y : Coord
deriving DecidableEq

namespace Point

def neutral : Point := ⟨0, 1⟩

def basepoint : Point where
  x := 15112221349535400772501151409588531511454012693041857206046113283949847762202
  y := 46316835694926478169428394003475163141307993866256225615783033603165251855960

def add (p q : Point) : Point :=
  let t := d * p.x * q.x * p.y * q.y
  ⟨(p.x * q.y + p.y * q.x) * (1 + t)⁻¹, (p.y * q.y + p.x * q.x) * (1 - t)⁻¹⟩

def neg (p : Point) : Point := ⟨-p.x, p.y⟩

/-- Multiplication by a scalar, from its highest bit: double, and add where the bit is set. -/
def mul (k : ℕ) (p : Point) : Point :=
  k.bits.foldr (fun bit q ↦ if bit then (q.add q).add p else q.add q) neutral

theorem add_neutral : neutral.add neutral = neutral := by
  simp [add, neutral]

theorem neg_neutral : neutral.neg = neutral := by
  simp [neg, neutral]

theorem zero_mul (p : Point) : p.mul 0 = neutral := by
  rw [mul, Nat.zero_bits, List.foldr_nil]

theorem mul_neutral (k : ℕ) : neutral.mul k = neutral := by
  rw [mul]
  induction k.bits with
  | nil => rfl
  | cons bit bits ih => rw [List.foldr_cons, ih, add_neutral, add_neutral, ite_self]

end Point

/-! ## Encodings -/

/-- The number with the given bytes, the lowest first. -/
def fromLe (b : Bytes) : ℕ := b.foldr (fun byte n ↦ byte.toNat + 256 * n) 0

def toLe32 (n : ℕ) : Bytes := (List.range 32).map fun i ↦ UInt8.ofNat (n / 256 ^ i)

/-- The encoding of the neutral element. -/
def neutralBytes : Bytes32 := ⟨1 :: List.replicate 31 0, rfl⟩

namespace Point

/-- The second coordinate, with the parity of the first one in the highest bit. -/
def compress (p : Point) : Bytes := toLe32 (p.y.val + p.x.val % 2 * 2 ^ 255)

/-- A root of `u / v` that is even, if there is one. -/
def sqrtRatio (u v : Coord) : Option Coord :=
  let r := u * v ^ 3 * power (u * v ^ 7) ((2 ^ 255 - 24) / 8)
  let even (r : Coord) : Coord := if r.val % 2 = 0 then r else -r
  if v * r ^ 2 = u then some (even r)
  else if v * r ^ 2 = -u then some (even (sqrtM1 * r))
  else none

/-- A second coordinate that is not reduced is accepted, as is the first coordinate 0 with either
parity. -/
def decompress (b : Bytes32) : Option Point :=
  let n := fromLe b.val
  let y : Coord := (n % 2 ^ 255 : ℕ)
  (sqrtRatio (y ^ 2 - 1) (d * y ^ 2 + 1)).map fun x ↦ ⟨if n / 2 ^ 255 = 1 then -x else x, y⟩

theorem compress_neutral : neutral.compress = neutralBytes.val := by
  decide +kernel

theorem sqrtRatio_zero (v : Coord) : sqrtRatio 0 v = some 0 := by
  simp [sqrtRatio]

theorem decompress_neutral : decompress neutralBytes = some neutral := by
  have hn : fromLe neutralBytes.val = 1 := by decide
  have hy : ((1 % 2 ^ 255 : ℕ) : Coord) = 1 := Nat.cast_one
  have hsign : 1 / 2 ^ 255 ≠ 1 := by decide
  rw [decompress, hn]
  simp only [hy, one_pow, sub_self, sqrtRatio_zero, Option.map_some, if_neg hsign]
  rfl

end Point

/-! ## The check -/

/-- A public key: its encoding and the point. -/
abbrev PublicKey := Bytes32 × Point

def publicKeyFromBytes (b : Bytes32) : Option PublicKey := (Point.decompress b).map (b, ·)

/-- A signature of 64 bytes; the three highest bits are not set. -/
def signatureFromBytes (b : Bytes) : Option Bytes :=
  if b.length = 64 ∧ fromLe (b.drop 32) < 2 ^ 253 then some b else none

/-- The check of a signature, for the given SHA-512 digest as a number. -/
def verify (sha512 : Bytes → ℕ) (pk : PublicKey) (msg sig : Bytes) : Bool :=
  let r := sig.take 32
  let s := fromLe (sig.drop 32)
  let k := sha512 (r ++ pk.1.val ++ msg) % order
  s < order && (((pk.2.neg.mul k).add (Point.basepoint.mul s)).compress == r)

/-- The key and the first half are the neutral element, and the scalar is 0. -/
def neutralSig : Bytes := neutralBytes.val ++ List.replicate 32 0

theorem publicKeyFromBytes_neutral :
    publicKeyFromBytes neutralBytes = some (neutralBytes, .neutral) := by
  rw [publicKeyFromBytes, Point.decompress_neutral, Option.map_some]

theorem signatureFromBytes_neutralSig : signatureFromBytes neutralSig = some neutralSig := by
  decide

theorem verify_neutral (sha512 : Bytes → ℕ) (msg : Bytes) :
    verify sha512 (neutralBytes, .neutral) msg neutralSig = true := by
  have hr : neutralSig.take 32 = neutralBytes.val := by decide
  have hs : fromLe (neutralSig.drop 32) = 0 := by decide
  have horder : 0 < order := by decide
  rw [verify, hr, hs]
  simp only [Point.neg_neutral, Point.mul_neutral, Point.zero_mul, Point.add_neutral,
    Point.compress_neutral, horder, decide_true, beq_self_eq_true, Bool.and_self]

/-- The foreign functions with this check. -/
@[reducible] def crates (sha512 : Bytes → ℕ) : Crates :=
  { Sample.crates with
    PublicKey := PublicKey
    publicKeyFromBytes := publicKeyFromBytes
    Signature := Bytes
    signatureFromBytes := signatureFromBytes
    verify := verify sha512 }

end Ed25519

end Molia
