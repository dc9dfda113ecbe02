import Mathlib.Algebra.Order.Ring.Nat
import Mathlib.Data.List.Basic

/-!
# The Protobuf wire format

A message on the wire is a sequence of fields. A field is a key, which is a varint made of the field
number and the wire type, and a value: a varint, or a length and that many bytes. A scalar field at
its default is left out, a repeated field is written once for each element, and a reader takes the
last value of a scalar field and all values of a repeated one.

Numbers and lengths are unbounded here. A field of another wire type than these two stops the
reader, as do missing bytes.
-/

namespace Protobuf

/-! ## Varints -/

/-- Seven bits a byte, low bits first, with the high bit set on every byte but the last. -/
def varintFuel : ℕ → ℕ → List UInt8
  | 0, n => [UInt8.ofNat n]
  | fuel + 1, n =>
    if n < 128 then [UInt8.ofNat n] else UInt8.ofNat (n % 128 + 128) :: varintFuel fuel (n / 128)

/-- A number has no more groups of seven bits than its own value. -/
def varint (n : ℕ) : List UInt8 := varintFuel n n

def readVarint : List UInt8 → Option (ℕ × List UInt8)
  | [] => none
  | b :: bs =>
    if b.toNat < 128 then some (b.toNat, bs)
    else (readVarint bs).map fun r ↦ (b.toNat - 128 + 128 * r.1, r.2)

theorem readVarint_varintFuel {fuel n : ℕ} (h : n ≤ fuel) (rest : List UInt8) :
    readVarint (varintFuel fuel n ++ rest) = some (n, rest) := by
  induction fuel generalizing n with
  | zero =>
    obtain rfl : n = 0 := Nat.le_zero.mp h
    rfl
  | succ fuel ih =>
    rw [varintFuel]
    by_cases hn : n < 128
    · have hbyte : (UInt8.ofNat n).toNat = n := UInt8.toNat_ofNat_of_lt' (show _ < 256 by omega)
      rw [if_pos hn, List.singleton_append, readVarint, hbyte, if_pos hn]
    · have hbyte : (UInt8.ofNat (n % 128 + 128)).toNat = n % 128 + 128 :=
        UInt8.toNat_ofNat_of_lt' (show _ < 256 by omega)
      rw [if_neg hn, List.cons_append, readVarint, hbyte, if_neg (by omega), ih (by omega),
        Option.map_some]
      simp only [Option.some.injEq, Prod.mk.injEq, and_true]
      omega

theorem readVarint_varint (n : ℕ) (rest : List UInt8) :
    readVarint (varint n ++ rest) = some (n, rest) := readVarint_varintFuel (Nat.le_refl n) rest

theorem varint_of_lt {n : ℕ} (h : n < 128) : varint n = [UInt8.ofNat n] := by
  rw [varint]
  cases n with
  | zero => rfl
  | succ n => rw [varintFuel, if_pos h]

theorem length_varintFuel_pos (fuel n : ℕ) : 0 < (varintFuel fuel n).length := by
  cases fuel with
  | zero => exact Nat.one_pos
  | succ fuel =>
    rw [varintFuel]
    split
    · exact Nat.one_pos
    · exact Nat.succ_pos _

theorem length_varint_of_lt {n : ℕ} (h : n < 128) : (varint n).length = 1 := by
  rw [varint_of_lt h]
  rfl

theorem length_varint_of_two_groups {n : ℕ} (h : 128 ≤ n) (h' : n < 16384) :
    (varint n).length = 2 := by
  obtain ⟨m, rfl⟩ : ∃ m, n = m + 2 := ⟨n - 2, by omega⟩
  have hhigh : (m + 2) / 128 < 128 := by omega
  rw [varint, varintFuel, if_neg (by omega), varintFuel, if_pos hhigh]
  rfl

/-! ## Fields -/

inductive Value where
  | varint (n : ℕ)
  | bytes (b : List UInt8)
deriving DecidableEq

structure Field where
  num : ℕ
  value : Value
deriving DecidableEq

namespace Field

/-- The bytes of a field. -/
def encode (f : Field) : List UInt8 :=
  match f.value with
  | .varint n => Protobuf.varint (f.num * 8) ++ Protobuf.varint n
  | .bytes b => Protobuf.varint (f.num * 8 + 2) ++ Protobuf.varint b.length ++ b

def read (b : List UInt8) : Option (Field × List UInt8) :=
  match readVarint b with
  | none => none
  | some (key, rest) =>
    if key % 8 = 0 then (readVarint rest).map fun r ↦ (⟨key / 8, .varint r.1⟩, r.2)
    else if key % 8 = 2 then
      match readVarint rest with
      | none => none
      | some (len, rest) =>
        if rest.length < len then none else some (⟨key / 8, .bytes (rest.take len)⟩, rest.drop len)
    else none

theorem read_encode_append (f : Field) (rest : List UInt8) :
    read (f.encode ++ rest) = some (f, rest) := by
  obtain ⟨num, value⟩ := f
  cases value with
  | varint n =>
    have hkind : num * 8 % 8 = 0 := Nat.mul_mod_left num 8
    have hnum : num * 8 / 8 = num := Nat.mul_div_left num (by decide)
    rw [encode, read, List.append_assoc, readVarint_varint]
    simp only
    rw [if_pos hkind, readVarint_varint, hnum]
    rfl
  | bytes b =>
    have hkind : (num * 8 + 2) % 8 = 2 := by omega
    have hnum : (num * 8 + 2) / 8 = num := by omega
    rw [encode, read, List.append_assoc, List.append_assoc, readVarint_varint]
    simp only
    rw [if_neg (by omega), if_pos hkind, readVarint_varint, hnum]
    simp

theorem length_encode_pos (f : Field) : 0 < f.encode.length := by
  obtain ⟨num, value⟩ := f
  cases value with
  | varint n =>
    rw [encode, List.length_append]
    exact Nat.add_pos_left (length_varintFuel_pos _ _) _
  | bytes b =>
    rw [encode, List.length_append, List.length_append]
    exact Nat.add_pos_left (Nat.add_pos_left (length_varintFuel_pos _ _) _) _

end Field

/-! ## Messages -/

/-- The bytes of a message. -/
def encode (fs : List Field) : List UInt8 := fs.flatMap Field.encode

/-- A field takes at least one byte, so the number of bytes is enough fuel. -/
def parseFuel : ℕ → List UInt8 → Option (List Field)
  | _, [] => some []
  | 0, _ :: _ => none
  | fuel + 1, b :: bs =>
    match Field.read (b :: bs) with
    | none => none
    | some (f, rest) => (parseFuel fuel rest).map (f :: ·)

def parse (b : List UInt8) : Option (List Field) := parseFuel b.length b

theorem parseFuel_encode {fuel : ℕ} {fs : List Field} (h : (encode fs).length ≤ fuel) :
    parseFuel fuel (encode fs) = some fs := by
  induction fs generalizing fuel with
  | nil =>
    cases fuel with
    | zero => rfl
    | succ fuel => rfl
  | cons f fs ih =>
    have hread := f.read_encode_append (encode fs)
    have hlen : (encode (f :: fs)).length = f.encode.length + (encode fs).length := by
      rw [encode, List.flatMap_cons, List.length_append, encode]
    have hpos := f.length_encode_pos
    have hcons : encode (f :: fs) = f.encode ++ encode fs := by
      rw [encode, List.flatMap_cons, encode]
    obtain ⟨b, bs, hb⟩ : ∃ b bs, encode (f :: fs) = b :: bs := by
      rcases hbs : encode (f :: fs) with _ | ⟨b, bs⟩
      · rw [hbs, List.length_nil] at hlen
        omega
      · exact ⟨b, bs, rfl⟩
    rw [← hcons, hb] at hread
    rw [hb]
    cases fuel with
    | zero => omega
    | succ fuel =>
      rw [parseFuel, hread]
      simp only
      rw [ih (by omega)]
      rfl

/-- A written message is read back field by field. -/
theorem parse_encode (fs : List Field) : parse (encode fs) = some fs :=
  parseFuel_encode (Nat.le_refl _)

/-! ## Lengths -/

/-- The length of a field of `n` bytes whose key is a single byte. -/
def fieldLen (n : ℕ) : ℕ := 1 + (varint n).length + n

theorem Field.length_encode_bytes {num : ℕ} (h : num < 16) (b : List UInt8) :
    (Field.encode ⟨num, .bytes b⟩).length = fieldLen b.length := by
  have hkey : (varint (num * 8 + 2)).length = 1 := length_varint_of_lt (by omega)
  rw [Field.encode, List.length_append, List.length_append, hkey, fieldLen]

theorem Field.length_encode_varint {num : ℕ} (h : num < 16) (n : ℕ) :
    (Field.encode ⟨num, .varint n⟩).length = 1 + (varint n).length := by
  have hkey : (varint (num * 8)).length = 1 := length_varint_of_lt (by omega)
  rw [Field.encode, List.length_append, hkey]

theorem encode_append (fs gs : List Field) : encode (fs ++ gs) = encode fs ++ encode gs :=
  List.flatMap_append

theorem length_encode_map {A : Type*} (f : A → Field) (l : List A) :
    (encode (l.map f)).length = (l.map fun a ↦ (f a).encode.length).sum := by
  rw [encode, List.flatMap_map, List.length_flatMap]

/-! ## Fields of a message -/

/-- A scalar field of bytes; the default is the empty string. -/
def bytesField (num : ℕ) (b : List UInt8) : List Field := if b = [] then [] else [⟨num, .bytes b⟩]

/-- A scalar number; the default is zero. -/
def uintField (num n : ℕ) : List Field := if n = 0 then [] else [⟨num, .varint n⟩]

theorem length_encode_bytesField {num : ℕ} (h : num < 16) (b : List UInt8) :
    (encode (bytesField num b)).length = if b = [] then 0 else fieldLen b.length := by
  rw [bytesField]
  split
  · rfl
  · rw [encode, List.flatMap_singleton, Field.length_encode_bytes h]

theorem length_encode_uintField {num : ℕ} (h : num < 16) (n : ℕ) :
    (encode (uintField num n)).length = if n = 0 then 0 else 1 + (varint n).length := by
  rw [uintField]
  split
  · rfl
  · rw [encode, List.flatMap_singleton, Field.length_encode_varint h]

/-- All byte strings of a field, in order. -/
def bytesAt (num : ℕ) (fs : List Field) : List (List UInt8) :=
  fs.filterMap fun f ↦
    match f.value with
    | .bytes b => if f.num = num then some b else none
    | .varint _ => none

/-- All numbers of a field, in order. -/
def uintsAt (num : ℕ) (fs : List Field) : List ℕ :=
  fs.filterMap fun f ↦
    match f.value with
    | .varint n => if f.num = num then some n else none
    | .bytes _ => none

/-- The value of a scalar field of bytes. -/
def getBytes (num : ℕ) (fs : List Field) : List UInt8 := (bytesAt num fs).getLast?.getD []

/-- The value of a scalar number. -/
def getUint (num : ℕ) (fs : List Field) : ℕ := (uintsAt num fs).getLast?.getD 0

section

variable {num num' n : ℕ} {b : List UInt8} {fs gs : List Field}

@[simp] theorem bytesAt_append : bytesAt num (fs ++ gs) = bytesAt num fs ++ bytesAt num gs :=
  List.filterMap_append

@[simp] theorem uintsAt_append : uintsAt num (fs ++ gs) = uintsAt num fs ++ uintsAt num gs :=
  List.filterMap_append

@[simp] theorem bytesAt_bytesField_self :
    bytesAt num (bytesField num b) = if b = [] then [] else [b] := by
  rw [bytesField]
  split
  · rfl
  · simp [bytesAt]

@[simp] theorem bytesAt_bytesField_of_ne (h : num' ≠ num) :
    bytesAt num (bytesField num' b) = [] := by
  rw [bytesField]
  split
  · rfl
  · simp [bytesAt, h]

@[simp] theorem bytesAt_uintField : bytesAt num (uintField num' n) = [] := by
  rw [uintField]
  split
  · rfl
  · simp [bytesAt]

@[simp] theorem uintsAt_uintField_self :
    uintsAt num (uintField num n) = if n = 0 then [] else [n] := by
  rw [uintField]
  split
  · rfl
  · simp [uintsAt]

@[simp] theorem uintsAt_uintField_of_ne (h : num' ≠ num) :
    uintsAt num (uintField num' n) = [] := by
  rw [uintField]
  split
  · rfl
  · simp [uintsAt, h]

@[simp] theorem uintsAt_bytesField : uintsAt num (bytesField num' b) = [] := by
  rw [bytesField]
  split
  · rfl
  · simp [uintsAt]

@[simp] theorem getLast?_ite_nil : ((if b = [] then [] else [b]).getLast?).getD [] = b := by
  split
  · rename_i h
    rw [h]
    rfl
  · rfl

@[simp] theorem getLast?_ite_zero : ((if n = 0 then [] else [n]).getLast?).getD 0 = n := by
  split
  · rename_i h
    rw [h]
    rfl
  · rfl

end

end Protobuf
