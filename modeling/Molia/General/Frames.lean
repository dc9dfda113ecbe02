import Mathlib.Algebra.Order.Ring.Nat
import Mathlib.Data.List.Basic

/-!
# Checksummed frames

An append-only log is a concatenation of frames: a 4-byte little-endian length, a type byte, the
payload, and a 4-byte little-endian checksum of the payload. A reader takes frames off the front
until the bytes run out or a checksum fails, and ignores the rest.

The reader recurses on a fuel that starts at the number of bytes. Every frame takes at least nine
bytes, so the fuel is never what stops it, and `frames_eq` is the reader without fuel. What a writer
has appended is read back frame by frame (`frames_flatMap`) as long as every payload is shorter than
`2 ^ 32` bytes, the lengths that the four length bytes can tell apart.

Conversely the reader finds nothing that a writer could not have written: it reads `fs` exactly if
the bytes are those of `fs` and then of something that does not start with a frame
(`frames_eq_iff`). A frame that was cut short does not start with a frame.
-/

namespace Framing

/-- The value of a little-endian byte string. -/
def leValue : List UInt8 → ℕ
  | [] => 0
  | b :: bs => b.toNat + 256 * leValue bs

/-- The `n` low bytes of a number, little-endian. -/
def leBytes : ℕ → ℕ → List UInt8
  | 0, _ => []
  | n + 1, v => UInt8.ofNat v :: leBytes n (v / 256)

/-- A frame: its type byte and its payload. -/
structure Frame where
  ty : UInt8
  payload : List UInt8
deriving DecidableEq

/-- The bytes a writer appends for a frame; the length is cut to four bytes. -/
def frameBytes (crc : List UInt8 → UInt32) (f : Frame) : List UInt8 :=
  leBytes 4 f.payload.length ++ [f.ty] ++ f.payload ++ leBytes 4 (crc f.payload).toNat

/-- The first frame and the bytes after it, or `none` when the reader has to stop: too few bytes
for a header, a payload or a checksum, or a checksum that does not match. -/
def nextFrame (crc : List UInt8 → UInt32) (b : List UInt8) : Option (Frame × List UInt8) :=
  if b.length < 5 then none
  else
    let len := leValue (b.take 4)
    let rest := b.drop 5
    if rest.length < len then none
    else
      let payload := rest.take len
      let tail := rest.drop len
      if tail.length < 4 then none
      else if (crc payload).toNat ≠ leValue (tail.take 4) then none
      else some (⟨(b.drop 4).headD 0, payload⟩, tail.drop 4)

/-- The reader on a given fuel. -/
def framesFuel (crc : List UInt8 → UInt32) : ℕ → List UInt8 → List Frame
  | 0, _ => []
  | n + 1, b =>
    match nextFrame crc b with
    | none => []
    | some (f, rest) => f :: framesFuel crc n rest

/-- All frames up to the first torn or corrupt one. -/
def frames (crc : List UInt8 → UInt32) (b : List UInt8) : List Frame :=
  framesFuel crc b.length b

variable {crc : List UInt8 → UInt32}

theorem length_lt_of_nextFrame {b rest : List UInt8} {f : Frame}
    (h : nextFrame crc b = some (f, rest)) : rest.length + 9 ≤ b.length := by
  simp only [nextFrame] at h
  split_ifs at h with h1 h2 h3
  cases h
  simp only [List.length_drop] at h2 h3 ⊢
  omega

theorem framesFuel_eq_of_le {n m : ℕ} {b : List UInt8} (hn : b.length ≤ n) (hm : b.length ≤ m) :
    framesFuel crc n b = framesFuel crc m b := by
  induction n generalizing m b with
  | zero =>
    have hb : b = [] := List.length_eq_zero_iff.mp (by omega)
    subst hb
    cases m with
    | zero => rfl
    | succ m => rfl
  | succ n ih =>
    cases m with
    | zero =>
      have hb : b = [] := List.length_eq_zero_iff.mp (by omega)
      subst hb
      rfl
    | succ m =>
      rw [framesFuel, framesFuel]
      cases h : nextFrame crc b with
      | none => rfl
      | some p =>
        obtain ⟨f, rest⟩ := p
        have hlt := length_lt_of_nextFrame h
        simp only
        rw [ih (m := m) (by omega) (by omega)]

/-- The reader without fuel: take one frame, then read on. -/
theorem frames_eq (b : List UInt8) :
    frames crc b =
      match nextFrame crc b with
      | none => []
      | some (f, rest) => f :: frames crc rest := by
  rw [frames]
  cases hb : b.length with
  | zero =>
    have hnil : b = [] := List.length_eq_zero_iff.mp hb
    subst hnil
    rfl
  | succ n =>
    rw [framesFuel]
    cases h : nextFrame crc b with
    | none => rfl
    | some p =>
      obtain ⟨f, rest⟩ := p
      have hlt := length_lt_of_nextFrame h
      simp only
      rw [frames, framesFuel_eq_of_le (m := rest.length) (by omega) (Nat.le_refl _)]

/-! ## Reading back what was written -/

@[simp] theorem length_leBytes (n v : ℕ) : (leBytes n v).length = n := by
  induction n generalizing v with
  | zero => rfl
  | succ n ih => rw [leBytes, List.length_cons, ih]

/-- The low bytes of a number have its value up to the bytes that were cut off. -/
theorem leValue_leBytes (n v : ℕ) : leValue (leBytes n v) = v % 256 ^ n := by
  induction n generalizing v with
  | zero => rw [leBytes, leValue, Nat.pow_zero, Nat.mod_one]
  | succ n ih =>
    have hbyte : (UInt8.ofNat v).toNat = v % 256 := UInt8.toNat_ofNat'
    rw [leBytes, leValue, ih, hbyte, Nat.pow_succ', Nat.mod_mul]

/-- The reader at a written frame: it finds the length up to a multiple of `2 ^ 32`. -/
theorem nextFrame_frameBytes (f : Frame) (rest : List UInt8) :
    nextFrame crc (frameBytes crc f ++ rest) =
      let body := f.payload ++ (leBytes 4 (crc f.payload).toNat ++ rest)
      let len := f.payload.length % 2 ^ 32
      if body.length < len then none
      else if (body.drop len).length < 4 then none
      else if (crc (body.take len)).toNat ≠ leValue ((body.drop len).take 4) then none
      else some (⟨f.ty, body.take len⟩, (body.drop len).drop 4) := by
  have hhead : (frameBytes crc f ++ rest).take 4 = leBytes 4 f.payload.length := by
    simp [frameBytes]
  have hty : (frameBytes crc f ++ rest).drop 4
      = f.ty :: (f.payload ++ (leBytes 4 (crc f.payload).toNat ++ rest)) := by
    simp [frameBytes]
  have hrest : (frameBytes crc f ++ rest).drop 5
      = f.payload ++ (leBytes 4 (crc f.payload).toNat ++ rest) := by
    rw [show (5 : ℕ) = 4 + 1 from rfl, ← List.drop_drop, hty, List.drop_one, List.tail_cons]
  have hlong : ¬(frameBytes crc f ++ rest).length < 5 := by
    simp only [frameBytes, List.length_append, length_leBytes, List.length_singleton]
    omega
  rw [nextFrame, if_neg hlong, hhead, leValue_leBytes, hty, hrest]
  rfl

theorem nextFrame_frameBytes_of_lt {f : Frame} (h : f.payload.length < 2 ^ 32)
    (rest : List UInt8) : nextFrame crc (frameBytes crc f ++ rest) = some (f, rest) := by
  have hcrc : leValue (leBytes 4 (crc f.payload).toNat) = (crc f.payload).toNat := by
    rw [leValue_leBytes]
    exact Nat.mod_eq_of_lt (crc f.payload).toNat_lt
  rw [nextFrame_frameBytes, Nat.mod_eq_of_lt h]
  simp [hcrc]

/-- A payload of `2 ^ 32` bytes is written with the length zero, and the reader stops at it unless
its first four bytes happen to be the checksum of nothing. -/
theorem nextFrame_frameBytes_of_cut {f : Frame} (h : f.payload.length = 2 ^ 32)
    (hcrc : (crc []).toNat ≠ leValue (f.payload.take 4)) (rest : List UInt8) :
    nextFrame crc (frameBytes crc f ++ rest) = none := by
  have htake : (f.payload ++ (leBytes 4 (crc f.payload).toNat ++ rest)).take 4
      = f.payload.take 4 := List.take_append_of_le_length (by omega)
  have hlong : ¬(f.payload ++ (leBytes 4 (crc f.payload).toNat ++ rest)).length < 4 := by
    rw [List.length_append]
    omega
  rw [nextFrame_frameBytes, h, Nat.mod_self]
  simp only [List.take_zero, List.drop_zero, Nat.not_lt_zero, if_false, htake]
  rw [if_neg hlong, if_pos hcrc]

/-- **Reading back.** A log that starts with written frames is read as those frames, and then as
whatever follows them. -/
theorem frames_flatMap_append {fs : List Frame} (h : ∀ f ∈ fs, f.payload.length < 2 ^ 32)
    (rest : List UInt8) :
    frames crc (fs.flatMap (frameBytes crc) ++ rest) = fs ++ frames crc rest := by
  induction fs with
  | nil => rfl
  | cons f fs ih =>
    rw [List.forall_mem_cons] at h
    rw [List.flatMap_cons, List.append_assoc, frames_eq, nextFrame_frameBytes_of_lt h.1]
    simp only
    rw [ih h.2, List.cons_append]

theorem frames_flatMap {fs : List Frame} (h : ∀ f ∈ fs, f.payload.length < 2 ^ 32) :
    frames crc (fs.flatMap (frameBytes crc)) = fs := by
  have happ : frames crc (fs.flatMap (frameBytes crc) ++ []) = fs ++ frames crc [] :=
    frames_flatMap_append h []
  rwa [List.append_nil, show frames crc [] = [] from rfl, List.append_nil] at happ

/-! ## Reading nothing else -/

theorem leBytes_leValue {n : ℕ} {bs : List UInt8} (h : bs.length = n) :
    leBytes n (leValue bs) = bs := by
  subst h
  induction bs with
  | nil => rfl
  | cons b bs ih =>
    have hlow : UInt8.ofNat (b.toNat + 256 * leValue bs) = b := by
      rw [← UInt8.toNat_inj, UInt8.toNat_ofNat', Nat.add_mul_mod_self_left]
      exact Nat.mod_eq_of_lt b.toNat_lt
    have hhigh : (b.toNat + 256 * leValue bs) / 256 = leValue bs := by
      have hb := b.toNat_lt
      omega
    rw [List.length_cons, leValue, leBytes, hlow, hhigh, ih]

theorem leValue_lt (bs : List UInt8) : leValue bs < 256 ^ bs.length := by
  induction bs with
  | nil => exact Nat.one_pos
  | cons b bs ih =>
    have hb := b.toNat_lt
    rw [leValue, List.length_cons, Nat.pow_succ']
    omega

/-- **One frame.** The reader takes a frame off exactly if its bytes stand at the front. -/
theorem nextFrame_eq_some_iff {b rest : List UInt8} {f : Frame} :
    nextFrame crc b = some (f, rest) ↔
      f.payload.length < 2 ^ 32 ∧ b = frameBytes crc f ++ rest := by
  constructor
  · intro h
    simp only [nextFrame] at h
    split_ifs at h with hhead hbody htail hcrc
    obtain ⟨rfl, rfl⟩ := Prod.mk.inj (Option.some.inj h)
    have hfour : (b.take 4).length = 4 := by
      rw [List.length_take]
      omega
    have hlen : ((b.drop 5).take (leValue (b.take 4))).length = leValue (b.take 4) := by
      rw [List.length_take]
      omega
    refine ⟨?_, ?_⟩
    · have hlt := leValue_lt (b.take 4)
      rw [hfour] at hlt
      rw [hlen]
      exact hlt
    · -- the four parts of the frame are consecutive pieces of the bytes
      have hfirst : leBytes 4 (leValue (b.take 4)) = b.take 4 := leBytes_leValue hfour
      have hty : [(b.drop 4).headD 0] ++ b.drop 5 = b.drop 4 := by
        rw [List.drop_eq_getElem_cons (show 4 < b.length by omega)]
        rfl
      set tail := (b.drop 5).drop (leValue (b.take 4)) with htaildef
      have hlast : leBytes 4 (leValue (tail.take 4)) = tail.take 4 := by
        refine leBytes_leValue ?_
        rw [List.length_take]
        omega
      rw [frameBytes, hlen, hfirst, not_not.mp hcrc, hlast]
      simp only [List.append_assoc]
      rw [List.take_append_drop, htaildef, List.take_append_drop, hty, List.take_append_drop]
  · rintro ⟨hlen, rfl⟩
    exact nextFrame_frameBytes_of_lt hlen rest

/-- **All frames.** The reader reads frames exactly if the bytes are theirs, followed by something
that does not start with a frame. -/
theorem frames_eq_iff {b : List UInt8} {fs : List Frame} :
    frames crc b = fs ↔ (∀ f ∈ fs, f.payload.length < 2 ^ 32) ∧
      ∃ rest, b = fs.flatMap (frameBytes crc) ++ rest ∧ nextFrame crc rest = none := by
  constructor
  · intro h
    induction fs generalizing b with
    | nil =>
      refine ⟨List.forall_mem_nil _, b, rfl, ?_⟩
      rw [frames_eq] at h
      rcases hnext : nextFrame crc b with _ | p
      · rfl
      · rw [hnext] at h
        cases h
    | cons f fs ih =>
      rw [frames_eq] at h
      rcases hnext : nextFrame crc b with _ | ⟨g, rest⟩
      · rw [hnext] at h
        cases h
      · rw [hnext] at h
        obtain ⟨rfl, htail⟩ := List.cons.inj h
        obtain ⟨hlen, rfl⟩ := nextFrame_eq_some_iff.mp hnext
        obtain ⟨hshort, last, rfl, hnone⟩ := ih htail
        refine ⟨List.forall_mem_cons.mpr ⟨hlen, hshort⟩, last, ?_, hnone⟩
        rw [List.flatMap_cons, List.append_assoc]
  · rintro ⟨hshort, rest, rfl, hnone⟩
    rw [frames_flatMap_append hshort, frames_eq, hnone, List.append_nil]

theorem nextFrame_of_torn {torn : List UInt8} {f : Frame} (hf : f.payload.length < 2 ^ 32)
    (htorn : torn <+: frameBytes crc f) (hne : torn ≠ frameBytes crc f) :
    nextFrame crc torn = none := by
  rcases hnext : nextFrame crc torn with _ | ⟨g, rest⟩
  · rfl
  · obtain ⟨hg, rfl⟩ := nextFrame_eq_some_iff.mp hnext
    obtain ⟨more, hmore⟩ := htorn
    have hwhole : nextFrame crc (frameBytes crc f ++ []) = some (f, []) :=
      nextFrame_frameBytes_of_lt hf []
    rw [List.append_nil, ← hmore, List.append_assoc, nextFrame_frameBytes_of_lt hg] at hwhole
    have hnil : rest ++ more = [] := congrArg Prod.snd (Option.some.inj hwhole)
    rw [List.append_eq_nil_iff.mp hnil |>.2, List.append_nil] at hmore
    exact absurd hmore hne

end Framing
