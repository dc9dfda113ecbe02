import Molia.General.Frames

/-!
# Damaged logs

What the reader of `Framing.frames` makes of a log that was written frame by frame and then damaged.

A log that is cut off at any byte falls into the frames that lie entirely before the cut, `whole`,
and a proper part of the next frame, which is not the start of a frame. So the reader finds exactly
the whole frames (`frames_take`).

A byte of a frame that is changed is noticed or not according to where it stands. The checksum is
computed from the payload alone, so a change to the payload or to the checksum stops the reader at
this frame (`frames_flipBit_body`), provided that the checksum tells the two payloads apart. The
type byte is not covered: with that byte changed, the reader takes the frame under its new type and
reads on (`frames_flipBit_type`).
-/

namespace Framing

/-- The number of bytes of a frame. -/
def Frame.size (f : Frame) : ℕ := f.payload.length + 9

/-- The frames that lie entirely within the first `n` bytes. -/
def whole : ℕ → List Frame → List Frame
  | _, [] => []
  | n, f :: fs => if f.size ≤ n then f :: whole (n - f.size) fs else []

/-- One bit of one byte is inverted. -/
def flipBit (i : ℕ) (bit : Fin 8) (b : List UInt8) : List UInt8 :=
  b.modify i fun x ↦ x ^^^ UInt8.ofNat (2 ^ bit.val)

/-- The checksum tells apart byte strings that differ in one bit. -/
def DetectsFlips (crc : List UInt8 → UInt32) : Prop :=
  ∀ (b : List UInt8) (i : ℕ) (bit : Fin 8), i < b.length → crc (flipBit i bit b) ≠ crc b

variable {crc : List UInt8 → UInt32}

theorem length_frameBytes (f : Frame) : (frameBytes crc f).length = f.size := by
  simp only [frameBytes, List.length_append, length_leBytes, List.length_singleton, Frame.size]
  omega

/-! ## Cuts -/

theorem isPrefix_whole (n : ℕ) (fs : List Frame) : whole n fs <+: fs := by
  induction fs generalizing n with
  | nil => exact List.prefix_refl _
  | cons f fs ih =>
    rw [whole]
    split_ifs
    · exact List.cons_prefix_cons.mpr ⟨rfl, ih _⟩
    · exact List.nil_prefix

theorem whole_append_drop (n : ℕ) (fs : List Frame) :
    whole n fs ++ fs.drop (whole n fs).length = fs :=
  List.prefix_iff_eq_append.mp (isPrefix_whole n fs)

theorem lt_length_whole_iff {n j : ℕ} {fs : List Frame} :
    j < (whole n fs).length ↔
      j < fs.length ∧ ((fs.take (j + 1)).flatMap (frameBytes crc)).length ≤ n := by
  induction fs generalizing n j with
  | nil => simp [whole]
  | cons f fs ih =>
    rw [whole, List.take_succ_cons, List.flatMap_cons, List.length_append, length_frameBytes]
    by_cases hfit : f.size ≤ n
    · rw [if_pos hfit]
      cases j with
      | zero => simp [hfit]
      | succ j =>
        rw [List.length_cons, List.length_cons, Nat.succ_lt_succ_iff, Nat.succ_lt_succ_iff, ih]
        have hshift : f.size + ((fs.take (j + 1)).flatMap (frameBytes crc)).length ≤ n ↔
            ((fs.take (j + 1)).flatMap (frameBytes crc)).length ≤ n - f.size := by omega
        rw [hshift]
    · rw [if_neg hfit]
      refine iff_of_false (Nat.not_lt_zero j) fun h ↦ hfit ?_
      exact (Nat.le_add_right _ _).trans h.2

theorem whole_eq_self_iff {n : ℕ} {fs : List Frame} :
    whole n fs = fs ↔ (fs.flatMap (frameBytes crc)).length ≤ n := by
  induction fs generalizing n with
  | nil => exact iff_of_true rfl (Nat.zero_le n)
  | cons f fs ih =>
    rw [List.flatMap_cons, List.length_append, length_frameBytes, whole]
    by_cases hfit : f.size ≤ n
    · rw [if_pos hfit, List.cons_inj_right, ih]
      omega
    · rw [if_neg hfit]
      refine iff_of_false (List.cons_ne_nil f fs).symm ?_
      omega

/-- What is left of a frame that was cut short, or nothing if the cut is between two frames. -/
def IsTorn (crc : List UInt8 → UInt32) (next : Option Frame) (torn : List UInt8) : Prop :=
  torn = [] ∨ ∃ f, next = some f ∧ torn <+: frameBytes crc f ∧ torn ≠ frameBytes crc f

/-- A log that is cut off consists of its whole frames and of a part of the next one. -/
theorem exists_torn (crc : List UInt8 → UInt32) (n : ℕ) (fs : List Frame) :
    ∃ torn, (fs.flatMap (frameBytes crc)).take n = (whole n fs).flatMap (frameBytes crc) ++ torn ∧
      IsTorn crc (fs.drop (whole n fs).length).head? torn := by
  induction fs generalizing n with
  | nil => exact ⟨[], by rw [whole, List.flatMap_nil, List.take_nil, List.append_nil], Or.inl rfl⟩
  | cons f fs ih =>
    rw [whole, List.flatMap_cons, List.take_append, length_frameBytes]
    by_cases hfit : f.size ≤ n
    · obtain ⟨torn, htake, htorn⟩ := ih (n - f.size)
      rw [if_pos hfit, List.take_of_length_le (by rw [length_frameBytes]; exact hfit), htake]
      exact ⟨torn, by rw [List.flatMap_cons, List.append_assoc], htorn⟩
    · -- the cut is in the first frame
      have hnone : n - f.size = 0 := by omega
      refine ⟨(frameBytes crc f).take n, ?_, Or.inr ⟨f, ?_, List.take_prefix _ _, ?_⟩⟩
      · rw [if_neg hfit, hnone, List.take_zero, List.append_nil, List.flatMap_nil, List.nil_append]
      · rw [if_neg hfit, List.length_nil, List.drop_zero, List.head?_cons]
      · intro heq
        have hlen := congrArg List.length heq
        rw [List.length_take, length_frameBytes] at hlen
        omega

theorem IsTorn.nextFrame {next : Option Frame} {torn : List UInt8} (h : IsTorn crc next torn)
    (hnext : ∀ f, next = some f → f.payload.length < 2 ^ 32) : nextFrame crc torn = none := by
  rcases h with rfl | ⟨f, hf, hprefix, hne⟩
  · rfl
  · exact nextFrame_of_torn (hnext f hf) hprefix hne

/-- **Cuts.** The reader finds the frames that lie entirely before the cut. -/
theorem frames_take {fs : List Frame} (h : ∀ f ∈ fs, f.payload.length < 2 ^ 32) (n : ℕ) :
    frames crc ((fs.flatMap (frameBytes crc)).take n) = whole n fs := by
  obtain ⟨torn, htake, htorn⟩ := exists_torn crc n fs
  have hwhole : ∀ f ∈ whole n fs, f.payload.length < 2 ^ 32 :=
    fun f hf ↦ h f ((isPrefix_whole n fs).subset hf)
  refine frames_eq_iff.mpr ⟨hwhole, torn, htake, htorn.nextFrame fun f hf ↦ ?_⟩
  exact h f (List.mem_of_mem_drop (List.mem_of_mem_head? hf))

/-! ## Flips -/

theorem length_flipBit (i : ℕ) (bit : Fin 8) (b : List UInt8) :
    (flipBit i bit b).length = b.length := List.length_modify _ _ _

theorem xor_bit_ne (bit : Fin 8) (x : UInt8) : x ^^^ UInt8.ofNat (2 ^ bit.val) ≠ x := by
  intro h
  have hzero : UInt8.ofNat (2 ^ bit.val) = 0 := by
    rw [← UInt8.xor_right_inj x, h, UInt8.xor_zero]
  clear h
  revert hzero bit
  decide

theorem flipBit_ne {i : ℕ} {b : List UInt8} (h : i < b.length) (bit : Fin 8) :
    flipBit i bit b ≠ b := by
  intro heq
  have hbyte : (flipBit i bit b)[i]? = b[i]? := by rw [heq]
  rw [flipBit, List.getElem?_modify_eq, List.getElem?_eq_getElem h] at hbyte
  exact xor_bit_ne bit _ (Option.some.inj hbyte)

theorem flipBit_append_of_lt {i : ℕ} {a : List UInt8} (h : i < a.length) (bit : Fin 8)
    (b : List UInt8) : flipBit i bit (a ++ b) = flipBit i bit a ++ b := by
  induction a generalizing i with
  | nil => exact absurd h (Nat.not_lt_zero i)
  | cons x a ih =>
    cases i with
    | zero => rfl
    | succ i => exact congrArg (x :: ·) (ih (Nat.lt_of_succ_lt_succ h))

theorem flipBit_append_add (a : List UInt8) (i : ℕ) (bit : Fin 8) (b : List UInt8) :
    flipBit (a.length + i) bit (a ++ b) = a ++ flipBit i bit b := by
  induction a with
  | nil => rw [List.length_nil, Nat.zero_add, List.nil_append, List.nil_append]
  | cons x a ih =>
    rw [List.length_cons, Nat.add_right_comm]
    exact congrArg (x :: ·) ih

/-- The bytes of a frame before its payload. -/
def header (f : Frame) : List UInt8 := leBytes 4 f.payload.length ++ [f.ty]

theorem length_header (f : Frame) : (header f).length = 5 := by
  rw [header, List.length_append, length_leBytes, List.length_singleton]

theorem frameBytes_eq (f : Frame) :
    frameBytes crc f = header f ++ (f.payload ++ leBytes 4 (crc f.payload).toNat) := by
  rw [frameBytes, header, List.append_assoc]

theorem leBytes_four_inj {v w : ℕ} (hv : v < 2 ^ 32) (hw : w < 2 ^ 32)
    (h : leBytes 4 v = leBytes 4 w) : v = w := by
  have hvalue := congrArg leValue h
  rw [leValue_leBytes, leValue_leBytes] at hvalue
  calc v = v % 256 ^ 4 := (Nat.mod_eq_of_lt hv).symm
    _ = w % 256 ^ 4 := hvalue
    _ = w := Nat.mod_eq_of_lt hw

theorem nextFrame_of_mismatch {f : Frame} {payload sum : List UInt8}
    (hf : f.payload.length < 2 ^ 32) (hpayload : payload.length = f.payload.length)
    (hsum : sum.length = 4) (hne : leBytes 4 (crc payload).toNat ≠ sum) (rest : List UInt8) :
    nextFrame crc (header f ++ (payload ++ sum) ++ rest) = none := by
  rcases hnext : nextFrame crc (header f ++ (payload ++ sum) ++ rest) with _ | ⟨g, rest'⟩
  · rfl
  · -- a frame that is read has the same header, so the same payload, and the checksum of it
    obtain ⟨hg, hbytes⟩ := nextFrame_eq_some_iff.mp hnext
    simp only [frameBytes_eq, List.append_assoc] at hbytes
    obtain ⟨hheader, hbody⟩ := List.append_inj hbytes (by rw [length_header, length_header])
    have hlen : f.payload.length = g.payload.length :=
      leBytes_four_inj hf hg (List.append_inj' hheader rfl).1
    obtain ⟨rfl, htail⟩ := List.append_inj hbody (hpayload.trans hlen)
    obtain ⟨hsums, -⟩ := List.append_inj htail (by rw [hsum, length_leBytes])
    exact absurd hsums.symm hne

theorem flipBit_type (f : Frame) (bit : Fin 8) :
    flipBit 4 bit (frameBytes crc f)
      = frameBytes crc { f with ty := f.ty ^^^ UInt8.ofNat (2 ^ bit.val) } := by
  have hfour : (leBytes 4 f.payload.length).length = 4 := length_leBytes _ _
  rw [frameBytes, frameBytes, List.append_assoc, List.append_assoc, List.append_assoc,
    List.append_assoc]
  have hat := flipBit_append_add (leBytes 4 f.payload.length) 0 bit
    ([f.ty] ++ (f.payload ++ leBytes 4 (crc f.payload).toNat))
  rw [hfour] at hat
  exact hat

theorem nextFrame_flipBit_body (hcrc : DetectsFlips crc) {f : Frame}
    (hf : f.payload.length < 2 ^ 32) {i : ℕ} (hi : 5 ≤ i) (hsize : i < f.size) (bit : Fin 8)
    (rest : List UInt8) : nextFrame crc (flipBit i bit (frameBytes crc f) ++ rest) = none := by
  obtain ⟨j, rfl⟩ := Nat.exists_eq_add_of_le hi
  rw [Frame.size] at hsize
  have hheader : flipBit (5 + j) bit (frameBytes crc f)
      = header f ++ flipBit j bit (f.payload ++ leBytes 4 (crc f.payload).toNat) := by
    rw [frameBytes_eq, ← length_header f, flipBit_append_add]
  rw [hheader]
  by_cases hpayload : j < f.payload.length
  · rw [flipBit_append_of_lt hpayload]
    refine nextFrame_of_mismatch hf (length_flipBit _ _ _) (length_leBytes _ _) ?_ rest
    intro heq
    refine hcrc f.payload j bit hpayload (UInt32.toNat_inj.mp ?_)
    exact leBytes_four_inj (UInt32.toNat_lt _) (UInt32.toNat_lt _) heq
  · obtain ⟨m, rfl⟩ := Nat.exists_eq_add_of_le (not_lt.mp hpayload)
    rw [flipBit_append_add]
    have hm : m < (leBytes 4 (crc f.payload).toNat).length := by
      rw [length_leBytes]
      omega
    exact nextFrame_of_mismatch hf rfl ((length_flipBit _ _ _).trans (length_leBytes _ _))
      (flipBit_ne hm bit).symm rest

/-- The log with one bit of one frame inverted: the frame in the middle, and the place of the byte
within it. -/
def damaged (crc : List UInt8 → UInt32) (fs : List Frame) (f : Frame) (gs : List Frame) (i : ℕ)
    (bit : Fin 8) : List UInt8 :=
  flipBit ((fs.flatMap (frameBytes crc)).length + i) bit ((fs ++ f :: gs).flatMap (frameBytes crc))

theorem damaged_eq {f : Frame} {i : ℕ} (hi : i < f.size) (fs gs : List Frame) (bit : Fin 8) :
    damaged crc fs f gs i bit = fs.flatMap (frameBytes crc)
      ++ (flipBit i bit (frameBytes crc f) ++ gs.flatMap (frameBytes crc)) := by
  have hlt : i < (frameBytes crc f).length := length_frameBytes f ▸ hi
  rw [damaged, List.flatMap_append, List.flatMap_cons, flipBit_append_add, flipBit_append_of_lt hlt]

/-- **Flips in the payload or the checksum.** The reader stops in front of the frame. -/
theorem frames_flipBit_body (hcrc : DetectsFlips crc) {fs gs : List Frame} {f : Frame}
    (hfs : ∀ g ∈ fs, g.payload.length < 2 ^ 32) (hf : f.payload.length < 2 ^ 32) {i : ℕ}
    (hi : 5 ≤ i) (hsize : i < f.size) (bit : Fin 8) :
    frames crc (damaged crc fs f gs i bit) = fs :=
  frames_eq_iff.mpr ⟨hfs, _, damaged_eq hsize fs gs bit,
    nextFrame_flipBit_body hcrc hf hi hsize bit _⟩

/-- **Flips in the type.** The reader takes the frame under another type and reads on. -/
theorem frames_flipBit_type {fs gs : List Frame} {f : Frame}
    (h : ∀ g ∈ fs ++ f :: gs, g.payload.length < 2 ^ 32) (bit : Fin 8) :
    frames crc (damaged crc fs f gs 4 bit)
      = fs ++ { f with ty := f.ty ^^^ UInt8.ofNat (2 ^ bit.val) } :: gs := by
  have hsize : 4 < f.size := by
    rw [Frame.size]
    omega
  have hbytes : damaged crc fs f gs 4 bit
      = (fs ++ { f with ty := f.ty ^^^ UInt8.ofNat (2 ^ bit.val) } :: gs).flatMap
          (frameBytes crc) := by
    rw [damaged_eq hsize, flipBit_type, List.flatMap_append, List.flatMap_cons]
  rw [List.forall_mem_append, List.forall_mem_cons] at h
  rw [hbytes, frames_flatMap]
  exact List.forall_mem_append.mpr ⟨h.1, List.forall_mem_cons.mpr ⟨h.2.1, h.2.2⟩⟩

end Framing
