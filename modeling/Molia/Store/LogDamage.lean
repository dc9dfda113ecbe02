import Molia.General.Damage
import Molia.Store.Recovery
import Molia.Store.TornLog

/-!
# Failed writes, cut logs and flipped bits

Three kinds of damage to the log that the peer index and the store share.

A flush that fails is the worst of them. The queue is drained whatever happens, so the frames that
were not written are gone: neither a later flush nor a recovery finds them, and this is so at every
point at which a write can fail (`losesNothing_iff`).

A log that was cut off at any byte is recovered up to the last frame before the cut
(`applies_take`).

A flipped bit is noticed if it is in the payload or in the checksum of a frame, and then the
recovery ends in front of this frame. The type byte is not covered by the checksum. A flipped bit
there turns the frame into one of another type, and the frames behind it are applied as if nothing
had happened (`applies_damaged_iff`). That the checksum notices a flipped bit of the payload is true
of CRC-32 (`Sample.detectsFlips_crc32`).
-/

namespace Molia

section

variable [Crates]

open Crates

/-! ## Failed writes -/

namespace Peerstore

/-- The queued frames that a flush writes completely. -/
def written (p : Peerstore) (room : Option ℕ) : List Framing.Frame :=
  match p.wal, room with
  | some _, some n => Framing.whole n p.pending
  | _, _ => p.pending

/-- The queued frames that a flush does not write, or not to their end. -/
def unwritten (p : Peerstore) (room : Option ℕ) : List Framing.Frame :=
  p.pending.drop (p.written room).length

/-- The frames that a flush does not write are still queued after it; and if the log consisted of
frames before, then after a later flush that succeeds it is recovered with every frame of the
queue. -/
structure LosesNothing (p : Peerstore) (room : Option ℕ) : Prop where
  kept : (p.flush room).2.pending = p.unwritten room
  recovered : ∀ before, p.wal = some (before.flatMap (Framing.frameBytes crc32)) →
    (∀ f ∈ before ++ p.pending, f.payload.length < 2 ^ 32) →
    ∀ later, ((p.flush room).2.flush later).1 = .ok () →
      ∃ wal, ((p.flush room).2.flush later).2.wal = some wal ∧ Applies wal (before ++ p.pending)

theorem pending_flush (p : Peerstore) (room : Option ℕ) : (p.flush room).2.pending = [] := by
  rw [flush]
  split
  · rfl
  · dsimp only
    split
    · rfl
    · split_ifs
      · rfl
      · rfl

theorem flush_of_error {p : Peerstore} {room : Option ℕ} (h : (p.flush room).1 = .error ()) :
    ∃ wal n, p.wal = some wal ∧ room = some n ∧
      n < (p.pending.flatMap (Framing.frameBytes crc32)).length ∧
      (p.flush room).2 = { p with
        pending := [], wal := some (wal ++ (p.pending.flatMap (Framing.frameBytes crc32)).take n) }
      := by
  rcases hwal : p.wal with _ | wal
  · simp only [flush, hwal] at h
    cases h
  rcases room with _ | n
  · simp only [flush, hwal] at h
    cases h
  by_cases hle : (p.pending.flatMap (Framing.frameBytes crc32)).length ≤ n
  · simp only [flush, hwal, if_pos hle] at h
    cases h
  · refine ⟨wal, n, rfl, rfl, not_le.mp hle, ?_⟩
    simp only [flush, hwal, if_neg hle]

theorem written_of_ok {p : Peerstore} {room : Option ℕ} (h : (p.flush room).1 = .ok ()) :
    p.written room = p.pending := by
  rcases hwal : p.wal with _ | wal
  · simp only [written, hwal]
  rcases room with _ | n
  · simp only [written, hwal]
  by_cases hle : (p.pending.flatMap (Framing.frameBytes crc32)).length ≤ n
  · simp only [written, hwal]
    exact Framing.whole_eq_self_iff.mpr hle
  · simp only [flush, hwal, if_neg hle] at h
    cases h

theorem unwritten_of_error {p : Peerstore} {room : Option ℕ} (h : (p.flush room).1 = .error ()) :
    p.unwritten room ≠ [] := by
  obtain ⟨wal, n, hwal, rfl, hshort, -⟩ := flush_of_error h
  intro hnil
  have hwhole := Framing.whole_append_drop n p.pending
  simp only [unwritten, written, hwal] at hnil
  rw [hnil, List.append_nil] at hwhole
  exact Nat.not_le_of_lt hshort (Framing.whole_eq_self_iff.mp hwhole)

/-- After a flush that fails, a recovery finds the frames that were written completely. -/
theorem applies_of_error {p : Peerstore} {room : Option ℕ} (h : (p.flush room).1 = .error ())
    {before : List Framing.Frame}
    (hwal : p.wal = some (before.flatMap (Framing.frameBytes crc32)))
    (hshort : ∀ f ∈ before ++ p.pending, f.payload.length < 2 ^ 32) :
    ∃ wal, (p.flush room).2.wal = some wal ∧ Applies wal (before ++ p.written room) := by
  obtain ⟨wal, n, hwal', rfl, -, hflush⟩ := flush_of_error h
  rw [hwal, Option.some.injEq] at hwal'
  subst hwal'
  rw [List.forall_mem_append] at hshort
  refine ⟨_, by rw [hflush], applies_iff.mpr ?_⟩
  rw [Framing.frames_flatMap_append hshort.1, Framing.frames_take hshort.2]
  simp only [written, hwal]

theorem losesNothing_of_ok {p : Peerstore} {room : Option ℕ} (h : (p.flush room).1 = .ok ()) :
    p.LosesNothing room where
  kept := by rw [pending_flush, unwritten, written_of_ok h, List.drop_length]
  recovered before hwal hshort later hlater := by
    have hflush := flush_of_ok hwal h
    have hagain := flush_of_ok (p := (p.flush room).2) (by rw [hflush]) hlater
    refine ⟨_, by rw [hagain], applies_iff.mpr ?_⟩
    rw [pending_flush, List.flatMap_nil, List.append_nil, ← List.flatMap_append]
    exact Framing.frames_flatMap hshort

end Peerstore

/-- **Failed writes.** The store hands its records to the log, and the queue is flushed. Nothing is
lost exactly if no write fails. If one fails, at whatever byte, then both queues are empty, at least
one frame has not been written, and a recovery finds only the frames that had been written
before. -/
theorem losesNothing_iff (s : Store) (p : Peerstore) (room : Option ℕ) :
    let q := (s.flushWal p).2
    q.pending = p.pending ++ s.pendingWal.map Store.recordFrame ∧
      (q.LosesNothing room ↔ (q.flush room).1 = .ok ()) ∧
      ((q.flush room).1 = .error () →
        (s.flushWal p).1.pendingWal = [] ∧ (q.flush room).2.pending = [] ∧
        q.unwritten room ≠ [] ∧
        ∀ before, q.wal = some (before.flatMap (Framing.frameBytes crc32)) →
          (∀ f ∈ before ++ q.pending, f.payload.length < 2 ^ 32) →
          ∃ wal, (q.flush room).2.wal = some wal ∧ Applies wal (before ++ q.written room)) := by
  intro q
  refine ⟨congrArg Peerstore.pending (Store.flushWal_snd s p),
    ⟨fun h ↦ ?_, Peerstore.losesNothing_of_ok⟩, fun h ↦ ?_⟩
  · rcases hresult : (q.flush room).1 with u | u
    · have hkept := h.kept
      rw [Peerstore.pending_flush] at hkept
      exact absurd hkept.symm (Peerstore.unwritten_of_error hresult)
    · rfl
  · exact ⟨rfl, q.pending_flush room, Peerstore.unwritten_of_error h,
      fun before hwal hshort ↦ Peerstore.applies_of_error h hwal hshort⟩

end

section

open Sample

attribute [local instance] wireCrates

/-- The row of the peer `id` at `127.0.0.1:79`. -/
private def rowOf (id : UInt8) : Framing.Frame :=
  ⟨typeUpsert, Peerstore.rowPayload (PeerInfo.new ⟨Bytes32.fill id⟩ (.ofV4 127 0 0 1 79))⟩

/-- A peer is queued and the first write takes three bytes of it. The flush reports the failure, and
the peer is no longer queued. -/
theorem losesNothing_fails :
    ¬∀ (_ : Crates) (s : Store) (p : Peerstore) (room : Option ℕ),
      ((s.flushWal p).2.flush room).1 = .error () → (s.flushWal p).2.LosesNothing room := by
  intro h
  have hkept := (h wireCrates Store.new ⟨∅, [rowOf 8], some []⟩ (some 3) (by decide +kernel)).kept
  revert hkept
  decide +kernel

end

/-! ## Cut logs -/

section

variable [Crates]

open Crates

/-- **Cut logs.** Of a log that was cut off at any byte, a recovery applies the frames that lie
entirely before the cut. -/
theorem applies_take {fs : List Framing.Frame} (h : ∀ f ∈ fs, f.payload.length < 2 ^ 32) (n : ℕ) :
    Applies ((fs.flatMap (Framing.frameBytes crc32)).take n) (Framing.whole n fs) ∧
      Framing.whole n fs <+: fs ∧
      ∀ j, j < (Framing.whole n fs).length ↔
        j < fs.length ∧ ((fs.take (j + 1)).flatMap (Framing.frameBytes crc32)).length ≤ n :=
  ⟨applies_iff.mpr (Framing.frames_take h n), Framing.isPrefix_whole n fs,
    fun _ ↦ Framing.lt_length_whole_iff⟩

end

section

open Sample

attribute [local instance] wireCrates

/-- The second of two rows is cut off in its address. -/
theorem applies_take_second :
    (∀ f ∈ [rowOf 8, rowOf 9], f.payload.length < 2 ^ 32) ∧
      Applies (([rowOf 8, rowOf 9].flatMap (Framing.frameBytes Crates.crc32)).take 95)
        (Framing.whole 95 [rowOf 8, rowOf 9]) ∧
      Framing.whole 95 [rowOf 8, rowOf 9] = [rowOf 8] :=
  ⟨by decide +kernel, (applies_take (by decide +kernel) 95).1, by decide +kernel⟩

end

/-! ## CRC-32 -/

namespace Sample

theorem toNat_shiftRight_one (c : UInt32) : (c >>> 1).toNat = c.toNat / 2 := by
  rw [UInt32.toNat_shiftRight, Nat.shiftRight_eq_div_pow]
  rfl

/-- The polynomial sets the highest bit, which a shift clears. -/
theorem xor_poly_ne (a b : UInt32) : (a >>> 1) ^^^ (0xEDB88320 : UInt32) ≠ b >>> 1 := by
  intro h
  have hxor : (a >>> 1) ^^^ (b >>> 1) = 0xEDB88320 := by
    rw [← h, ← UInt32.xor_assoc, UInt32.xor_self, UInt32.zero_xor]
  have hhalf : ∀ c : UInt32, (c >>> 1).toNat < 2 ^ 31 := by
    intro c
    have hc := c.toNat_lt
    rw [toNat_shiftRight_one]
    omega
  have hlt : ((a >>> 1) ^^^ (b >>> 1)).toNat < 2 ^ 31 := by
    rw [UInt32.toNat_xor]
    exact Nat.xor_lt_two_pow (hhalf a) (hhalf b)
  rw [hxor] at hlt
  revert hlt
  decide

/-- The highest bit of the result tells which branch was taken. -/
theorem crcBit_injective : Function.Injective crcBit := by
  have hlow : ∀ c : UInt32, c &&& 1 = 1 ↔ c.toNat % 2 = 1 := by
    intro c
    rw [← UInt32.toNat_inj, UInt32.toNat_and]
    exact (Nat.and_one_is_mod c.toNat).symm ▸ Iff.rfl
  intro a b h
  have hsame : a >>> 1 = b >>> 1 → (a &&& 1 = 1 ↔ b &&& 1 = 1) → a = b := by
    intro hhalf hbit
    have hdiv := congrArg UInt32.toNat hhalf
    rw [toNat_shiftRight_one, toNat_shiftRight_one] at hdiv
    rw [hlow, hlow] at hbit
    rw [← UInt32.toNat_inj]
    omega
  rw [crcBit, crcBit] at h
  split_ifs at h with ha hb hb
  · exact hsame ((UInt32.xor_left_inj _).mp h) (iff_of_true ha hb)
  · exact absurd h (xor_poly_ne a b)
  · exact absurd h.symm (xor_poly_ne b a)
  · exact hsame h (iff_of_false ha hb)

theorem xor_eq_of_crcByte_eq {c c' : UInt32} {x x' : UInt8} (h : crcByte c x = crcByte c' x') :
    c ^^^ x.toUInt32 = c' ^^^ x'.toUInt32 := by
  iterate 8 replace h := crcBit_injective h
  exact h

/-- A difference stays visible through the rest of the bytes. -/
theorem foldl_crcByte_injective (b : Bytes) : Function.Injective fun c ↦ b.foldl crcByte c := by
  induction b with
  | nil => exact Function.injective_id
  | cons x b ih =>
    refine ih.comp fun c c' h ↦ ?_
    exact (UInt32.xor_left_inj _).mp (xor_eq_of_crcByte_eq h)

/-- **CRC-32.** It tells apart byte strings that differ in one bit. -/
theorem detectsFlips_crc32 : Framing.DetectsFlips crc32 := by
  intro b i bit hi h
  have hfold : (Framing.flipBit i bit b).foldl crcByte 0xFFFFFFFF
      = b.foldl crcByte 0xFFFFFFFF := (UInt32.xor_left_inj _).mp h
  have hsplit : b = b.take i ++ b[i] :: b.drop (i + 1) := by
    rw [List.getElem_cons_drop, List.take_append_drop]
  rw [Framing.flipBit, List.modify_eq_take_cons_drop hi] at hfold
  nth_rewrite 4 [hsplit] at hfold
  rw [List.foldl_append, List.foldl_append, List.foldl_cons, List.foldl_cons] at hfold
  have hbyte := xor_eq_of_crcByte_eq (foldl_crcByte_injective _ hfold)
  exact Framing.xor_bit_ne bit _ (UInt8.toUInt32_inj.mp ((UInt32.xor_right_inj _).mp hbyte))

end Sample

/-! ## Flipped bits -/

section

variable [Crates]

open Crates

/-- **Flipped bits.** One bit of a frame is inverted, from its type byte on. A recovery applies the
frames before it and stops exactly if the bit is not in the type byte. Otherwise it takes the frame
under another type, and applies the frames behind it too. -/
theorem applies_damaged_iff (hcrc : Framing.DetectsFlips crc32) {fs gs : List Framing.Frame}
    {f : Framing.Frame} (h : ∀ g ∈ fs ++ f :: gs, g.payload.length < 2 ^ 32) {i : ℕ} (hi : 4 ≤ i)
    (hsize : i < f.size) (bit : Fin 8) :
    (Applies (Framing.damaged crc32 fs f gs i bit) fs ↔ i ≠ 4) ∧
      (i = 4 → Applies (Framing.damaged crc32 fs f gs i bit)
        (fs ++ { f with ty := f.ty ^^^ UInt8.ofNat (2 ^ bit.val) } :: gs)) := by
  have htype : i = 4 → Applies (Framing.damaged crc32 fs f gs i bit)
      (fs ++ { f with ty := f.ty ^^^ UInt8.ofNat (2 ^ bit.val) } :: gs) := by
    rintro rfl
    exact applies_iff.mpr (Framing.frames_flipBit_type h bit)
  refine ⟨⟨fun happlies hfour ↦ ?_, fun hne ↦ ?_⟩, htype⟩
  · -- the reader finds the damaged frame, and so more than `fs`
    have hreads := (htype hfour).reads.symm.trans happlies.reads
    exact List.cons_ne_nil _ _ (List.append_right_eq_self.mp hreads)
  · rw [List.forall_mem_append, List.forall_mem_cons] at h
    exact applies_iff.mpr (Framing.frames_flipBit_body hcrc h.1 h.2.1 (by omega) hsize bit)

end

section

open Sample

attribute [local instance] wireCrates

/-- A flipped bit in the address of the first of two peers. -/
theorem applies_damaged_iff_address :
    Applies (Framing.damaged Crates.crc32 [] (rowOf 8) [rowOf 9] 40 ⟨1, by decide⟩) [] :=
  (applies_damaged_iff detectsFlips_crc32 (by decide +kernel) (by decide) (by decide +kernel)
    _).1.mpr (by decide)

/-- A flipped bit in the type byte of the first of two peers. The second one is recovered. -/
theorem applies_damaged_fails :
    ¬∀ (_ : Crates) (fs gs : List Framing.Frame) (f : Framing.Frame) (i : ℕ) (bit : Fin 8),
      Framing.DetectsFlips Crates.crc32 →
      (∀ g ∈ fs ++ f :: gs, g.payload.length < 2 ^ 32) → 4 ≤ i → i < f.size →
        Applies (Framing.damaged Crates.crc32 fs f gs i bit) fs := by
  intro h
  have happlies := h wireCrates [] [rowOf 9] (rowOf 8) 4 ⟨1, by decide⟩ detectsFlips_crc32
    (by decide +kernel) (le_refl 4) (by decide +kernel)
  have hfound : ((Peerstore.replay ∅ (Framing.damaged Crates.crc32 [] (rowOf 8) [rowOf 9] 4
      ⟨1, by decide⟩)).lookup ⟨Bytes32.fill 9⟩).isSome = true := by
    decide +kernel
  rw [happlies.peers] at hfound
  revert hfound
  decide +kernel

end

end Molia
