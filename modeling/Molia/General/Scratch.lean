import Mathlib.Data.List.Infix

/-!
# Messages through one buffer

Messages are written one after the other to the start of a buffer, and afterwards read back from it
by their lengths. The last message is read back as it was written. The others are what the later
ones have left of them: all of them come back whole exactly if any two of the messages agree as far
as both of them reach (`readBack_eq_iff`).
-/

namespace Scratch

variable {α : Type*} {m m' buf : List α} {ms : List (List α)}

/-- Write a message to the start of a buffer. -/
def write (buf m : List α) : List α := m ++ buf.drop m.length

/-- The buffer after all the messages. -/
def writeAll (ms : List (List α)) (buf : List α) : List α := ms.foldl write buf

/-- What is read back, by the lengths of the messages. -/
def readBack (ms : List (List α)) (buf : List α) : List (List α) :=
  ms.map fun m ↦ (writeAll ms buf).take m.length

/-- Two messages that are the same as far as both reach. -/
def Agree (m m' : List α) : Prop := m <+: m' ∨ m' <+: m

theorem prefix_write (buf m : List α) : m <+: write buf m := List.prefix_append _ _

/-- A message that stands in the buffer is not damaged by one that agrees with it. -/
theorem prefix_write_of_agree (hbuf : m <+: buf) (hagree : Agree m m') : m <+: write buf m' := by
  rcases hagree with hle | hle
  · exact hle.trans (prefix_write buf m')
  · -- the shorter message is already there
    obtain ⟨rest, rfl⟩ := hle.trans hbuf
    rwa [write, List.drop_left]

theorem prefix_writeAll_of_agree (hbuf : m <+: buf) (hagree : ∀ m' ∈ ms, Agree m m') :
    m <+: writeAll ms buf := by
  induction ms generalizing buf with
  | nil => exact hbuf
  | cons m' ms ih =>
    rw [List.forall_mem_cons] at hagree
    exact ih (prefix_write_of_agree hbuf hagree.1) hagree.2

theorem readBack_eq_iff_forall : readBack ms buf = ms ↔ ∀ m ∈ ms, m <+: writeAll ms buf := by
  have hmap : readBack ms buf = ms ↔ ∀ m ∈ ms, (writeAll ms buf).take m.length = id m := by
    rw [← List.map_eq_map_iff, List.map_id, readBack]
  rw [hmap]
  exact forall₂_congr fun m _ ↦ by rw [List.prefix_iff_eq_take, id, eq_comm]

/-- **All messages come back** exactly if any two agree. -/
theorem readBack_eq_iff (ms : List (List α)) (buf : List α) :
    readBack ms buf = ms ↔ ms.Pairwise Agree := by
  rw [readBack_eq_iff_forall]
  constructor
  · -- two messages that both stand at the start of one buffer
    intro h
    exact List.pairwise_of_forall_mem_list fun m hm m' hm' ↦
      List.prefix_or_prefix_of_prefix (h m hm) (h m' hm')
  · intro h
    induction ms generalizing buf with
    | nil => simp
    | cons m ms ih =>
      obtain ⟨hm, hms⟩ := List.pairwise_cons.mp h
      -- the first message outlives the later ones, since they agree with it
      have hfirst : m <+: writeAll ms (write buf m) :=
        prefix_writeAll_of_agree (prefix_write buf m) hm
      exact List.forall_mem_cons.mpr ⟨hfirst, ih _ hms⟩

end Scratch
