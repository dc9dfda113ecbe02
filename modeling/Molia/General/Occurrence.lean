import Mathlib.Data.List.Basic

/-!
# The first occurrence of a pattern

Where a pattern starts for the first time in a list. The search can be made on a first part of the
list: it finds the occurrence as soon as the part reaches its end, and nothing before
(`find_append`). So a reader that searches what it has received so far stops at the same place
however the list comes in.
-/

namespace Occurrence

variable {α : Type*} {pat l buf rest : List α} {i : ℕ}

/-! ## Occurrences -/

theorem length_le_of_prefix_drop (hpat : pat ≠ []) (h : pat <+: l.drop i) :
    i + pat.length ≤ l.length := by
  have hlen := h.length_le
  have hpos := List.length_pos_iff.mpr hpat
  rw [List.length_drop] at hlen
  omega

/-- An occurrence that ends within a first part of the list is one of that part. -/
theorem prefix_drop_append_iff (h : i + pat.length ≤ buf.length) :
    pat <+: (buf ++ rest).drop i ↔ pat <+: buf.drop i := by
  rw [List.drop_append_of_le_length (by omega)]
  constructor
  · intro hpre
    refine List.prefix_of_prefix_length_le hpre (List.prefix_append _ _) ?_
    rw [List.length_drop]
    omega
  · intro hpre
    exact hpre.trans (List.prefix_append _ _)

theorem first_iff_eq_zero (h : pat <+: l) :
    (pat <+: l.drop i ∧ ∀ j < i, ¬pat <+: l.drop j) ↔ i = 0 := by
  constructor
  · rintro ⟨-, hfirst⟩
    by_contra hi
    exact hfirst 0 (Nat.pos_of_ne_zero hi) h
  · rintro rfl
    exact ⟨h, fun j hj ↦ absurd hj (Nat.not_lt_zero j)⟩

/-! ## The search -/

variable [DecidableEq α]

/-- The first position at which the pattern starts. -/
def find (pat : List α) : List α → Option ℕ
  | [] => if pat = [] then some 0 else none
  | a :: l => if pat <+: a :: l then some 0 else (find pat l).map (· + 1)

theorem find_eq_some_iff :
    find pat l = some i ↔ pat <+: l.drop i ∧ ∀ j < i, ¬pat <+: l.drop j := by
  induction l generalizing i with
  | nil =>
    rw [find]
    split_ifs with hpat
    · rw [first_iff_eq_zero (List.prefix_nil.mpr hpat), Option.some_inj, eq_comm]
    · simp [hpat]
  | cons a l ih =>
    rw [find]
    split_ifs with hpat
    · rw [first_iff_eq_zero hpat, Option.some_inj, eq_comm]
    · cases i with
      | zero => simp [hpat]
      | succ i =>
        have hsucc : (find pat l).map (· + 1) = some (i + 1) ↔ find pat l = some i := by
          simp [Option.map_eq_some_iff]
        rw [hsucc, ih, List.drop_succ_cons]
        refine and_congr_right fun _ ↦ ⟨fun h j hj ↦ ?_, fun h j hj ↦ ?_⟩
        · cases j with
          | zero => exact hpat
          | succ j => exact h j (Nat.lt_of_succ_lt_succ hj)
        · exact h (j + 1) (Nat.succ_lt_succ hj)

/-- **Searching a first part.** The occurrence is found there if it ends there, and nothing is found
if it does not. -/
theorem find_append (hpat : pat ≠ []) (h : find pat (buf ++ rest) = some i) :
    find pat buf = if i + pat.length ≤ buf.length then some i else none := by
  obtain ⟨hat, hfirst⟩ := find_eq_some_iff.mp h
  split_ifs with hlen
  · refine find_eq_some_iff.mpr ⟨(prefix_drop_append_iff hlen).mp hat, fun j hj hpre ↦ ?_⟩
    exact hfirst j hj ((prefix_drop_append_iff (by omega)).mpr hpre)
  · rw [Option.eq_none_iff_forall_ne_some]
    intro j hj
    obtain ⟨hat', -⟩ := find_eq_some_iff.mp hj
    have hend := length_le_of_prefix_drop hpat hat'
    -- an occurrence in the part is one of the list, and no later than the first
    have hle : i ≤ j := by
      by_contra hlt
      exact hfirst j (Nat.not_le.mp hlt) ((prefix_drop_append_iff hend).mpr hat')
    omega

end Occurrence
