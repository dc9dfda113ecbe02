import Mathlib.Data.List.Perm.Basic
import Molia.General.Protobuf

/-!
# Disjoint substrings

What a reader takes out of its input stands in it, and no byte is taken twice. Said of lists: they
stand in another one, one behind the other, in some order. Then their lengths together are at most
its length, which is what bounds a reader that is applied again to what it has read.

The fields of a Protobuf message stand in its bytes in the order in which they are read. A scalar
field that occurs several times has the content of its last occurrence, and one that does not occur
is empty, so the values of different scalar fields are disjoint as well, in whatever order their
numbers come.
-/

namespace Substrings

variable {α : Type*} {x l : List α} {xs ys : List (List α)}

/-- The lists stand in `l` one behind the other, with anything before, between and behind them. -/
def InOrder : List (List α) → List α → Prop
  | [], _ => True
  | x :: xs, l => ∃ before behind, l = before ++ x ++ behind ∧ InOrder xs behind

/-- The lists stand in `l`, and no two of them overlap. -/
def Apart (xs : List (List α)) (l : List α) : Prop :=
  ∃ ys : List (List α), ys.Perm xs ∧ InOrder ys l

theorem InOrder.append_left (h : InOrder xs l) (a : List α) : InOrder xs (a ++ l) := by
  cases xs with
  | nil => trivial
  | cons x xs =>
    obtain ⟨before, behind, rfl, hrest⟩ := h
    exact ⟨a ++ before, behind, by simp only [List.append_assoc], hrest⟩

theorem Apart.append_left (h : Apart xs l) (a : List α) : Apart xs (a ++ l) := by
  obtain ⟨ys, hperm, hys⟩ := h
  exact ⟨ys, hperm, hys.append_left a⟩

theorem Apart.cons (h : Apart xs l) (before x : List α) : Apart (x :: xs) (before ++ x ++ l) := by
  obtain ⟨ys, hperm, hys⟩ := h
  exact ⟨x :: ys, hperm.cons x, before, l, rfl, hys⟩

theorem Apart.perm (h : Apart xs l) (hperm : xs.Perm ys) : Apart ys l := by
  obtain ⟨zs, hzs, hl⟩ := h
  exact ⟨zs, hzs.trans hperm, hl⟩

theorem apart_replicate_nil (n : ℕ) (l : List α) : Apart (List.replicate n []) l := by
  induction n with
  | zero => exact ⟨[], .refl _, trivial⟩
  | succ n ih =>
    rw [List.replicate_succ]
    exact ih.cons [] []

theorem InOrder.sum_length_le (h : InOrder xs l) : (xs.map List.length).sum ≤ l.length := by
  induction xs generalizing l with
  | nil => exact Nat.zero_le _
  | cons x xs ih =>
    obtain ⟨before, behind, rfl, hrest⟩ := h
    have hbehind := ih hrest
    rw [List.map_cons, List.sum_cons, List.length_append, List.length_append]
    omega

/-- **Room.** Disjoint substrings are no longer than the whole. -/
theorem Apart.sum_length_le (h : Apart xs l) : (xs.map List.length).sum ≤ l.length := by
  obtain ⟨ys, hperm, hys⟩ := h
  rw [← (hperm.map List.length).sum_nat]
  exact hys.sum_length_le

end Substrings

namespace Protobuf

open Substrings

variable {b rest : List UInt8} {f : Field} {fs : List Field}

/-- What stands in the input of a field: nothing of a number. -/
def Field.content (f : Field) : List UInt8 :=
  match f.value with
  | .bytes b => b
  | .varint _ => []

theorem exists_append_of_readVarint {n : ℕ} (h : readVarint b = some (n, rest)) :
    ∃ a, b = a ++ rest := by
  induction b generalizing n with
  | nil => cases h
  | cons x bs ih =>
    rw [readVarint] at h
    split_ifs at h
    · cases h
      exact ⟨[x], rfl⟩
    · obtain ⟨⟨m, rest'⟩, hread, hr⟩ := Option.map_eq_some_iff.mp h
      cases hr
      obtain ⟨a, rfl⟩ := ih hread
      exact ⟨x :: a, rfl⟩

theorem exists_append_of_read (h : Field.read b = some (f, rest)) :
    ∃ a, b = a ++ f.content ++ rest := by
  rw [Field.read] at h
  rcases hkey : readVarint b with _ | ⟨key, rest₁⟩
  · rw [hkey] at h
    cases h
  obtain ⟨a, rfl⟩ := exists_append_of_readVarint hkey
  rw [hkey] at h
  dsimp only at h
  split_ifs at h
  · -- a number
    obtain ⟨⟨m, rest₂⟩, hread, hr⟩ := Option.map_eq_some_iff.mp h
    cases hr
    obtain ⟨a', rfl⟩ := exists_append_of_readVarint hread
    exact ⟨a ++ a', by simp [Field.content]⟩
  · -- a string of bytes, with its length in front
    rcases hlen : readVarint rest₁ with _ | ⟨len, rest₂⟩
    · rw [hlen] at h
      cases h
    obtain ⟨a', rfl⟩ := exists_append_of_readVarint hlen
    rw [hlen] at h
    dsimp only at h
    split_ifs at h
    cases h
    exact ⟨a ++ a', by simp [Field.content, List.take_append_drop]⟩

theorem inOrder_of_parseFuel {fuel : ℕ} (h : parseFuel fuel b = some fs) :
    InOrder (fs.map Field.content) b := by
  induction fuel generalizing b fs with
  | zero =>
    cases b with
    | nil =>
      cases h
      trivial
    | cons x bs => cases h
  | succ fuel ih =>
    cases b with
    | nil =>
      cases h
      trivial
    | cons x bs =>
      rw [parseFuel] at h
      rcases hread : Field.read (x :: bs) with _ | ⟨f, rest⟩
      · rw [hread] at h
        cases h
      · rw [hread] at h
        obtain ⟨fs', hparse, rfl⟩ := Option.map_eq_some_iff.mp h
        obtain ⟨a, ha⟩ := exists_append_of_read hread
        exact ⟨a, rest, ha, ih hparse⟩

/-- **The fields of a message stand in its bytes in order.** -/
theorem inOrder_of_parse (h : parse b = some fs) : InOrder (fs.map Field.content) b :=
  inOrder_of_parseFuel h

/-! ## Scalar fields -/

theorem bytesAt_cons (num : ℕ) (f : Field) (fs : List Field) :
    bytesAt num (f :: fs) = bytesAt num [f] ++ bytesAt num fs := by
  rw [← bytesAt_append, List.singleton_append]

/-- A field in front changes a scalar only if it has its number, and no later one has. -/
theorem getBytes_cons {num : ℕ} (h : bytesAt num [f] = [] ∨ bytesAt num fs ≠ []) :
    getBytes num (f :: fs) = getBytes num fs := by
  rw [getBytes, bytesAt_cons]
  rcases h with hnone | hlater
  · rw [hnone, List.nil_append, getBytes]
  · rw [List.getLast?_append_of_ne_nil _ hlater, getBytes]

theorem getBytes_cons_self {num : ℕ} (hf : bytesAt num [f] = [f.content])
    (h : bytesAt num fs = []) : getBytes num (f :: fs) = f.content := by
  rw [getBytes, bytesAt_cons, hf, h]
  rfl

theorem bytesAt_singleton (num : ℕ) (f : Field) :
    bytesAt num [f] = [] ∨ f.num = num ∧ bytesAt num [f] = [f.content] := by
  obtain ⟨num', value⟩ := f
  cases value with
  | varint n => exact .inl rfl
  | bytes v =>
    by_cases hnum : num' = num
    · refine .inr ⟨hnum, ?_⟩
      simp [bytesAt, Field.content, hnum]
    · refine .inl ?_
      simp [bytesAt, hnum]

/-- **The values of different scalar fields are disjoint substrings of the message.** -/
theorem apart_getBytes {nums : List ℕ} (hnums : nums.Nodup) (h : InOrder (fs.map Field.content) b) :
    Apart (nums.map fun num ↦ getBytes num fs) b := by
  induction fs generalizing nums b with
  | nil =>
    have hempty : (nums.map fun num ↦ getBytes num []) = List.replicate nums.length [] :=
      List.map_const' ..
    rw [hempty]
    exact apart_replicate_nil _ b
  | cons f fs ih =>
    obtain ⟨before, behind, rfl, hrest⟩ := h
    by_cases hlast : f.num ∈ nums ∧ bytesAt f.num [f] = [f.content] ∧ bytesAt f.num fs = []
    · -- the first field is the only one with its number, and the others are found behind it
      obtain ⟨hmem, hf, hfs⟩ := hlast
      have hothers : ((nums.erase f.num).map fun num ↦ getBytes num (f :: fs))
          = (nums.erase f.num).map fun num ↦ getBytes num fs := by
        refine List.map_congr_left fun num hnum ↦ getBytes_cons (.inl ?_)
        have hne : num ≠ f.num := (hnums.mem_erase_iff.mp hnum).1
        exact (bytesAt_singleton num f).resolve_right fun hsame ↦ hne hsame.1.symm
      have hperm := ((List.perm_cons_erase hmem).map fun num ↦ getBytes num (f :: fs)).symm
      rw [List.map_cons, hothers, getBytes_cons_self hf hfs] at hperm
      exact ((ih (hnums.erase f.num) hrest).cons before f.content).perm hperm
    · -- the first field is not what any of the scalars is taken from
      have hsame : (nums.map fun num ↦ getBytes num (f :: fs))
          = nums.map fun num ↦ getBytes num fs := by
        refine List.map_congr_left fun num hnum ↦ getBytes_cons ?_
        rcases bytesAt_singleton num f with hnone | ⟨rfl, hf⟩
        · exact .inl hnone
        · exact .inr fun hfs ↦ hlast ⟨hnum, hf, hfs⟩
      rw [hsame, List.append_assoc]
      exact ((ih hnums hrest).append_left _).append_left _

end Protobuf
