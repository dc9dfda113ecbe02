import Molia.Core.Crypto
import Molia.General.ErasureCode
import Molia.Store.Erasure

/-!
# Values that lost shards

A value is cut into ten shards of one length, rounded up, and the rest of the last shards is filled
with zeros; for many lengths one shard is filled in part and others as a whole. Put together again,
the shards are the value and zeros behind it (`flatten_dataShards`), so a value is found in any ten
of its fourteen shards, given a coder that keeps the law.
-/

namespace Molia.Erasure

open ErasureCode

/-! ## Cutting and joining -/

theorem length_dataShard (data : Bytes) (i : ℕ) : (dataShard data i).length = shardLen data := by
  have hle : ((data.drop (i * shardLen data)).take (shardLen data)).length ≤ shardLen data :=
    List.length_take_le _ _
  rw [dataShard, List.length_append, List.length_replicate]
  omega

/-- The first `n` shards are the start of the value, and zeros where it has ended. -/
theorem flatten_dataShards (data : Bytes) (n : ℕ) :
    ((List.range n).map (dataShard data)).flatten
      = data.take (n * shardLen data) ++ List.replicate (n * shardLen data - data.length) 0 := by
  induction n with
  | zero => simp
  | succ n ih =>
    rw [List.range_succ, List.map_append, List.flatten_append, ih, List.map_singleton,
      List.flatten_singleton, dataShard, Nat.succ_mul, List.take_add]
    rcases Nat.le_total (n * shardLen data) data.length with hle | hge
    · -- the value has not ended before this shard
      have hnone : n * shardLen data - data.length = 0 := Nat.sub_eq_zero_of_le hle
      rw [hnone, List.replicate_zero, List.append_nil, List.append_assoc, List.length_take,
        List.length_drop]
      congr 3
      omega
    · -- the whole shard is filled
      have hdrop : data.drop (n * shardLen data) = [] := List.drop_eq_nil_of_le hge
      rw [hdrop, List.take_nil, List.nil_append, List.append_nil, List.length_nil,
        List.append_assoc, List.replicate_append_replicate]
      congr 2
      omega

theorem length_le_dataShards (data : Bytes) : data.length ≤ dataShards * shardLen data := by
  have hten : dataShards = 10 := rfl
  rw [shardLen, hten]
  omega

theorem shardLen_pos {data : Bytes} (h : data ≠ []) : 0 < shardLen data := by
  have hten : dataShards = 10 := rfl
  have hpos := List.length_pos_iff.mpr h
  rw [shardLen, hten]
  omega

theorem take_flatten_dataShards (data : Bytes) :
    ((List.range dataShards).map (dataShard data)).flatten.take data.length = data := by
  rw [flatten_dataShards, List.take_of_length_le (length_le_dataShards data), List.take_left]

/-- What the coder is given. -/
def blank (data : Bytes) : List Bytes :=
  (List.range dataShards).map (dataShard data)
    ++ List.replicate parityShards (List.replicate (shardLen data) 0)

theorem uniform_blank (data : Bytes) :
    Uniform (dataShards + parityShards) (shardLen data) (blank data) where
  length_eq := by
    rw [blank, List.length_append, List.length_map, List.length_range, List.length_replicate]
  width s hs := by
    rcases List.mem_append.mp hs with hs | hs
    · obtain ⟨i, -, rfl⟩ := List.mem_map.mp hs
      exact length_dataShard data i
    · rw [List.eq_of_mem_replicate hs, List.length_replicate]

theorem take_blank (data : Bytes) :
    (blank data).take dataShards = (List.range dataShards).map (dataShard data) := by
  have hlen : ((List.range dataShards).map (dataShard data)).length = dataShards := by
    rw [List.length_map, List.length_range]
  exact List.take_left' hlen

theorem foldl_join (shards : List Bytes) (out : Bytes) :
    (shards.map some).foldl (fun out s ↦ out ++ s.getD []) out = out ++ shards.flatten := by
  induction shards generalizing out with
  | nil => rw [List.map_nil, List.foldl_nil, List.flatten_nil, List.append_nil]
  | cons s shards ih =>
    rw [List.map_cons, List.foldl_cons, ih, Option.getD_some, List.flatten_cons, List.append_assoc]

/-! ## Losing shards -/

section

variable [Crates]

open Crates

variable (rsReconstruct : ℕ → ℕ → List (Option Bytes) → Option (List (Option Bytes)))

/-- **Nothing is lost.** Over a coder that keeps the law, a value that is not empty is coded into
fourteen shards of one length, and whichever four or fewer of them are lost, the value is found in
the others. -/
theorem reconstruct_encode (hlaw : Lawful dataShards parityShards
      (rsEncode dataShards parityShards) (rsReconstruct dataShards parityShards))
    {data : Bytes} (hdata : data ≠ []) :
    ∃ shards, encode data = some shards ∧ shards.length = 14 ∧
      (∃ len, ∀ s ∈ shards, s.length = len) ∧
      ∀ lost : Finset ℕ, lost.card ≤ 4 →
        reconstruct rsReconstruct (erase lost shards) data.length = some data := by
  obtain ⟨shards, hencode, huniform, htake, hrestore⟩ :=
    hlaw (blank data) (shardLen data) (shardLen_pos hdata) (uniform_blank data)
  refine ⟨shards, hencode, huniform.length_eq, ⟨_, huniform.width⟩, fun lost hlost ↦ ?_⟩
  rw [reconstruct, hrestore lost hlost]
  dsimp only
  rw [← List.map_take, foldl_join, List.nil_append, htake, take_blank, take_flatten_dataShards]

end

/-- A coder over the field with 256 elements. -/
@[reducible] private noncomputable def fieldCrates : Crates :=
  { Sample.crates with
    rsEncode := fun d p shards ↦ some (encodeShards bytePoint d byteField (d + p) shards) }

attribute [local instance] fieldCrates

/-- Three bytes are found again after the first shard and three others are lost. -/
theorem reconstruct_encode_three :
    ∃ shards, encode [7, 8, 9] = some shards ∧
      reconstruct (restoreShards bytePoint · byteField ·) (erase {0, 3, 11, 12} shards) 3
        = some [7, 8, 9] := by
  have hlaw : Lawful dataShards parityShards (Crates.rsEncode dataShards parityShards)
      (restoreShards bytePoint dataShards byteField parityShards) :=
    lawful_reedSolomon (by decide) (injOn_bytePoint (by decide))
  obtain ⟨shards, hencode, -, -, hrestore⟩ :=
    reconstruct_encode (restoreShards bytePoint · byteField ·) hlaw (List.cons_ne_nil 7 [8, 9])
  exact ⟨shards, hencode, hrestore {0, 3, 11, 12} (by decide)⟩

end Molia.Erasure
