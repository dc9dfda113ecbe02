import Mathlib.Data.Nat.Bitwise
import Molia.General.BigEndian
import Molia.Net.LookupRun

/-!
# Distance

The distance of an id to a target is a number, the exclusive or of the two read as 256-bit integers.
The table and the lookups compare arrays of bytes, and ties by round trip time; the numbers decide,
since two ids at one distance are the same id (`distance_inj`).

`closest` flattens the buckets, sorts by that order, and cuts twice. What it returns are the nearest
entries of the table, as many as are asked for and no more than 32.
-/

namespace Molia

open BigEndian

/-- The array as a 256-bit integer. -/
def Bytes32.toNat (a : Bytes32) : ℕ := beValue a.val

theorem Bytes32.toNat_lt_iff {a b : Bytes32} : a.toNat < b.toNat ↔ a.val < b.val :=
  beValue_lt_iff (a.length_val.trans b.length_val.symm)

theorem Bytes32.toNat_inj {a b : Bytes32} : a.toNat = b.toNat ↔ a = b := by
  rw [toNat, toNat, beValue_inj (a.length_val.trans b.length_val.symm)]
  obtain ⟨a, ha⟩ := a
  obtain ⟨b, hb⟩ := b
  rw [Bytes32.mk.injEq]

theorem toNat_xorDistance (a b : Bytes32) : (xorDistance a b).toNat = a.toNat ^^^ b.toNat :=
  beValue_zipWith_xor (a.length_val.trans b.length_val.symm)

/-- The distance of an id to a target. -/
def distance (id : NodeId) (target : Key) : ℕ := id.val.toNat ^^^ target.val.toNat

theorem distance_inj {x y : NodeId} {target : Key} :
    distance x target = distance y target ↔ x = y := by
  rw [distance, distance, Nat.xor_left_inj, Bytes32.toNat_inj]
  obtain ⟨x⟩ := x
  obtain ⟨y⟩ := y
  rw [NodeId.mk.injEq]

theorem closerTo_iff {target : Key} {a b : PeerInfo} :
    closerTo target a b ↔ distance a.id target < distance b.id target ∨
      (distance a.id target = distance b.id target ∧ a.rttMs ≤ b.rttMs) := by
  have hlt := Bytes32.toNat_lt_iff (a := xorDistance a.id.val target.val)
    (b := xorDistance b.id.val target.val)
  have heq : distance a.id target = distance b.id target ↔
      (xorDistance a.id.val target.val).val = (xorDistance b.id.val target.val).val := by
    rw [distance, distance, ← toNat_xorDistance, ← toNat_xorDistance]
    exact beValue_inj ((Bytes32.length_val _).trans (Bytes32.length_val _).symm)
  rw [toNat_xorDistance, toNat_xorDistance] at hlt
  rw [heq, distance, distance, hlt]
  exact Iff.rfl

theorem distance_le_of_closerTo {target : Key} {a b : PeerInfo} (h : closerTo target a b) :
    distance a.id target ≤ distance b.id target := by
  rcases closerTo_iff.mp h with hlt | ⟨heq, -⟩
  · exact hlt.le
  · exact heq.le

namespace RoutingTable

variable (t : RoutingTable) (target : Key)

/-- The number of entries of the table. -/
def len : ℕ := ((List.range 256).map fun i ↦ (t.buckets i).length).sum

theorem length_allPeers : t.allPeers.length = t.len := by
  rw [allPeers, List.length_flatMap]
  rfl

/-- The entries from the nearest to the farthest. -/
def byDistance : List PeerInfo := (t.allPeers.map PeerEntry.info).insertionSort (closerTo target)

theorem pairwise_byDistance :
    (t.byDistance target).Pairwise fun a b ↦ distance a.id target ≤ distance b.id target :=
  (List.pairwise_insertionSort (closerTo target) _).imp distance_le_of_closerTo

theorem length_byDistance : (t.byDistance target).length = t.len := by
  rw [byDistance, List.length_insertionSort, List.length_map, length_allPeers]

/-- **The nearest entries.** As many entries of the table as are asked for, at most 32, in the order
of their distance to the target; those left out are no nearer than any of them. Asking for fewer
gives a first part of the same list. -/
theorem closest_exact (n : ℕ) :
    (t.closest target n).length = min n (min 32 t.len) ∧
      ((t.closest target n).Pairwise fun a b ↦ distance a.id target ≤ distance b.id target) ∧
      (∃ rest, (t.closest target n ++ rest).Perm (t.allPeers.map PeerEntry.info) ∧
        ∀ a ∈ t.closest target n, ∀ b ∈ rest, distance a.id target ≤ distance b.id target) ∧
      ∀ m ≤ n, t.closest target m <+: t.closest target n := by
  have hclosest (n : ℕ) : t.closest target n = (t.byDistance target).take (min n 32) := rfl
  have hsorted := t.pairwise_byDistance target
  rw [hclosest]
  refine ⟨?_, hsorted.sublist (List.take_sublist _ _),
    ⟨(t.byDistance target).drop (min n 32), ?_, ?_⟩, ?_⟩
  · rw [List.length_take, length_byDistance, min_assoc]
  · rw [List.take_append_drop]
    exact List.perm_insertionSort _ _
  · rw [← List.take_append_drop (min n 32) (t.byDistance target), List.pairwise_append] at hsorted
    exact hsorted.2.2
  · intro m hm
    rw [hclosest]
    exact List.take_prefix_take_left (min_le_min_right 32 hm)

/-- Two of three peers are asked for. -/
theorem closest_exact_two :
    let t := ((((new NodeId.zero).insert 0 (Lookup.seedPeer 3)).2.insert 0
      (Lookup.seedPeer 1)).2.insert 0 (Lookup.seedPeer 2)).2
    (t.closest ⟨.fill 0⟩ 2).length = 2 ∧ t.closest ⟨.fill 0⟩ 1 <+: t.closest ⟨.fill 0⟩ 2 := by
  intro t
  obtain ⟨hlen, -, -, hfewer⟩ := closest_exact t ⟨.fill 0⟩ 2
  exact ⟨hlen.trans (by decide +kernel), hfewer 1 (by decide)⟩

end RoutingTable

end Molia
