import Mathlib.Data.List.AList
import Mathlib.Data.List.Flatten
import Mathlib.Data.List.Perm.Subperm

/-!
# Hash maps

A hash map is an association list without repeated keys. The list order stands for the iteration
order of the table, which the standard library leaves unspecified: nothing may depend on it. A
`Reorder` permutes lists of any type, and a map may be reordered without changing any lookup.

Lookup, insertion and removal are those of `AList`; this file adds the two bulk operations that
`AList` lacks, keeping the entries that satisfy a predicate and rewriting values in place, and
counts the values that satisfy a predicate. Such a count depends on the lookups only. Lists that the
values hold can be gathered into one, which the iteration order only permutes.
-/

/-- A finite map with its iteration order. -/
abbrev HashMap (K : Type*) (V : Type*) := AList fun _ : K ↦ V

namespace HashMap

variable {K V : Type*}

/-- Keep the entries that satisfy `p`. -/
def retain (p : K → V → Bool) (m : HashMap K V) : HashMap K V where
  entries := m.entries.filter fun e ↦ p e.1 e.2
  nodupKeys := m.nodupKeys.sublist List.filter_sublist

/-- Rewrite every value in place. -/
def mapValues (f : K → V → V) (m : HashMap K V) : HashMap K V where
  entries := m.entries.map fun e ↦ ⟨e.1, f e.1 e.2⟩
  nodupKeys := by
    have hkeys : (m.entries.map fun e : (_ : K) × V ↦ (⟨e.1, f e.1 e.2⟩ : (_ : K) × V)).keys
        = m.entries.keys := by
      simp [List.keys]
    rw [List.NodupKeys, hkeys]
    exact m.nodupKeys

/-- A way to permute a list, whatever it holds. -/
structure Reorder where
  perm : {α : Type} → List α → List α
  perm_perm : ∀ {α : Type} (l : List α), (perm l).Perm l

/-- The same map with another iteration order. -/
def reorder {K V : Type} (r : Reorder) (m : HashMap K V) : HashMap K V where
  entries := r.perm m.entries
  nodupKeys := (List.perm_nodupKeys (r.perm_perm m.entries)).mpr m.nodupKeys

/-- The values, in iteration order. -/
def values (m : HashMap K V) : List V := m.entries.map Sigma.snd

variable [DecidableEq K]

/-- Rewrite the value of one key in place, if the key is there. -/
def modify (k : K) (f : V → V) (m : HashMap K V) : HashMap K V :=
  m.mapValues fun k' v ↦ if k' = k then f v else v

theorem eq_empty_iff {m : HashMap K V} : m = ∅ ↔ ∀ k, m.lookup k = none := by
  constructor
  · rintro rfl k
    exact AList.lookup_empty k
  · intro h
    refine AList.ext (List.eq_nil_iff_forall_not_mem.mpr fun e he ↦ ?_)
    exact AList.lookup_eq_none.mp (h e.1) (AList.mem_keys.mpr (List.mem_map_of_mem he))

theorem mem_values_iff {m : HashMap K V} {v : V} : v ∈ m.values ↔ ∃ k, m.lookup k = some v := by
  rw [values, List.mem_map]
  constructor
  · rintro ⟨e, he, rfl⟩
    exact ⟨e.1, AList.mem_lookup_iff.mpr he⟩
  · rintro ⟨k, hk⟩
    exact ⟨⟨k, v⟩, AList.mem_lookup_iff.mp hk, rfl⟩

theorem mem_keys_of_lookup {m : HashMap K V} {k : K} {v : V} (h : m.lookup k = some v) :
    k ∈ m.keys := by
  refine AList.mem_keys.mp (AList.lookup_isSome.mp ?_)
  rw [h]
  rfl

theorem lookup_insert_of (m : HashMap K V) (k k' : K) (v : V) :
    (m.insert k' v).lookup k = if k = k' then some v else m.lookup k := by
  by_cases h : k = k'
  · subst h
    rw [if_pos rfl, AList.lookup_insert]
  · rw [if_neg h, AList.lookup_insert_ne h]

theorem lookup_erase_of (m : HashMap K V) (k k' : K) :
    (m.erase k').lookup k = if k = k' then none else m.lookup k := by
  by_cases h : k = k'
  · subst h
    rw [if_pos rfl, AList.lookup_erase]
  · rw [if_neg h, AList.lookup_erase_ne h]

theorem mem_lookup_retain {p : K → V → Bool} {m : HashMap K V} {k : K} {v : V} :
    (m.retain p).lookup k = some v ↔ m.lookup k = some v ∧ p k v = true := by
  rw [← Option.mem_def, AList.mem_lookup_iff, ← Option.mem_def, AList.mem_lookup_iff]
  simp [retain]

theorem lookup_retain (p : K → V → Bool) (m : HashMap K V) (k : K) :
    (m.retain p).lookup k = (m.lookup k).filter (p k) := by
  ext v
  rw [mem_lookup_retain, Option.filter_eq_some_iff]

theorem lookup_mapValues (f : K → V → V) (m : HashMap K V) (k : K) :
    (m.mapValues f).lookup k = (m.lookup k).map (f k) := by
  ext v
  rw [← Option.mem_def, AList.mem_lookup_iff, Option.map_eq_some_iff]
  simp only [mapValues, List.mem_map, ← Option.mem_def, AList.mem_lookup_iff]
  constructor
  · rintro ⟨⟨k', w⟩, hmem, heq⟩
    obtain ⟨rfl, rfl⟩ : k' = k ∧ f k' w = v := by simpa using heq
    exact ⟨w, hmem, rfl⟩
  · rintro ⟨w, hmem, rfl⟩
    exact ⟨⟨k, w⟩, hmem, rfl⟩

theorem lookup_modify (k k' : K) (f : V → V) (m : HashMap K V) :
    (m.modify k' f).lookup k = (m.lookup k).map fun v ↦ if k = k' then f v else v :=
  lookup_mapValues _ _ _

@[simp] theorem lookup_reorder {K V : Type} [DecidableEq K] (r : Reorder) (m : HashMap K V)
    (k : K) : (m.reorder r).lookup k = m.lookup k :=
  AList.perm_lookup (r.perm_perm m.entries)

/-! ## Counting -/

/-- How many values satisfy `p`. -/
def countValues (p : V → Bool) (m : HashMap K V) : ℕ := m.entries.countP fun e ↦ p e.2

variable {p : V → Bool} {m m' : HashMap K V} {k : K} {v : V}

theorem countValues_congr (h : ∀ k, m'.lookup k = m.lookup k) :
    countValues p m' = countValues p m := by
  refine List.Perm.countP_eq _ (List.lookup_ext m'.nodupKeys m.nodupKeys fun k v ↦ ?_)
  exact iff_of_eq (congrArg (v ∈ ·) (h k))

theorem countValues_insert (h : m.lookup k = none) (v : V) :
    countValues p (m.insert k v) = countValues p m + if p v then 1 else 0 := by
  rw [countValues, AList.entries_insert_of_notMem (AList.lookup_eq_none.mp h), List.countP_cons]
  rfl

theorem countValues_erase (h : m.lookup k = some v) :
    countValues p m = countValues p (m.erase k) + if p v then 1 else 0 := by
  rw [← countValues_insert (AList.lookup_erase k m)]
  refine (countValues_congr fun k' ↦ ?_).symm
  rw [lookup_insert_of, lookup_erase_of]
  split_ifs with hk
  · rw [hk, h]
  · rfl

theorem countValues_insert_le (m : HashMap K V) (k : K) (v : V) :
    countValues p (m.insert k v) ≤ countValues p m + if p v then 1 else 0 := by
  rcases h : m.lookup k with _ | w
  · exact Nat.le_of_eq (countValues_insert h v)
  · have hfresh : countValues p (m.insert k v) = countValues p ((m.erase k).insert k v) := by
      refine countValues_congr fun k' ↦ ?_
      rw [lookup_insert_of, lookup_insert_of, lookup_erase_of]
      split_ifs
      · rfl
      · rfl
    rw [hfresh, countValues_insert (AList.lookup_erase k m), countValues_erase h]
    omega

omit [DecidableEq K] in
theorem countValues_mapValues {f : K → V → V} (hf : ∀ k v, p (f k v) = p v) :
    countValues p (m.mapValues f) = countValues p m := by
  rw [countValues, mapValues, List.countP_map, countValues]
  exact List.countP_congr fun e _ ↦ by rw [Function.comp, hf]

theorem countValues_reorder {K V : Type} [DecidableEq K] {p : V → Bool} (r : Reorder)
    (m : HashMap K V) : countValues p (m.reorder r) = countValues p m :=
  countValues_congr fun k ↦ lookup_reorder r m k

theorem countValues_pos_iff : 0 < countValues p m ↔ ∃ k v, m.lookup k = some v ∧ p v = true := by
  rw [countValues, List.countP_pos_iff]
  constructor
  · rintro ⟨⟨k, v⟩, hmem, hp⟩
    exact ⟨k, v, AList.mem_lookup_iff.mpr hmem, hp⟩
  · rintro ⟨k, v, hv, hp⟩
    exact ⟨⟨k, v⟩, AList.mem_lookup_iff.mp hv, hp⟩

theorem eq_of_countValues_le_one (h : countValues p m ≤ 1) {k' : K} {v' : V}
    (hv : m.lookup k = some v) (hp : p v = true) (hv' : m.lookup k' = some v')
    (hp' : p v' = true) : k' = k := by
  by_contra hne
  have herased : (m.erase k).lookup k' = some v' := by
    rw [lookup_erase_of, if_neg hne, hv']
  have hpos := countValues_pos_iff.mpr ⟨k', v', herased, hp'⟩
  rw [countValues_erase hv, if_pos hp] at h
  omega

/-! ## Gathering -/

section

variable {A : Type*} {f : V → List A}

/-- The lists that the values hold, one behind the other in iteration order. -/
def gather (f : V → List A) (m : HashMap K V) : List A := m.values.flatMap f

theorem gather_insert (m : HashMap K V) (k : K) (v : V) :
    gather f (m.insert k v) = f v ++ gather f (m.erase k) := rfl

theorem gather_perm (h : m.lookup k = some v) :
    (gather f m).Perm (f v ++ gather f (m.erase k)) := by
  have hsame : ∀ k', ((m.erase k).insert k v).lookup k' = m.lookup k' := by
    intro k'
    rw [lookup_insert_of, lookup_erase_of]
    split_ifs with hk
    · rw [hk, h]
    · rfl
  have hnotMem : k ∉ m.erase k := AList.lookup_eq_none.mp (AList.lookup_erase k m)
  have hentries : m.entries.Perm (⟨k, v⟩ :: (m.erase k).entries) := by
    rw [← AList.entries_insert_of_notMem hnotMem]
    exact List.lookup_ext m.nodupKeys (AList.nodupKeys _) fun k' v' ↦
      iff_of_eq (congrArg (v' ∈ ·) (hsame k').symm)
  exact (hentries.map Sigma.snd).flatMap_right f

theorem gather_erase_sublist (m : HashMap K V) (k : K) :
    (gather f (m.erase k)).Sublist (gather f m) := by
  have hvalues : (values (m.erase k)).Sublist m.values := (List.kerase_sublist k m.entries).map _
  exact hvalues.flatMap f

omit [DecidableEq K] in
theorem gather_mapValues_subperm {g : K → V → V} (hg : ∀ k v, (f (g k v)).Subperm (f v)) :
    (gather f (m.mapValues g)).Subperm (gather f m) := by
  have hlist : ∀ l : List ((_ : K) × V),
      (((l.map fun e ↦ (⟨e.1, g e.1 e.2⟩ : (_ : K) × V)).map Sigma.snd).flatMap f).Subperm
        ((l.map Sigma.snd).flatMap f) := by
    intro l
    induction l with
    | nil => exact List.Subperm.refl _
    | cons e l ih => exact (hg e.1 e.2).append ih
  exact hlist m.entries

theorem gather_modify_subperm {g : V → V} (hg : ∀ v, (f (g v)).Subperm (f v)) :
    (gather f (m.modify k g)).Subperm (gather f m) := by
  refine gather_mapValues_subperm fun k' v ↦ ?_
  split_ifs
  · exact hg v
  · exact List.Subperm.refl _

theorem gather_reorder {K V A : Type} {f : V → List A} (r : Reorder) (m : HashMap K V) :
    (gather f (m.reorder r)).Perm (gather f m) := by
  have hvalues : (m.reorder r).values.Perm m.values := (r.perm_perm m.entries).map _
  exact hvalues.flatMap_right f

theorem eq_of_nodup_gather (h : (gather f m).Nodup) {k' : K} {v' : V} {x : A}
    (hv : m.lookup k = some v) (hx : x ∈ f v) (hv' : m.lookup k' = some v') (hx' : x ∈ f v') :
    k' = k := by
  by_contra hne
  have hnodup := (gather_perm hv).nodup_iff.mp h
  have herased : (m.erase k).lookup k' = some v' := by
    rw [lookup_erase_of, if_neg hne, hv']
  have hother : x ∈ gather f (m.erase k) :=
    List.mem_flatMap.mpr ⟨v', mem_values_iff.mpr ⟨k', herased⟩, hx'⟩
  exact List.disjoint_of_nodup_append hnodup hx hother

end

end HashMap
