import Mathlib.Data.Finset.Card
import Mathlib.Data.Nat.Notation
import Mathlib.Data.Set.Function

/-!
# Handles given out in turn

A table gives each new key the next handle of a sequence `f 0, f 1, f 2, …`, and remembers both the
handle of a key and the key that holds a handle. A handle that is given out again goes to the new
key. All the table can say follows from the list of the keys it has met, in the order in which it
met them: `Assigned` is the handle of a key, `Holds` the key of a handle. The two agree exactly as
long as the sequence has not repeated itself.
-/

namespace Handles

variable {K I : Type*} {f : ℕ → I} {ks : List K} {k x y : K} {i : I} {j : ℕ}

/-- The handle given to a key. -/
def Assigned (f : ℕ → I) (ks : List K) (x : K) (i : I) : Prop := ∃ j, ks[j]? = some x ∧ f j = i

/-- The key that holds a handle: the last one it was given to. -/
def Holds (f : ℕ → I) (ks : List K) (i : I) (x : K) : Prop :=
  ∃ j, ks[j]? = some x ∧ f j = i ∧ ∀ j', j < j' → j' < ks.length → f j' ≠ i

/-! ## One more key -/

theorem getElem?_concat : (ks ++ [k])[j]? = some x ↔
    ks[j]? = some x ∨ (j = ks.length ∧ x = k) := by
  rcases lt_trichotomy j ks.length with hlt | rfl | hgt
  · rw [List.getElem?_append_left hlt]
    simp [hlt.ne]
  · simp [eq_comm]
  · have hnone : (ks ++ [k])[j]? = none := by
      rw [List.getElem?_eq_none_iff, List.length_append, List.length_singleton]
      omega
    rw [hnone, List.getElem?_eq_none hgt.le]
    simp [hgt.ne']

theorem assigned_concat :
    Assigned f (ks ++ [k]) x i ↔ Assigned f ks x i ∨ (x = k ∧ f ks.length = i) := by
  simp only [Assigned, getElem?_concat]
  constructor
  · rintro ⟨j, hold | ⟨rfl, hx⟩, hi⟩
    · exact Or.inl ⟨j, hold, hi⟩
    · exact Or.inr ⟨hx, hi⟩
  · rintro (⟨j, hold, hi⟩ | ⟨hx, hi⟩)
    · exact ⟨j, Or.inl hold, hi⟩
    · exact ⟨ks.length, Or.inr ⟨rfl, hx⟩, hi⟩

/-- The new key takes its handle from whoever held it. -/
theorem holds_concat_self : Holds f (ks ++ [k]) (f ks.length) x ↔ x = k := by
  simp only [Holds, getElem?_concat, List.length_append, List.length_singleton]
  constructor
  · rintro ⟨j, hold | ⟨-, hx⟩, -, hlast⟩
    · have hj : j < ks.length := (List.getElem?_eq_some_iff.mp hold).1
      exact absurd rfl (hlast ks.length hj (Nat.lt_succ_self _))
    · exact hx
  · intro hx
    exact ⟨ks.length, Or.inr ⟨rfl, hx⟩, rfl, fun j' hj hj' ↦ absurd hj' (by omega)⟩

theorem holds_concat_of_ne (h : f ks.length ≠ i) :
    Holds f (ks ++ [k]) i x ↔ Holds f ks i x := by
  simp only [Holds, getElem?_concat, List.length_append, List.length_singleton]
  constructor
  · rintro ⟨j, hold | ⟨rfl, -⟩, hi, hlast⟩
    · exact ⟨j, hold, hi, fun j' hj hj' ↦ hlast j' hj (by omega)⟩
    · exact absurd hi h
  · rintro ⟨j, hold, hi, hlast⟩
    refine ⟨j, Or.inl hold, hi, fun j' hj hj' ↦ ?_⟩
    rcases Nat.lt_succ_iff_lt_or_eq.mp hj' with hj' | rfl
    · exact hlast j' hj hj'
    · exact h

/-! ## Repetition -/

/-- Two keys share a handle exactly if the sequence has repeated itself. -/
theorem assigned_injective_iff (hks : ks.Nodup) :
    (∀ x y i, Assigned f ks x i → Assigned f ks y i → x = y) ↔
      Set.InjOn f {j | j < ks.length} := by
  constructor
  · intro h j hj j' hj' heq
    have hsame := h _ _ (f j) ⟨j, List.getElem?_eq_getElem hj, rfl⟩
      ⟨j', List.getElem?_eq_getElem hj', heq.symm⟩
    exact (hks.getElem_inj_iff).mp hsame
  · rintro h x y i ⟨j, hx, hj⟩ ⟨j', hy, hj'⟩
    obtain ⟨hlt, -⟩ := List.getElem?_eq_some_iff.mp hx
    obtain ⟨hlt', -⟩ := List.getElem?_eq_some_iff.mp hy
    obtain rfl : j = j' := h hlt hlt' (hj.trans hj'.symm)
    exact Option.some.inj (hx.symm.trans hy)

/-- As long as it has not, every key holds the handle it was given. -/
theorem holds_of_assigned (hf : Set.InjOn f {j | j < ks.length}) (h : Assigned f ks x i) :
    Holds f ks i x := by
  obtain ⟨j, hx, rfl⟩ := h
  obtain ⟨hlt, -⟩ := List.getElem?_eq_some_iff.mp hx
  refine ⟨j, hx, rfl, fun j' hj hj' heq ↦ ?_⟩
  exact hj.ne (hf hlt hj' heq.symm)

/-! ## The keys met -/

variable [DecidableEq K]

/-- The keys of a list of requests, each where it first comes. -/
def meet (ks : List K) (k : K) : List K := if k ∈ ks then ks else ks ++ [k]

theorem nodup_meet (h : ks.Nodup) (k : K) : (meet ks k).Nodup := by
  rw [meet]
  split_ifs with hk
  · exact h
  · exact List.nodup_append.mpr ⟨h, List.nodup_singleton k, by
      intro a ha b hb
      rw [List.mem_singleton.mp hb]
      exact fun hab ↦ hk (hab ▸ ha)⟩

theorem toFinset_meet (ks : List K) (k : K) : (meet ks k).toFinset = insert k ks.toFinset := by
  rw [meet]
  split_ifs with hk
  · exact (Finset.insert_eq_of_mem (List.mem_toFinset.mpr hk)).symm
  · ext a
    simp

theorem length_foldl_meet (requests : List K) :
    (requests.foldl meet []).Nodup ∧
      (requests.foldl meet []).length = requests.toFinset.card := by
  have hall : ∀ ks : List K, ks.Nodup → (requests.foldl meet ks).Nodup ∧
      (requests.foldl meet ks).toFinset = ks.toFinset ∪ requests.toFinset := by
    induction requests with
    | nil =>
      intro ks hks
      exact ⟨hks, by simp⟩
    | cons k requests ih =>
      intro ks hks
      obtain ⟨hnodup, hset⟩ := ih (meet ks k) (nodup_meet hks k)
      refine ⟨hnodup, ?_⟩
      rw [List.foldl_cons, hset, toFinset_meet]
      ext a
      simp only [Finset.mem_union, Finset.mem_insert, List.mem_toFinset, List.mem_cons]
      tauto
  obtain ⟨hnodup, hset⟩ := hall [] List.nodup_nil
  refine ⟨hnodup, ?_⟩
  rw [← List.toFinset_card_of_nodup hnodup, hset, List.toFinset_nil, Finset.empty_union]

end Handles
