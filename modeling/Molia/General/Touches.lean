import Mathlib.Data.List.Induction
import Mathlib.Data.List.Nodup
import Mathlib.Data.List.Pairwise

/-!
# Lists in the order of use

The entries of a list are kept in the order in which they were last used. A use names a key: the
entry of the key is updated and moves to the end of the list, and a key without an entry is passed
over.

After some uses the entries that were not used stand first, in their old order, and the others
follow in the order of their latest uses (`foldl_touch`). So a list is the same after them as
before exactly if it ended with those entries in that order, and none of the updates changes its
entry (`foldl_touch_eq_self_iff`).
-/

namespace Touches

variable {α β κ : Type*} [DecidableEq κ] (key : α → κ) (name : β → κ) (update : β → α → α)

/-- The entry of a key, the first one if there are several. -/
def entry (b : List α) (x : κ) : Option α := b.find? fun e ↦ key e = x

/-- One use. -/
def touch (b : List α) (m : β) : List α :=
  match entry key b (name m) with
  | none => b
  | some e => b.eraseP (fun e ↦ key e = name m) ++ [update m e]

/-- What a use makes of the entry of its key. -/
def moved (b : List α) (m : β) : Option α := (entry key b (name m)).map (update m)

/-- The latest use of every key. -/
def latest (ms : List β) : List β := ms.pwFilter fun m m' ↦ name m ≠ name m'

variable {key name update} {b : List α} {ms : List β} {m : β} {x : κ} {e : α}

/-! ## Latest uses -/

theorem latest_subset (ms : List β) : latest name ms ⊆ ms := List.pwFilter_subset ms

theorem forall_mem_latest :
    (∀ m ∈ latest name ms, x ≠ name m) ↔ ∀ m ∈ ms, x ≠ name m := by
  refine ⟨fun h m hm heq ↦ ?_, fun h m hm ↦ h m (latest_subset ms hm)⟩
  refine (List.forall_mem_pwFilter (R := fun m m' ↦ name m ≠ name m') ?_ m ms).mp
    (fun m' hm' ↦ heq ▸ h m' hm') m hm rfl
  intro m m' m'' hne
  by_contra hboth
  rw [not_or, not_not, not_not] at hboth
  exact hne (hboth.1.trans hboth.2)

variable (name) in
theorem exists_mem_latest (hm : m ∈ ms) : ∃ m' ∈ latest name ms, name m = name m' := by
  by_contra hnone
  push Not at hnone
  exact forall_mem_latest.mp hnone m hm rfl

theorem latest_concat (ms : List β) (m : β) :
    latest name (ms ++ [m])
      = (latest name ms).filter (fun m' ↦ name m' ≠ name m) ++ [m] := by
  induction ms with
  | nil => rfl
  | cons a ms ih =>
    have hlater : (∀ m' ∈ latest name (ms ++ [m]), name a ≠ name m') ↔
        (∀ m' ∈ latest name ms, name a ≠ name m') ∧ name a ≠ name m := by
      rw [forall_mem_latest, forall_mem_latest, List.forall_mem_append, List.forall_mem_singleton]
    have hcons (l : List β) : latest name (a :: l)
        = if ∀ m' ∈ latest name l, name a ≠ name m' then a :: latest name l
          else latest name l := by
      split_ifs with h
      · exact List.pwFilter_cons_of_pos h
      · exact List.pwFilter_cons_of_neg h
    rw [List.cons_append, hcons, hcons, ih]
    by_cases hms : ∀ m' ∈ latest name ms, name a ≠ name m'
    · by_cases hm : name a ≠ name m
      · rw [if_pos (ih ▸ hlater.mpr ⟨hms, hm⟩), if_pos hms, List.filter_cons_of_pos (by simpa)]
        rfl
      · rw [if_neg (ih ▸ fun h ↦ hm (hlater.mp h).2), if_pos hms,
          List.filter_cons_of_neg (by simpa using hm)]
    · rw [if_neg (ih ▸ fun h ↦ hms (hlater.mp h).1), if_neg hms]

/-! ## Uses -/

theorem key_of_entry (h : entry key b x = some e) : key e = x := by
  have hfound := List.find?_some h
  exact of_decide_eq_true hfound

theorem mem_of_entry (h : entry key b x = some e) : e ∈ b := List.mem_of_find?_eq_some h

theorem entry_of_mem (hb : (b.map key).Nodup) (he : e ∈ b) : entry key b (key e) = some e := by
  obtain ⟨e', he'⟩ : ∃ e', entry key b (key e) = some e' := by
    rw [← Option.isSome_iff_exists, entry, List.find?_isSome]
    exact ⟨e, he, decide_eq_true rfl⟩
  rw [he', List.inj_on_of_nodup_map hb (mem_of_entry he') he (key_of_entry he')]

theorem entry_eq_none_iff : entry key b x = none ↔ x ∉ b.map key := by
  simp [entry]

theorem eraseP_eq_filter (hb : (b.map key).Nodup) (x : κ) :
    b.eraseP (fun e ↦ key e = x) = b.filter fun e ↦ key e ≠ x := by
  induction b with
  | nil => rfl
  | cons e b ih =>
    rw [List.map_cons, List.nodup_cons] at hb
    by_cases he : key e = x
    · rw [List.eraseP_cons_of_pos (by simpa), List.filter_cons_of_neg (by simpa),
        List.filter_eq_self.mpr]
      intro e' he'
      rw [decide_eq_true_iff]
      rintro rfl
      exact hb.1 (he ▸ List.mem_map_of_mem he')
    · rw [List.eraseP_cons_of_neg (by simpa), List.filter_cons_of_pos (by simpa), ih hb.2]

theorem touch_eq (hb : (b.map key).Nodup) (m : β) :
    touch key name update b m
      = b.filter (fun e ↦ key e ≠ name m) ++ (moved key name update b m).toList := by
  rw [touch, moved]
  rcases he : entry key b (name m) with _ | e
  · rw [Option.map_none, Option.toList_none, List.append_nil, List.filter_eq_self.mpr]
    intro e he'
    rw [decide_eq_true_iff]
    intro heq
    exact entry_eq_none_iff.mp he (heq ▸ List.mem_map_of_mem he')
  · rw [← eraseP_eq_filter hb]
    rfl

theorem filterMap_moved_of_forall₂ (hb : (b.map key).Nodup) {new : List α} (hnew : new ⊆ b)
    {ms : List β} (h : List.Forall₂ (fun e m ↦ key e = name m ∧ update m e = e) new
      (ms.filter fun m ↦ (entry key b (name m)).isSome)) :
    ms.filterMap (moved key name update b) = new := by
  induction ms generalizing new with
  | nil =>
    cases h
    rfl
  | cons m ms ih =>
    rw [List.filterMap_cons, moved]
    rw [List.filter_cons] at h
    rcases he : entry key b (name m) with _ | e
    · rw [he] at h
      exact ih hnew h
    · rw [he] at h
      cases h with
      | @cons e' _ new _ hone hrest =>
        rw [List.cons_subset] at hnew
        have hsame := entry_of_mem hb hnew.1
        rw [hone.1, he] at hsame
        obtain rfl := Option.some.inj hsame
        rw [Option.map_some, hone.2, ← ih hnew.2 hrest]

/-- If the last entries are those with the latest uses, the entries before them were not used. -/
theorem filter_unused {old new : List α} (hb : (b.map key).Nodup) (hsplit : b = old ++ new)
    (hnames : new.map key
      = ((latest name ms).filter fun m ↦ (entry key b (name m)).isSome).map name) :
    b.filter (fun e ↦ key e ∉ ms.map name) = old := by
  rw [hsplit, List.map_append, List.nodup_append] at hb
  have hused : ∀ x ∈ new.map key, x ∈ ms.map name := by
    intro x hx
    rw [hnames] at hx
    exact List.map_subset name
      (List.Subset.trans List.filter_sublist.subset (latest_subset ms)) hx
  have hunused : ∀ e ∈ old, key e ∉ ms.map name := by
    intro e he hmem
    obtain ⟨m, hm, hname⟩ := List.mem_map.mp hmem
    obtain ⟨m', hm', heq⟩ := exists_mem_latest name hm
    have hentry : (entry key b (name m')).isSome = true := by
      rw [Option.isSome_iff_ne_none, ne_eq, entry_eq_none_iff, not_not, ← heq, hname, hsplit]
      exact List.mem_map_of_mem (List.mem_append_left new he)
    have hlast : key e ∈ new.map key := by
      rw [hnames, ← hname, heq]
      exact List.mem_map_of_mem (List.mem_filter.mpr ⟨hm', hentry⟩)
    exact hb.2.2 _ (List.mem_map_of_mem he) _ hlast rfl
  rw [hsplit, List.filter_append, List.filter_eq_self.mpr, List.filter_eq_nil_iff.mpr,
    List.append_nil]
  · intro e he
    simpa using hused _ (List.mem_map_of_mem he)
  · intro e he
    exact decide_eq_true (hunused e he)

section

variable (hkey : ∀ m e, key (update m e) = name m)

include hkey

theorem perm_touch (b : List α) (m : β) :
    ((touch key name update b m).map key).Perm (b.map key) := by
  rw [touch]
  rcases he : entry key b (name m) with _ | e
  · exact .refl _
  · obtain ⟨a, l₁, l₂, -, ha, rfl, herase⟩ := List.exists_of_eraseP
      (p := fun e ↦ decide (key e = name m)) (mem_of_entry he) (decide_eq_true (key_of_entry he))
    dsimp only
    rw [herase, List.map_append, List.map_append, List.map_append, List.map_singleton,
      List.map_cons, hkey, of_decide_eq_true ha, List.append_assoc]
    exact (List.perm_append_singleton _ _).append_left _

theorem perm_foldl_touch (b : List α) (ms : List β) :
    ((ms.foldl (touch key name update) b).map key).Perm (b.map key) :=
  List.foldlRecOn (motive := fun b' : List α ↦ (b'.map key).Perm (b.map key)) ms _ (.refl _)
    fun b' h m _ ↦ (perm_touch hkey b' m).trans h

theorem key_of_moved (h : moved key name update b m = some e) : key e = name m := by
  obtain ⟨e, -, rfl⟩ := Option.map_eq_some_iff.mp h
  exact hkey m e

theorem filter_filterMap_moved (b : List α) (ms : List β) (x : κ) :
    (ms.filterMap (moved key name update b)).filter (fun e ↦ key e ≠ x)
      = (ms.filter fun m ↦ name m ≠ x).filterMap (moved key name update b) := by
  rw [List.filter_filterMap, List.filterMap_filter]
  refine List.filterMap_congr fun m _ ↦ ?_
  rcases he : moved key name update b m with _ | e
  · simp
  · simp [Option.filter_some, key_of_moved hkey he]

/-- An entry that the latest uses leave under a key was made from the entry of the key. -/
theorem exists_of_entry_moved
    (h : entry key ((latest name ms).filterMap (moved key name update b)) x = some e) :
    ∃ m ∈ ms, name m = x ∧ (entry key b x).map (update m) = some e := by
  obtain ⟨m, hm, hmoved⟩ := List.mem_filterMap.mp (mem_of_entry h)
  have hname : name m = x := (key_of_moved hkey hmoved).symm.trans (key_of_entry h)
  rw [moved, hname] at hmoved
  exact ⟨m, latest_subset ms hm, hname, hmoved⟩

variable (hupdate : ∀ m m' e, update m (update m' e) = update m e)

include hupdate

theorem map_entry_latest (b : List α) (hm : name m ∈ ms.map name) :
    (entry key ((latest name ms).filterMap (moved key name update b)) (name m)).map (update m)
      = moved key name update b m := by
  rcases hfound : entry key ((latest name ms).filterMap (moved key name update b)) (name m)
    with _ | e'
  · rcases he : entry key b (name m) with _ | e
    · rw [moved, he]
    · -- the latest use of the key has left its entry there
      obtain ⟨m', hm', hname⟩ := List.mem_map.mp hm
      obtain ⟨m₁, hm₁, hname₁⟩ := exists_mem_latest name hm'
      have hmoved : moved key name update b m₁ = some (update m₁ e) := by
        rw [moved, ← hname₁, hname, he]
        rfl
      refine absurd ?_ (entry_eq_none_iff.mp hfound)
      refine List.mem_map.mpr ⟨update m₁ e, List.mem_filterMap.mpr ⟨m₁, hm₁, hmoved⟩, ?_⟩
      rw [hkey, ← hname₁, hname]
  · obtain ⟨m', -, -, hentry⟩ := exists_of_entry_moved hkey hfound
    obtain ⟨e, he, rfl⟩ := Option.map_eq_some_iff.mp hentry
    rw [moved, he, Option.map_some, Option.map_some, hupdate]

/-- After some uses, a further use makes of the entry what it would have made of it before. -/
theorem moved_uses (b : List α) (ms : List β) (m : β) :
    moved key name update (b.filter (fun e ↦ key e ∉ ms.map name)
        ++ (latest name ms).filterMap (moved key name update b)) m
      = moved key name update b m := by
  rw [moved, entry, List.find?_append, ← entry, ← entry]
  by_cases hm : name m ∈ ms.map name
  · have hunused : entry key (b.filter fun e ↦ key e ∉ ms.map name) (name m) = none := by
      rw [entry_eq_none_iff, List.mem_map]
      rintro ⟨e, he, heq⟩
      exact of_decide_eq_true (List.mem_filter.mp he).2 (heq ▸ hm)
    rw [hunused, Option.none_or, map_entry_latest hkey hupdate b hm]
  · have hsame : entry key (b.filter fun e ↦ key e ∉ ms.map name) (name m)
        = entry key b (name m) := by
      rw [entry, List.find?_filter, entry]
      refine congrArg (List.find? · b) (funext fun e ↦ ?_)
      by_cases he : key e = name m
      · simp [he, hm]
      · simp [he]
    rcases hfound : entry key ((latest name ms).filterMap (moved key name update b)) (name m)
      with _ | e
    · rw [Option.or_none, hsame, moved]
    · obtain ⟨m', hm', hname, -⟩ := exists_of_entry_moved hkey hfound
      exact absurd (hname ▸ List.mem_map_of_mem hm') hm

/-- **Some uses.** The unused entries come first and the used ones in the order of their latest
uses. -/
theorem foldl_touch (hb : (b.map key).Nodup) (ms : List β) :
    ms.foldl (touch key name update) b = b.filter (fun e ↦ key e ∉ ms.map name)
      ++ (latest name ms).filterMap (moved key name update b) := by
  induction ms using List.reverseRecOn with
  | nil => simp [latest]
  | append_singleton ms m ih =>
    rw [List.foldl_append, List.foldl_cons, List.foldl_nil,
      touch_eq ((perm_foldl_touch hkey b ms).nodup_iff.mpr hb), ih, moved_uses hkey hupdate,
      List.filter_append, filter_filterMap_moved hkey, List.filter_filter, latest_concat,
      List.filterMap_append, List.append_assoc]
    have hunused : b.filter (fun e ↦ (decide (key e ≠ name m)) && decide (key e ∉ ms.map name))
        = b.filter fun e ↦ key e ∉ (ms ++ [m]).map name := by
      refine List.filter_congr fun e _ ↦ ?_
      simp [not_or, Bool.and_comm]
    rw [hunused, List.filterMap_cons]
    rcases moved key name update b m with _ | e
    · rfl
    · rfl

theorem forall₂_moved (b : List α) (ms : List β) :
    List.Forall₂ (fun e m ↦ key e = name m ∧ update m e = e)
      (ms.filterMap (moved key name update b))
      (ms.filter fun m ↦ (entry key b (name m)).isSome) := by
  induction ms with
  | nil => exact .nil
  | cons m ms ih =>
    rw [List.filterMap_cons, List.filter_cons, moved]
    rcases entry key b (name m) with _ | e
    · exact ih
    · exact .cons ⟨hkey m e, hupdate m m e⟩ ih

/-- **A list in the same order.** Nothing has changed after some uses exactly if the entries with
the latest uses were the last ones of the list already, in that order, and are left as they are by
their updates. -/
theorem foldl_touch_eq_self_iff (hb : (b.map key).Nodup) (ms : List β) :
    ms.foldl (touch key name update) b = b ↔ ∃ old new, b = old ++ new ∧
      List.Forall₂ (fun e m ↦ key e = name m ∧ update m e = e) new
        ((latest name ms).filter fun m ↦ (entry key b (name m)).isSome) := by
  rw [foldl_touch hkey hupdate hb]
  constructor
  · intro h
    exact ⟨_, _, h.symm, forall₂_moved hkey hupdate b (latest name ms)⟩
  · rintro ⟨old, new, hsplit, hnew⟩
    have hnames : new.map key
        = ((latest name ms).filter fun m ↦ (entry key b (name m)).isSome).map name :=
      List.forall₂_eq_eq_eq ▸
        List.forall₂_map_left_iff.mpr (List.forall₂_map_right_iff.mpr (hnew.imp fun _ _ h ↦ h.1))
    have hmoved := filterMap_moved_of_forall₂ hb (hsplit ▸ List.subset_append_right old new) hnew
    rw [hmoved, filter_unused hb hsplit hnames, ← hsplit]

end

end Touches
