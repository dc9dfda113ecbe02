import Molia.General.Touches
import Molia.Net.TableShape

/-!
# Entering peers again

An answer names peers, and all of them are entered into the table. This module says when that leaves
the table as it is (`enter_eq_self_iff`).

A peer that is not this node and passes the limit on its `/24` is heeded. One that has no entry
leaves the table alone only if both its bucket and the list of those who wait are full. One that has
an entry moves it to the end of the bucket. So the buckets have to end with the entries of the
heeded peers, in the order in which these are named last, and each entry has to say what is said of
its peer, at the present time.
-/

namespace Molia

namespace RoutingTable

open Touches

variable {t t' t'' : RoutingTable} {now : ℕ} {p : PeerInfo} {peers peers' : List PeerInfo}

/-- The table once some peers have been entered. -/
def enter (t : RoutingTable) (now : ℕ) (peers : List PeerInfo) : RoutingTable :=
  peers.foldl (fun t p ↦ (t.insert now p).2) t

/-- The peers that are neither this node nor turned away by the limit on their `/24` when it is
their turn. -/
def heeded (now : ℕ) : RoutingTable → List PeerInfo → List PeerInfo
  | _, [] => []
  | t, p :: peers =>
    if p.id ≠ t.selfId ∧ t.prefixOk p = true then p :: heeded now (t.insert now p).2 peers
    else heeded now t peers

/-- There is no place left for a peer without an entry. -/
def Crowded (t : RoutingTable) (p : PeerInfo) : Prop :=
  t.get p.id = none → min t.k kMax ≤ (t.bucketOf p.id).length ∧ 8 ≤ (t.waiting p.id).length

/-- Nothing of what the peers are said to be is news at this time. -/
structure Settled (t : RoutingTable) (now : ℕ) (peers : List PeerInfo) : Prop where
  crowded : ∀ p ∈ t.heeded now peers, t.get p.id = none →
    min t.k kMax ≤ (t.bucketOf p.id).length ∧ 8 ≤ (t.waiting p.id).length
  recent : ∀ i, ∃ old new, t.buckets i = old ++ new ∧
    List.Forall₂ (fun e p ↦ e.info = p ∧ e.lastSeen = now ∧ e.failCount = 0) new
      ((latest PeerInfo.id ((t.heeded now peers).filter
        fun p ↦ bucketIndex t.selfId p.id = i)).filter fun p ↦ (t.get p.id).isSome)

/-! ## Entries that move -/

theorem id_reentered (now : ℕ) (p : PeerInfo) (e : PeerEntry) : (reentered now p e).id = p.id := rfl

theorem reentered_eq_self_iff {e : PeerEntry} :
    e.id = p.id ∧ reentered now p e = e ↔ e.info = p ∧ e.lastSeen = now ∧ e.failCount = 0 := by
  constructor
  · rintro ⟨-, heq⟩
    rw [← heq]
    exact ⟨rfl, rfl, rfl⟩
  · rintro ⟨rfl, rfl, hfail⟩
    exact ⟨rfl, by rw [reentered, ← hfail]⟩

/-- The entries of these peers have moved, and nothing else has happened. -/
structure Refreshed (now : ℕ) (t t' : RoutingTable) (peers : List PeerInfo) : Prop where
  selfId : t'.selfId = t.selfId
  k : t'.k = t.k
  replacement : t'.replacement = t.replacement
  buckets : ∀ i, t'.buckets i = (peers.filter fun p ↦ bucketIndex t.selfId p.id = i).foldl
    (touch PeerEntry.id PeerInfo.id (reentered now)) (t.buckets i)

namespace Refreshed

theorem refl (now : ℕ) (t : RoutingTable) : Refreshed now t t [] := ⟨rfl, rfl, rfl, fun _ ↦ rfl⟩

theorem trans (h : Refreshed now t t' peers) (h' : Refreshed now t' t'' peers') :
    Refreshed now t t'' (peers ++ peers') where
  selfId := h'.selfId.trans h.selfId
  k := h'.k.trans h.k
  replacement := h'.replacement.trans h.replacement
  buckets i := by
    rw [h'.buckets, h.buckets, h.selfId, List.filter_append, List.foldl_append]

theorem perm (h : Refreshed now t t' peers) (i : ℕ) :
    ((t'.buckets i).map PeerEntry.id).Perm ((t.buckets i).map PeerEntry.id) := by
  rw [h.buckets]
  exact perm_foldl_touch (id_reentered now) _ _

theorem get_eq_none_iff (h : Refreshed now t t' peers) (x : NodeId) :
    t'.get x = none ↔ t.get x = none := by
  rw [RoutingTable.get_eq_none_iff, RoutingTable.get_eq_none_iff, bucketOf, h.selfId,
    (h.perm _).mem_iff]
  rfl

theorem crowded_iff (h : Refreshed now t t' peers) (p : PeerInfo) :
    t'.Crowded p ↔ t.Crowded p := by
  have hlength : (t'.bucketOf p.id).length = (t.bucketOf p.id).length := by
    rw [bucketOf, bucketOf, h.selfId]
    simpa using (h.perm (bucketIndex t.selfId p.id)).length_eq
  rw [Crowded, Crowded, h.get_eq_none_iff, h.k, hlength, waiting, h.selfId, h.replacement]
  rfl

end Refreshed

/-- A peer without an entry takes a place in its bucket, or else beside it, if there is one. -/
theorem insert_of_new (now : ℕ) (hself : p.id ≠ t.selfId) (hok : t.prefixOk p = true)
    (hget : t.get p.id = none) :
    (t.insert now p).2 = if (t.bucketOf p.id).length < min t.k kMax then
        t.setBucket (bucketIndex t.selfId p.id) (t.bucketOf p.id ++ [freshEntry now p])
      else if (t.waiting p.id).length < 8 then
        t.setReplacement (bucketIndex t.selfId p.id) (t.waiting p.id ++ [freshEntry now p])
      else t := by
  have hfind : (t.buckets (bucketIndex t.selfId p.id)).find? (fun e ↦ e.id = p.id) = none := hget
  rw [insert, if_neg hself, if_neg (hok ▸ Bool.noConfusion), bucketOf, waiting]
  simp only [hfind, apply_ite Prod.snd]

theorem insert_of_known (now : ℕ) (hself : p.id ≠ t.selfId) (hok : t.prefixOk p = true)
    {e : PeerEntry} (hget : t.get p.id = some e) :
    (t.insert now p).2 = t.setBucket (bucketIndex t.selfId p.id)
      (touch PeerEntry.id PeerInfo.id (reentered now) (t.bucketOf p.id) p) := by
  have hfind : (t.buckets (bucketIndex t.selfId p.id)).find? (fun e ↦ e.id = p.id) = some e := hget
  rw [insert, if_neg hself, if_neg (hok ▸ Bool.noConfusion), touch, entry, bucketOf]
  simp only [hfind]
  rfl

theorem refreshed_insert (now : ℕ) (hself : p.id ≠ t.selfId) (hok : t.prefixOk p = true)
    (hcrowded : t.Crowded p) : Refreshed now t (t.insert now p).2 [p] := by
  have hone (i : ℕ) : [p].filter (fun p ↦ bucketIndex t.selfId p.id = i)
      = if bucketIndex t.selfId p.id = i then [p] else [] := by
    rw [List.filter_cons, List.filter_nil]
    simp only [decide_eq_true_eq]
  rcases hget : t.get p.id with _ | e
  · obtain ⟨hbucket, hwaiting⟩ := hcrowded hget
    rw [insert_of_new now hself hok hget, if_neg (not_lt.mpr hbucket),
      if_neg (not_lt.mpr hwaiting)]
    refine ⟨rfl, rfl, rfl, fun i ↦ ?_⟩
    rw [hone]
    split_ifs with hi
    · have hnone : entry PeerEntry.id (t.buckets i) p.id = none := hi ▸ hget
      rw [List.foldl_cons, List.foldl_nil, touch, hnone]
    · rfl
  · rw [insert_of_known now hself hok hget]
    refine ⟨rfl, rfl, rfl, fun i ↦ ?_⟩
    rw [hone]
    by_cases hi : bucketIndex t.selfId p.id = i
    · subst hi
      rw [if_pos rfl, buckets_setBucket_self]
      rfl
    · rw [if_neg hi]
      exact Function.update_of_ne (Ne.symm hi) _ _

theorem insert_of_unheeded (h : ¬(p.id ≠ t.selfId ∧ t.prefixOk p = true)) :
    (t.insert now p).2 = t := by
  rw [insert]
  split_ifs with hself hok
  · rfl
  · rfl
  · exact absurd ⟨hself, Bool.not_eq_false _ ▸ hok⟩ h

/-- Peers that have an entry, or for whom there is no place, only move entries. -/
theorem refreshed_enter (h : ∀ p ∈ t.heeded now peers, t.Crowded p) :
    Refreshed now t (t.enter now peers) (t.heeded now peers) := by
  induction peers generalizing t with
  | nil => exact .refl now t
  | cons p peers ih =>
    rw [heeded] at h ⊢
    by_cases hp : p.id ≠ t.selfId ∧ t.prefixOk p = true
    · rw [if_pos hp] at h ⊢
      rw [List.forall_mem_cons] at h
      have hfirst := refreshed_insert now hp.1 hp.2 h.1
      exact hfirst.trans (ih fun q hq ↦ (hfirst.crowded_iff q).mpr (h.2 q hq))
    · rw [if_neg hp] at h ⊢
      have hsame : t.enter now (p :: peers) = t.enter now peers :=
        congrArg (enter · now peers) (insert_of_unheeded hp)
      rw [hsame]
      exact ih h

/-! ## Sizes -/

/-- No bucket and no list beside it is longer in the first table than in the second. -/
def Fewer (t t' : RoutingTable) : Prop :=
  ∀ i, (t.buckets i).length ≤ (t'.buckets i).length ∧
    (t.replacement i).length ≤ (t'.replacement i).length

theorem Fewer.refl (t : RoutingTable) : Fewer t t := fun _ ↦ ⟨le_rfl, le_rfl⟩

theorem Fewer.trans (h : Fewer t t') (h' : Fewer t' t'') : Fewer t t'' :=
  fun i ↦ ⟨(h i).1.trans (h' i).1, (h i).2.trans (h' i).2⟩

theorem fewer_insert (t : RoutingTable) (now : ℕ) (p : PeerInfo) :
    Fewer t (t.insert now p).2 := by
  have hins := inserted t now p
  generalize (t.insert now p).2 = t' at hins ⊢
  intro i
  cases hins with
  | keep => exact ⟨le_rfl, le_rfl⟩
  | refresh hself hok he =>
    refine ⟨forall_setBucket (p := fun i b ↦ (t.buckets i).length ≤ b.length) ?_
      (fun _ ↦ le_rfl) i, le_rfl⟩
    have herase := List.length_eraseP_of_mem (mem_bucketOf_of_get he)
      (p := fun e ↦ decide (e.id = p.id)) (decide_eq_true (id_of_get he))
    rw [List.length_append, herase, List.length_singleton]
    exact Nat.le_add_of_sub_le le_rfl
  | enter hself hok hnew hroom =>
    refine ⟨forall_setBucket (p := fun i b ↦ (t.buckets i).length ≤ b.length) ?_
      (fun _ ↦ le_rfl) i, le_rfl⟩
    rw [List.length_append]
    exact Nat.le_add_right _ _
  | wait hself hok hnew hroom =>
    refine ⟨le_rfl, forall_setReplacement (p := fun i b ↦ (t.replacement i).length ≤ b.length) ?_
      (fun _ ↦ le_rfl) i⟩
    rw [List.length_append]
    exact Nat.le_add_right _ _

theorem fewer_enter (t : RoutingTable) (now : ℕ) (peers : List PeerInfo) :
    Fewer t (t.enter now peers) :=
  List.foldlRecOn (motive := Fewer t) peers _ (.refl t)
    fun t' h p _ ↦ h.trans (fewer_insert t' now p)

theorem crowded_of_fewer (hself : p.id ≠ t.selfId) (hok : t.prefixOk p = true)
    (h : Fewer (t.insert now p).2 t) : t.Crowded p := by
  intro hget
  rw [insert_of_new now hself hok hget] at h
  split_ifs at h with hroom hwait
  · have hgrown := (h (bucketIndex t.selfId p.id)).1
    rw [buckets_setBucket_self, List.length_append] at hgrown
    exact absurd hgrown (Nat.not_succ_le_self _)
  · have hgrown := (h (bucketIndex t.selfId p.id)).2
    have hlist : (t.setReplacement (bucketIndex t.selfId p.id)
        (t.waiting p.id ++ [freshEntry now p])).replacement (bucketIndex t.selfId p.id)
        = t.waiting p.id ++ [freshEntry now p] := Function.update_self _ _ _
    rw [hlist, List.length_append] at hgrown
    exact absurd hgrown (Nat.not_succ_le_self _)
  · exact ⟨not_lt.mp hroom, not_lt.mp hwait⟩

theorem crowded_of_enter (h : Fewer (t.enter now peers) t) :
    ∀ p ∈ t.heeded now peers, t.Crowded p := by
  induction peers generalizing t with
  | nil =>
    intro p hp
    cases hp
  | cons p peers ih =>
    rw [heeded]
    by_cases hp : p.id ≠ t.selfId ∧ t.prefixOk p = true
    · have hfirst : t.Crowded p :=
        crowded_of_fewer hp.1 hp.2 ((fewer_enter (t.insert now p).2 now peers).trans h)
      have hrest := ih (t := (t.insert now p).2) (Fewer.trans h (fewer_insert t now p))
      rw [if_pos hp, List.forall_mem_cons]
      exact ⟨hfirst, fun q hq ↦
        ((refreshed_insert now hp.1 hp.2 hfirst).crowded_iff q).mp (hrest q hq)⟩
    · have hsame : t.enter now (p :: peers) = t.enter now peers :=
        congrArg (enter · now peers) (insert_of_unheeded hp)
      rw [if_neg hp]
      exact ih (hsame ▸ h)

/-- The buckets are as they were exactly if they end with the entries that have moved. -/
theorem Refreshed.eq_self_iff (hapart : t.Apart) (h : Refreshed now t t' peers) :
    t' = t ↔ ∀ i, ∃ old new, t.buckets i = old ++ new ∧
      List.Forall₂ (fun e p ↦ e.info = p ∧ e.lastSeen = now ∧ e.failCount = 0) new
        ((latest PeerInfo.id (peers.filter fun p ↦ bucketIndex t.selfId p.id = i)).filter
          fun p ↦ (t.get p.id).isSome) := by
  have hbuckets : t' = t ↔ ∀ i, t'.buckets i = t.buckets i := by
    refine ⟨fun heq i ↦ by rw [heq], fun heq ↦ ?_⟩
    obtain ⟨hself, hk, hrepl, -⟩ := h
    cases t
    cases t'
    simp_all [funext_iff]
  rw [hbuckets]
  refine forall_congr' fun i ↦ ?_
  rw [h.buckets, foldl_touch_eq_self_iff (id_reentered now) (fun _ _ _ ↦ rfl) (hapart i)]
  have hsome : (latest PeerInfo.id (peers.filter fun p ↦ bucketIndex t.selfId p.id = i)).filter
      (fun p ↦ (entry PeerEntry.id (t.buckets i) p.id).isSome)
      = (latest PeerInfo.id (peers.filter fun p ↦ bucketIndex t.selfId p.id = i)).filter
        fun p ↦ (t.get p.id).isSome := by
    refine List.filter_congr fun p hp ↦ ?_
    have hi := of_decide_eq_true (List.mem_filter.mp (latest_subset _ hp)).2
    rw [get, hi]
    rfl
  simp only [reentered_eq_self_iff, hsome]

/-- **When nothing is news.** Entering peers into a table without duplicates leaves it as it is
exactly if it is settled on them. -/
theorem enter_eq_self_iff (hapart : t.Apart) (now : ℕ) (peers : List PeerInfo) :
    t.enter now peers = t ↔ t.Settled now peers := by
  constructor
  · intro heq
    have hfewer : Fewer (t.enter now peers) t := by
      rw [heq]
      exact .refl t
    have hcrowded := crowded_of_enter hfewer
    exact ⟨hcrowded, ((refreshed_enter hcrowded).eq_self_iff hapart).mp heq⟩
  · rintro ⟨hcrowded, hrecent⟩
    exact ((refreshed_enter hcrowded).eq_self_iff hapart).mpr hrecent

end RoutingTable

end Molia
