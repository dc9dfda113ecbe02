import Molia.Net.TableShape

/-!
# Evictions

An eviction is meant to take one peer out of the table and to put one that has waited in its place.
It takes the peer out of its bucket, and then the last of the waiting entries is moved to the end of
the bucket, whoever it belongs to and whether or not the peer was there.

So it goes wrong in two ways. The evicted peer may itself be waiting, announced while its bucket was
full, and comes back at once. And if it was not in the bucket, a full bucket grows by one. These are
the only ways (`replaced_iff`).
-/

namespace Molia.RoutingTable

variable {t : RoutingTable} {dead : NodeId}

/-- A peer has been taken out of the table and one that waited has taken its place. -/
structure Replaced (dead : NodeId) (t t' : RoutingTable) : Prop where
  gone : ∀ i, ∀ e ∈ t'.buckets i, e.id ≠ dead
  stay : ∀ i, ∀ e ∈ t.buckets i, e.id ≠ dead → e ∈ t'.buckets i
  moved : ∃ moved : List PeerEntry, moved.length ≤ 1 ∧
    t.waiting dead = t'.waiting dead ++ moved ∧ (∀ e ∈ moved, e ∈ t'.bucketOf dead) ∧
    ∀ i, ∀ e ∈ t'.buckets i, e ∈ t.buckets i ∨ e ∈ moved
  bounded : ∀ i, (t'.buckets i).length ≤ 20

theorem bucketOf_evict (t : RoutingTable) (dead : NodeId) :
    (t.evictAndReplace dead).bucketOf dead = t.kept dead ++ (t.promoted dead).toList := by
  rw [evictAndReplace_eq]
  exact buckets_setBucket_self _ _ _

theorem waiting_evict (t : RoutingTable) (dead : NodeId) :
    (t.evictAndReplace dead).waiting dead = (t.waiting dead).dropLast := by
  rw [evictAndReplace_eq]
  exact Function.update_self _ _ _

theorem buckets_evict_of_ne {i : ℕ} (h : i ≠ bucketIndex t.selfId dead) :
    (t.evictAndReplace dead).buckets i = t.buckets i := by
  rw [evictAndReplace_eq]
  exact Function.update_of_ne h _ _

theorem forall_buckets_evict {p : ℕ → List PeerEntry → Prop} :
    (∀ i, p i ((t.evictAndReplace dead).buckets i)) ↔
      p (bucketIndex t.selfId dead) (t.kept dead ++ (t.promoted dead).toList) ∧
        ∀ i, i ≠ bucketIndex t.selfId dead → p i (t.buckets i) := by
  rw [evictAndReplace_eq]
  exact Function.forall_update_iff _ p

theorem promoted_of_lt (h : (t.kept dead).length < kMax) :
    t.promoted dead = (t.waiting dead).getLast? := by
  rw [promoted]
  rcases (t.waiting dead).getLast? with _ | e
  · rfl
  · rw [Option.filter_some, if_pos (decide_eq_true h)]

theorem mem_kept {e : PeerEntry} : e ∈ t.kept dead ↔ e ∈ t.bucketOf dead ∧ e.id ≠ dead := by
  rw [kept, List.mem_filter, decide_eq_true_eq]

theorem gone_iff (h : Placed t) :
    (∀ i, ∀ e ∈ (t.evictAndReplace dead).buckets i, e.id ≠ dead) ↔
      ∀ e ∈ t.promoted dead, e.id ≠ dead := by
  rw [forall_buckets_evict (p := fun _ b ↦ ∀ e ∈ b, e.id ≠ dead)]
  constructor
  · rintro ⟨hbucket, -⟩ e he
    exact hbucket e (List.mem_append_right _ (Option.mem_toList.mpr he))
  · intro hpromoted
    refine ⟨List.forall_mem_append.mpr ⟨fun e he ↦ (mem_kept.mp he).2, fun e he ↦ ?_⟩, ?_⟩
    · exact hpromoted e (Option.mem_toList.mp he)
    · -- the other buckets are of other distances
      rintro i hi e he rfl
      exact hi (h.buckets i e he).1.symm

/-- Nobody else is lost. -/
theorem stay_evict (t : RoutingTable) (dead : NodeId) {i : ℕ} {e : PeerEntry}
    (he : e ∈ t.buckets i) (hne : e.id ≠ dead) : e ∈ (t.evictAndReplace dead).buckets i := by
  by_cases hi : i = bucketIndex t.selfId dead
  · subst hi
    rw [evictAndReplace_eq, buckets_setBucket_self]
    exact List.mem_append_left _ (mem_kept.mpr ⟨he, hne⟩)
  · rw [buckets_evict_of_ne hi]
    exact he

/-- Nobody is added but the one who is promoted. -/
theorem mem_of_mem_evict {i : ℕ} {e : PeerEntry} (he : e ∈ (t.evictAndReplace dead).buckets i) :
    e ∈ t.buckets i ∨ e ∈ (t.promoted dead).toList := by
  revert i
  rw [forall_buckets_evict (p := fun i b ↦ e ∈ b → e ∈ t.buckets i ∨ _)]
  refine ⟨fun he ↦ ?_, fun i _ he ↦ Or.inl he⟩
  rcases List.mem_append.mp he with hkept | hpromoted
  · exact Or.inl (mem_kept.mp hkept).1
  · exact Or.inr hpromoted

theorem waiting_eq_append (hroom : (t.kept dead).length < kMax) :
    t.waiting dead = (t.evictAndReplace dead).waiting dead ++ (t.promoted dead).toList := by
  rw [waiting_evict, promoted_of_lt hroom]
  rcases hlast : (t.waiting dead).getLast? with _ | e
  · rw [List.getLast?_eq_none_iff.mp hlast]
    rfl
  · exact (List.dropLast_append_getLast? e hlast).symm

theorem length_kept_lt_kMax {es : List PeerEntry} (h : (t.kept dead ++ es).length ≤ 20) :
    (t.kept dead).length < kMax := by
  rw [List.length_append] at h
  show _ < 32
  omega

theorem replaced_evict_iff (hplaced : Placed t) :
    Replaced dead t (t.evictAndReplace dead) ↔
      (∀ e ∈ (t.waiting dead).getLast?, e.id ≠ dead) ∧
        (∀ i, i ≠ bucketIndex t.selfId dead → (t.buckets i).length ≤ 20) ∧
        (t.kept dead ++ (t.waiting dead).getLast?.toList).length ≤ 20 := by
  have hbounds : (∀ i, ((t.evictAndReplace dead).buckets i).length ≤ 20) ↔ _ :=
    forall_buckets_evict (p := fun _ b ↦ b.length ≤ 20)
  constructor
  · intro h
    obtain ⟨hbucket, hothers⟩ := hbounds.mp h.bounded
    rw [← promoted_of_lt (length_kept_lt_kMax hbucket)]
    exact ⟨(gone_iff hplaced).mp h.gone, hothers, hbucket⟩
  · rintro ⟨hother, hothers, hbucket⟩
    have hroom := length_kept_lt_kMax hbucket
    rw [← promoted_of_lt hroom] at hother hbucket
    refine ⟨(gone_iff hplaced).mpr hother, fun i e ↦ stay_evict t dead,
      ⟨(t.promoted dead).toList, Option.length_toList_le, waiting_eq_append hroom, fun e he ↦ ?_,
        fun i e ↦ mem_of_mem_evict⟩, hbounds.mpr ⟨hbucket, hothers⟩⟩
    rw [bucketOf_evict]
    exact List.mem_append_right _ he

/-- A node in use evicts only peers that are in their buckets, and then there is a place. -/
theorem replaced_evict_iff_of_get (hplaced : Placed t) (hbounded : Bounded t) {e : PeerEntry}
    (he : t.get dead = some e) :
    Replaced dead t (t.evictAndReplace dead) ↔ ∀ e ∈ (t.waiting dead).getLast?, e.id ≠ dead := by
  refine (replaced_evict_iff hplaced).trans (and_iff_left ⟨fun i _ ↦ hbounded.buckets i, ?_⟩)
  have hless : (t.kept dead).length < (t.bucketOf dead).length := length_kept_lt he
  have hle : (t.bucketOf dead).length ≤ 20 := hbounded.buckets _
  have hone : (t.waiting dead).getLast?.toList.length ≤ 1 := Option.length_toList_le
  rw [List.length_append]
  omega

/-- **Evictions.** An eviction replaces the peer exactly if the last entry that waits for the bucket
is not the peer's own, the buckets are within their bound, and there is a place in the bucket for
the entry that is promoted. -/
theorem replaced_iff (selfId : NodeId) (ops : List TableOp) (dead : NodeId) :
    let t := ops.foldl apply (new selfId)
    Replaced dead t (t.evictAndReplace dead) ↔
      (∀ e ∈ (t.waiting dead).getLast?, e.id ≠ dead) ∧
        (∀ i, i ≠ bucketIndex t.selfId dead → (t.buckets i).length ≤ 20) ∧
        (t.kept dead ++ (t.waiting dead).getLast?.toList).length ≤ 20 :=
  replaced_evict_iff (placed_foldl selfId ops)

/-- The peer number `n` of a bucket far from the node itself, in a `/24` of its own. -/
private def backPeer (n : UInt8) : PeerInfo :=
  PeerInfo.new ⟨Bytes32.fill (128 + n)⟩ (.ofV4 10 0 n 1 4000)

/-- The first twenty of them, who fill the bucket, and then the given ones. -/
private def fullOps (late : List UInt8) : List TableOp :=
  ((List.range 20).map UInt8.ofNat ++ late).map fun n ↦ .insert 0 (backPeer n)

/-- A peer is announced twice while its bucket is full, and is promoted when another one fails. -/
private def backOps : List TableOp :=
  fullOps [20, 20] ++ List.replicate 3 (.markFail (backPeer 0).id)

/-- The second of its entries is promoted when the peer is evicted. -/
theorem replaced_fails :
    ¬∀ (selfId : NodeId) (ops : List TableOp) (dead : NodeId),
      let t := ops.foldl apply (new selfId)
      Replaced dead t (t.evictAndReplace dead) := by
  intro h
  have hgone := (h NodeId.zero backOps (backPeer 20).id).gone 255
  revert hgone
  decide +kernel

end Molia.RoutingTable
