import Mathlib.Data.List.Dedup
import Molia.Net.Distance

/-!
# The order of replies

A lookup learns of peers from its seeds and from the lists that answers bring, and puts them into
its shortlist as they come: a peer whose id is there already is dropped, the rest is sorted in, with
round trip times to break ties. Which copy of a peer is kept depends on the order of the answers.
The ids do not: they are the ids learned so far, each once, from the nearest to the farthest
(`ranked`), because two different ids are never at the same distance.
-/

namespace Molia

/-- The first id is at most as far from the target as the second. -/
def Nearer (target : Key) (x y : NodeId) : Prop := distance x target ≤ distance y target

instance (target : Key) : DecidableRel (Nearer target) := fun _ _ ↦ Nat.decLe _ _

instance (target : Key) : Std.Total (Nearer target) := ⟨fun _ _ ↦ Nat.le_total _ _⟩

instance (target : Key) : IsTrans NodeId (Nearer target) := ⟨fun _ _ _ ↦ Nat.le_trans⟩

/-- The ids, each once, from the nearest to the farthest. -/
def ranked (target : Key) (ids : List NodeId) : List NodeId :=
  ids.dedup.insertionSort (Nearer target)

/-- A list is determined by its members if they are ordered by distance and none is repeated. -/
theorem eq_ranked {target : Key} {ids ids' : List NodeId} (hnodup : ids'.Nodup)
    (hsorted : ids'.Pairwise (Nearer target)) (hmem : ∀ x, x ∈ ids' ↔ x ∈ ids) :
    ids' = ranked target ids := by
  have hperm : ids'.Perm (ranked target ids) := by
    refine List.Perm.trans ?_ (List.perm_insertionSort _ _).symm
    refine (List.perm_ext_iff_of_nodup hnodup ids.nodup_dedup).mpr fun x ↦ ?_
    rw [hmem, List.mem_dedup]
  -- a permutation that is sorted too can differ only among ids at one distance
  refine hperm.eq_of_pairwise ?_ hsorted (List.pairwise_insertionSort _ _)
  intro x y _ _ hxy hyx
  exact distance_inj.mp (Nat.le_antisymm hxy hyx)

/-- The peers that an operation brings. -/
def LookupOp.delivered : LookupOp → List PeerInfo
  | onCloser _ peers _ => peers
  | onProviders _ _ closer => closer
  | _ => []

namespace Lookup

variable {l : Lookup}

theorem shortlist_foldl_note (l : Lookup) (sends : List InFlight) :
    (sends.foldl note l).target = l.target ∧ (sends.foldl note l).k = l.k ∧
      (sends.foldl note l).shortlist = l.shortlist := by
  refine List.foldlRecOn
    (motive := fun l' ↦ l'.target = l.target ∧ l'.k = l.k ∧ l'.shortlist = l.shortlist)
    sends note ⟨rfl, rfl, rfl⟩ ?_
  intro l' h f _
  exact h

/-- **One operation.** It brings nobody and leaves the shortlist, or merges those whom it brings. -/
theorem shortlist_step (l : Lookup) (op : LookupOp) :
    (l.step op).target = l.target ∧ (l.step op).k = l.k ∧
      ((l.step op).shortlist = l.merged op.delivered ∨
        (op.delivered = [] ∧ (l.step op).shortlist = l.shortlist)) := by
  cases op with
  | dispatch now sends =>
    obtain ⟨htarget, hk, hsame⟩ := shortlist_foldl_note (l.nextBatch now).2 sends
    rw [step, htarget, hk, hsame, nextBatch_snd]
    exact ⟨rfl, rfl, Or.inr ⟨rfl, rfl⟩⟩
  | onTimeouts now =>
    rw [step, onTimeouts_snd]
    exact ⟨rfl, rfl, Or.inr ⟨rfl, rfl⟩⟩
  | onCloser sender peers rttUs =>
    rw [step, onCloser_eq]
    exact ⟨rfl, rfl, Or.inl rfl⟩
  | onProviders sender providers closer =>
    rw [step, onProviders, onCloser_eq]
    exact ⟨rfl, rfl, Or.inl rfl⟩
  | onRecord sender rec => exact ⟨rfl, rfl, Or.inr ⟨rfl, rfl⟩⟩

theorem mem_ids_merged (l : Lookup) (peers : List PeerInfo) (x : NodeId) :
    x ∈ (l.merged peers).map PeerInfo.id ↔
      x ∈ l.shortlist.map PeerInfo.id ∨ x ∈ peers.map PeerInfo.id := by
  rw [merged, ((perm_sortShortlist _ _).map PeerInfo.id).mem_iff]
  exact mem_map_merge PeerInfo.id _ _ _

theorem mem_ids_step (l : Lookup) (op : LookupOp) (x : NodeId) :
    x ∈ (l.step op).shortlist.map PeerInfo.id ↔
      x ∈ l.shortlist.map PeerInfo.id ∨ x ∈ op.delivered.map PeerInfo.id := by
  obtain ⟨-, -, hmerged | ⟨hnil, hsame⟩⟩ := shortlist_step l op
  · rw [hmerged, mem_ids_merged]
  · rw [hsame, hnil, List.map_nil, or_iff_left List.not_mem_nil]

/-- Everybody who was learned of is in the shortlist, and nobody else. -/
theorem mem_ids_run (l : Lookup) (ops : List LookupOp) (x : NodeId) :
    x ∈ (ops.foldl step l).shortlist.map PeerInfo.id ↔
      x ∈ l.shortlist.map PeerInfo.id ∨ x ∈ (ops.flatMap LookupOp.delivered).map PeerInfo.id := by
  induction ops generalizing l with
  | nil => simp
  | cons op ops ih =>
    rw [List.foldl_cons, ih, mem_ids_step, List.flatMap_cons, List.map_append, List.mem_append,
      or_assoc]

/-- The shortlist is sorted and no id is in it twice. -/
structure InOrder (target : Key) (l : Lookup) : Prop where
  target_eq : l.target = target
  k_eq : l.k = kDefault
  nodup : (l.shortlist.map PeerInfo.id).Nodup
  sorted : l.shortlist.Pairwise (closerTo target)

namespace InOrder

variable {target : Key}

/-- The answers may come from anyone, and requests may be sent to anyone. -/
theorem step (h : l.InOrder target) (op : LookupOp) : (l.step op).InOrder target := by
  obtain ⟨htarget, hk, hmerged | ⟨-, hsame⟩⟩ := shortlist_step l op
  · refine ⟨htarget.trans h.target_eq, hk.trans h.k_eq, ?_, ?_⟩
    · rw [hmerged, merged, ((perm_sortShortlist _ _).map PeerInfo.id).nodup_iff]
      exact nodup_map_merge PeerInfo.id h.nodup op.delivered
    · rw [hmerged, merged, h.target_eq]
      exact pairwise_sortShortlist _ _
  · refine ⟨htarget.trans h.target_eq, hk.trans h.k_eq, ?_, ?_⟩
    · rw [hsame]
      exact h.nodup
    · rw [hsame]
      exact h.sorted

theorem run (h : l.InOrder target) (ops : List LookupOp) :
    (ops.foldl Lookup.step l).InOrder target :=
  Runs.along_true.invariant (fun _ op hl _ ↦ hl.step op) h

theorem ids_eq (h : l.InOrder target) {ids : List NodeId}
    (hmem : ∀ x, x ∈ l.shortlist.map PeerInfo.id ↔ x ∈ ids) :
    l.shortlist.map PeerInfo.id = ranked target ids :=
  eq_ranked h.nodup (List.pairwise_map.mpr (h.sorted.imp distance_le_of_closerTo)) hmem

end InOrder

/-- **The order of replies does not matter.** The ids of the shortlist are those of the seeds and of
the peers in the answers, ranked, whoever sent the answers and whatever was sent or given up in
between; a run that is told of the same ids in another order ends with the same ids. The result of
the lookup are the twenty nearest ids it ever learned of. -/
theorem ids_of_learned (now₀ : ℕ) (kind : LookupKind) (target : Key) (seeds : List PeerInfo)
    (privacy : PrivacyMode) (ops : List LookupOp) (hseeds : (seeds.map PeerInfo.id).Nodup) :
    let run := fun ops : List LookupOp ↦ ops.foldl step (new now₀ kind target seeds privacy)
    let learned := (seeds ++ ops.flatMap LookupOp.delivered).map PeerInfo.id
    (run ops).shortlist.map PeerInfo.id = ranked target learned ∧
      (run ops).finishPeers.map PeerInfo.id = (ranked target learned).take 20 ∧
      ∀ ops' : List LookupOp,
        (∀ x, x ∈ (ops'.flatMap LookupOp.delivered).map PeerInfo.id ↔
          x ∈ (ops.flatMap LookupOp.delivered).map PeerInfo.id) →
        (run ops').shortlist.map PeerInfo.id = (run ops).shortlist.map PeerInfo.id := by
  intro run learned
  have hstart : (new now₀ kind target seeds privacy).InOrder target :=
    ⟨rfl, rfl, (((perm_sortShortlist seeds target).map _).nodup_iff).mpr hseeds,
      pairwise_sortShortlist seeds target⟩
  have hmem (ops : List LookupOp) (x : NodeId) : x ∈ (run ops).shortlist.map PeerInfo.id ↔
      x ∈ (seeds ++ ops.flatMap LookupOp.delivered).map PeerInfo.id := by
    rw [mem_ids_run, List.map_append, List.mem_append]
    exact or_congr_left ((perm_sortShortlist seeds target).map _).mem_iff
  have hids : (run ops).shortlist.map PeerInfo.id = ranked target learned :=
    (hstart.run ops).ids_eq (hmem ops)
  refine ⟨hids, ?_, ?_⟩
  · rw [finishPeers, (hstart.run ops).k_eq, List.map_take, hids]
    rfl
  · intro ops' hsame
    rw [hids]
    refine (hstart.run ops').ids_eq fun x ↦ ?_
    rw [hmem, List.map_append, List.mem_append, hsame, ← List.mem_append, ← List.map_append]

/-- Two answers that have a peer in common, in either order. -/
theorem ids_of_learned_swapped :
    let run := fun ops : List LookupOp ↦
      ops.foldl step (new 0 .findNode ⟨.fill 0⟩ [seedPeer 2, seedPeer 1] .none)
    let first := LookupOp.onCloser ⟨.fill 1⟩ [seedPeer 4, seedPeer 3] 900
    let second := LookupOp.onProviders ⟨.fill 2⟩ [] [seedPeer 5, seedPeer 4]
    (run [first, second]).shortlist.map PeerInfo.id
        = [⟨.fill 1⟩, ⟨.fill 2⟩, ⟨.fill 3⟩, ⟨.fill 4⟩, ⟨.fill 5⟩] ∧
      (run [second, first]).shortlist.map PeerInfo.id
        = (run [first, second]).shortlist.map PeerInfo.id := by
  intro run first second
  obtain ⟨hids, -, hsame⟩ := ids_of_learned 0 .findNode ⟨.fill 0⟩ [seedPeer 2, seedPeer 1] .none
    [first, second] (by decide +kernel)
  refine ⟨hids.trans (by decide +kernel), hsame [second, first] fun x ↦ ?_⟩
  simp only [first, second, LookupOp.delivered, List.flatMap_cons, List.flatMap_nil,
    List.append_nil, List.map_append, List.mem_append]
  exact or_comm

end Lookup

end Molia
