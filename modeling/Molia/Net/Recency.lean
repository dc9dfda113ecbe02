import Molia.Net.Reentry

/-!
# Recency in a bucket

A bucket is kept in the order in which its peers were last entered, so that the first entry is the
one to be checked when the bucket is full. Entering a known peer again is meant to be a touch: the
entry moves to the end with what is now known of the peer, and nothing else changes.

The limit on the addresses of one `/24` is tested first, and the test counts the peer itself. In a
bucket with eight entries of a `/24` none of the eight can be touched: however often they are heard
of, their entries keep their old place, information and failure count, and it is they who drift to
the front (`touched_insert_iff`).

Nor is the order that of the times at which the peers were last seen. An answer renews the time of
an entry and leaves the entry where it is, and a peer that is promoted from the replacement list
brings an old time with it. A bucket is ordered by recency as long as only its most recent entries
answer and only recent entries are promoted (`leastRecentFirst_throughout_iff`).
-/

namespace Molia

/-- The time that an operation reads off the clock. -/
def TableOp.time : TableOp → Option ℕ
  | insert now _ => some now
  | touchOk now _ _ => some now
  | _ => none

namespace RoutingTable

variable {t : RoutingTable} {now : ℕ} {info : PeerInfo}

/-- A bucket before and after a touch: the same ids, the entry of the peer at the end with the new
information, no failures and the present time, and the other entries in their order. If a peer has
several entries, the first of them is touched. -/
structure Touched (now : ℕ) (info : PeerInfo) (b b' : List PeerEntry) : Prop where
  ids : (b'.map PeerEntry.id).Perm (b.map PeerEntry.id)
  last : ∃ e, b'.getLast? = some e ∧ e.info = info ∧ e.failCount = 0 ∧ e.lastSeen = now
  others : b'.dropLast = b.eraseP fun e ↦ e.id = info.id

/-- The entry that is put at the end takes the place of the one that was taken out. -/
theorem touched_eraseP_append {b : List PeerEntry} {e : PeerEntry} (he : e ∈ b)
    (hid : e.id = info.id) :
    Touched now info b (b.eraseP (fun e ↦ e.id = info.id) ++ [reentered now info e]) where
  ids := by
    obtain ⟨a, l₁, l₂, -, ha, rfl, herase⟩ :=
      List.exists_of_eraseP (p := fun e ↦ decide (e.id = info.id)) he (decide_eq_true hid)
    have hnew : (reentered now info e).id = a.id := (of_decide_eq_true ha).symm
    rw [herase, List.append_assoc, List.map_append, List.map_append, List.map_append,
      List.map_cons, List.map_cons, List.map_nil, hnew]
    exact (List.perm_append_singleton a.id (l₂.map PeerEntry.id)).append_left _
  last := ⟨reentered now info e, List.getLast?_concat, rfl, rfl, rfl⟩
  others := List.dropLast_concat

theorem bucketOf_insert_of_get {e : PeerEntry} (hself : info.id ≠ t.selfId)
    (hok : t.prefixOk info = true) (he : t.get info.id = some e) :
    (t.insert now info).2.bucketOf info.id
      = (t.bucketOf info.id).eraseP (fun e ↦ e.id = info.id) ++ [reentered now info e] := by
  have hentry : Touches.entry PeerEntry.id (t.bucketOf info.id) info.id = some e := he
  rw [insert_of_known now hself hok he, Touches.touch, hentry]
  exact buckets_setBucket_self _ _ _

/-- **Touches.** Entering a known peer again touches its entry exactly if fewer than eight entries
of the bucket are of the `/24` of the new address, the peer's own entry included, or if nothing is
left to be done. -/
theorem touched_insert_iff (selfId : NodeId) (ops : List TableOp) (now : ℕ) {info : PeerInfo}
    (hknown : info.id ∈ ((ops.foldl apply (new selfId)).bucketOf info.id).map PeerEntry.id) :
    let t := ops.foldl apply (new selfId)
    Touched now info (t.bucketOf info.id) ((t.insert now info).2.bucketOf info.id) ↔
      (∀ p, info.primaryAddr.bind prefix24 = some p → crowd p (t.bucketOf info.id) < 8) ∨
        Touched now info (t.bucketOf info.id) (t.bucketOf info.id) := by
  intro t
  have hplaced : Placed t := placed_foldl selfId ops
  obtain ⟨e, he, hid⟩ := List.mem_map.mp hknown
  have hself : info.id ≠ t.selfId := hid ▸ (hplaced.buckets _ e he).2
  rw [← prefixOk_iff]
  by_cases hok : t.prefixOk info = true
  · rcases hget : t.get info.id with _ | first
    · exact absurd hknown (get_eq_none_iff.mp hget)
    · rw [bucketOf_insert_of_get hself hok hget]
      exact iff_of_true (touched_eraseP_append (mem_bucketOf_of_get hget) (id_of_get hget))
        (Or.inl hok)
  · rw [insert_of_unheeded fun h ↦ hok h.2, or_iff_right hok]

/-- The peer number `n` of the `/24` number `c`, far from the node itself. -/
private def heardPeer (n c : UInt8) : PeerInfo :=
  PeerInfo.new ⟨Bytes32.fill (128 + n)⟩ (.ofV4 10 0 c n 4000)

/-- Eight peers of one `/24`. -/
private def eightOps : List TableOp :=
  (List.range 8).map fun n ↦ .insert 0 (heardPeer (UInt8.ofNat n) 1)

/-- A peer that has moved to another `/24` is touched. -/
theorem touched_insert_iff_moved :
    let t := eightOps.foldl apply (new NodeId.zero)
    Touched 5 (heardPeer 3 2) (t.bucketOf (heardPeer 3 2).id)
      ((t.insert 5 (heardPeer 3 2)).2.bucketOf (heardPeer 3 2).id) := by
  refine (touched_insert_iff NodeId.zero eightOps 5 (by decide +kernel)).mpr (Or.inl ?_)
  intro p hp
  obtain rfl := Option.some.inj hp
  decide +kernel

/-- The first of eight peers of one `/24` is heard of again, and keeps its place. -/
theorem touched_insert_fails :
    ¬∀ (selfId : NodeId) (ops : List TableOp) (now : ℕ) (info : PeerInfo),
      let t := ops.foldl apply (new selfId)
      info.id ∈ (t.bucketOf info.id).map PeerEntry.id →
        Touched now info (t.bucketOf info.id) ((t.insert now info).2.bucketOf info.id) := by
  intro h
  obtain ⟨e, hlast, hinfo, -⟩ :=
    (h NodeId.zero eightOps 5 (heardPeer 0 1) (by decide +kernel)).last
  have hseven : ((((eightOps.foldl apply (new NodeId.zero)).insert 5 (heardPeer 0 1)).2.bucketOf
      (heardPeer 0 1).id).getLast?.map PeerEntry.info) = some (heardPeer 7 1) := by
    decide +kernel
  rw [hlast, Option.map_some, hinfo] at hseven
  revert hseven
  decide +kernel

/-! ## The order of a bucket -/

/-- Every entry was seen at the given time or before. -/
structure SeenBy (now : ℕ) (t : RoutingTable) : Prop where
  buckets : ∀ i, ∀ e ∈ t.buckets i, e.lastSeen ≤ now
  replacement : ∀ i, ∀ e ∈ t.replacement i, e.lastSeen ≤ now

namespace SeenBy

theorem setBucket (h : SeenBy now t) {i : ℕ} {b : List PeerEntry}
    (hb : ∀ e ∈ b, e.lastSeen ≤ now) : SeenBy now (t.setBucket i b) where
  buckets := forall_setBucket (p := fun _ b ↦ ∀ e ∈ b, e.lastSeen ≤ now) hb h.buckets
  replacement := h.replacement

theorem setReplacement (h : SeenBy now t) {i : ℕ} {b : List PeerEntry}
    (hb : ∀ e ∈ b, e.lastSeen ≤ now) : SeenBy now (t.setReplacement i b) where
  buckets := h.buckets
  replacement := forall_setReplacement (p := fun _ b ↦ ∀ e ∈ b, e.lastSeen ≤ now) hb h.replacement

theorem evict (h : SeenBy now t) (dead : NodeId) : SeenBy now (t.evictAndReplace dead) := by
  rw [evictAndReplace_eq]
  refine (h.setReplacement fun e he ↦ h.replacement _ e (List.dropLast_subset _ he)).setBucket ?_
  refine List.forall_mem_append.mpr ⟨fun e he ↦ h.buckets _ e (List.mem_of_mem_filter he), ?_⟩
  intro e he
  exact h.replacement _ e (mem_waiting_of_promoted (Option.mem_toList.mp he))

theorem insert {now' : ℕ} (h : SeenBy now t) (hle : now' ≤ now) (info : PeerInfo) :
    SeenBy now (t.insert now' info).2 := by
  generalize ht' : (t.insert now' info).2 = t'
  cases ht' ▸ inserted t now' info with
  | keep => exact h
  | refresh hself hok he =>
    exact h.setBucket (List.forall_mem_append.mpr
      ⟨fun e' he' ↦ h.buckets _ e' (List.mem_of_mem_eraseP he'),
        List.forall_mem_singleton.mpr hle⟩)
  | enter hself hok hnew hroom =>
    exact h.setBucket (List.forall_mem_append.mpr
      ⟨h.buckets _, List.forall_mem_singleton.mpr hle⟩)
  | wait hself hok hnew hroom =>
    exact h.setReplacement (List.forall_mem_append.mpr
      ⟨h.replacement _, List.forall_mem_singleton.mpr hle⟩)

theorem updateFirst (h : SeenBy now t) {id : NodeId} {f : PeerEntry → PeerEntry}
    (hf : ∀ e : PeerEntry, e.lastSeen ≤ now → (f e).lastSeen ≤ now) :
    SeenBy now (t.setBucket (bucketIndex t.selfId id) (updateFirst id f (t.bucketOf id))) := by
  refine h.setBucket fun e he ↦ ?_
  rcases mem_updateFirst he with hold | ⟨e', he', rfl⟩
  · exact h.buckets _ e hold
  · exact hf e' (h.buckets _ e' he')

theorem markFail (h : SeenBy now t) (id : NodeId) : SeenBy now (t.markFail id) := by
  rcases he : t.get id with _ | e
  · rw [markFail_of_get_none he]
    exact h
  by_cases hthree : saturatingSucc e.failCount ≥ 3
  · rw [markFail_of_three he hthree]
    exact h.evict id
  · rw [markFail_of_few he hthree]
    exact h.updateFirst fun _ hle ↦ hle

theorem apply (h : SeenBy now t) {op : TableOp} (hop : ∀ now' ∈ op.time, now' ≤ now) :
    SeenBy now (t.apply op) := by
  cases op with
  | insert now' info => exact h.insert (hop now' rfl) info
  | touchOk now' id rttUs => exact h.updateFirst fun _ _ ↦ hop now' rfl
  | markFail id => exact h.markFail id
  | evictAndReplace id => exact h.evict id

end SeenBy

/-- No entry is from the future when an operation reads the clock. -/
def InTime (t : RoutingTable) (op : TableOp) : Prop := ∀ now ∈ op.time, SeenBy now t

/-- The clock does not go back, so that nothing is ever from the future. -/
theorem along_inTime {ops : List TableOp} (hclock : (ops.filterMap TableOp.time).Pairwise (· ≤ ·))
    (h : ∀ now ∈ ops.filterMap TableOp.time, SeenBy now t) :
    Runs.Along RoutingTable.apply InTime t ops := by
  induction ops generalizing t with
  | nil => trivial
  | cons op ops ih =>
    rcases htime : op.time with _ | now
    · rw [List.filterMap_cons_none htime] at hclock h
      refine ⟨fun now hnow ↦ ?_, ih hclock fun now hnow ↦ (h now hnow).apply ?_⟩
      · rw [htime] at hnow
        cases hnow
      · rw [htime]
        exact fun _ hnone ↦ absurd hnone (Option.not_mem_none _)
    · rw [List.filterMap_cons_some htime] at hclock h
      obtain ⟨hlater, hrest⟩ := List.pairwise_cons.mp hclock
      refine ⟨fun now' hnow' ↦ ?_, ih hrest fun later hmem ↦ ?_⟩
      · rw [htime, Option.mem_some_iff] at hnow'
        exact hnow' ▸ h now List.mem_cons_self
      · refine (h later (List.mem_cons_of_mem _ hmem)).apply ?_
        rw [htime]
        rintro _ ⟨⟩
        exact hlater later hmem

/-- The entries in the order in which they were last seen. -/
def ByAge (b : List PeerEntry) : Prop := b.Pairwise fun e e' ↦ e.lastSeen ≤ e'.lastSeen

instance : DecidablePred ByAge := fun b ↦ inferInstanceAs (Decidable (b.Pairwise _))

/-- Every bucket is ordered by recency, and what `insert` returns for a full bucket was seen least
recently of the bucket. -/
structure LeastRecentFirst (t : RoutingTable) : Prop where
  sorted : ∀ i, ByAge (t.buckets i)
  full : ∀ now info, ∀ e ∈ (t.insert now info).1, ∀ e' ∈ t.bucketOf info.id,
    e.lastSeen ≤ e'.lastSeen

theorem head?_of_mem_insert {e : PeerEntry} (h : e ∈ (t.insert now info).1) :
    (t.bucketOf info.id).head? = some e := by
  rw [insert] at h
  split_ifs at h
  · cases h
  · cases h
  · dsimp only at h
    split at h
    · cases h
    · split_ifs at h
      · cases h
      · exact h
      · exact h

theorem leastRecentFirst_iff : LeastRecentFirst t ↔ ∀ i, ByAge (t.buckets i) := by
  refine ⟨LeastRecentFirst.sorted, fun h ↦ ⟨h, fun now info e he e' he' ↦ ?_⟩⟩
  obtain ⟨rest, hb⟩ := List.head?_eq_some_iff.mp (head?_of_mem_insert he)
  have hsorted : ByAge (t.bucketOf info.id) := h _
  rw [hb] at hsorted he'
  rcases List.mem_cons.mp he' with rfl | hrest
  · exact Nat.le_refl _
  · exact List.rel_of_pairwise_cons hsorted hrest

/-- The entries behind the first one of a peer. -/
def behind (id : NodeId) : List PeerEntry → List PeerEntry
  | [] => []
  | e :: es => if e.id = id then es else behind id es

/-- An answer comes from an entry with none older behind it, and an eviction promotes an entry that
was seen after all that stay. -/
def InTurn (t : RoutingTable) : TableOp → Prop
  | .touchOk now id _ => ∀ e ∈ behind id (t.bucketOf id), now ≤ e.lastSeen
  | op => ∀ dead ∈ t.evicts op, ∀ e ∈ t.promoted dead, ∀ e' ∈ t.kept dead,
      e'.lastSeen ≤ e.lastSeen

instance (t : RoutingTable) : DecidablePred t.InTurn
  | .touchOk _ _ _ => inferInstanceAs (Decidable (∀ e ∈ _, _))
  | .insert _ _ => inferInstanceAs (Decidable (∀ dead ∈ _, _))
  | .markFail _ => inferInstanceAs (Decidable (∀ dead ∈ _, _))
  | .evictAndReplace _ => inferInstanceAs (Decidable (∀ dead ∈ _, _))

theorem byAge_append_iff {b : List PeerEntry} (h : ByAge b) {e : PeerEntry} :
    ByAge (b ++ [e]) ↔ ∀ e' ∈ b, e'.lastSeen ≤ e.lastSeen := by
  rw [ByAge, List.pairwise_append]
  constructor
  · rintro ⟨-, -, hlast⟩ e' he'
    exact hlast e' he' e List.mem_cons_self
  · intro hlast
    refine ⟨h, List.pairwise_singleton _ _, fun e' he' e'' he'' ↦ ?_⟩
    rw [List.mem_singleton.mp he'']
    exact hlast e' he'

/-- An entry that is renewed in its place is in order exactly if nothing older is behind it. -/
theorem byAge_updateFirst_iff {b : List PeerEntry} {id : NodeId} {f : PeerEntry → PeerEntry}
    (h : ByAge b) (hseen : ∀ e ∈ b, e.lastSeen ≤ now) (hf : ∀ e, (f e).lastSeen = now) :
    ByAge (updateFirst id f b) ↔ ∀ e ∈ behind id b, now ≤ e.lastSeen := by
  induction b with
  | nil => exact iff_of_true List.Pairwise.nil (List.forall_mem_nil _)
  | cons e b ih =>
    obtain ⟨hfirst, hrest⟩ := List.pairwise_cons.mp h
    rw [List.forall_mem_cons] at hseen
    rw [updateFirst, behind]
    split_ifs
    · rw [ByAge, List.pairwise_cons, hf, and_iff_left hrest]
    · rw [← ih hrest hseen.2, ByAge, List.pairwise_cons]
      refine and_iff_right fun e' he' ↦ ?_
      rcases mem_updateFirst he' with hold | ⟨e'', -, rfl⟩
      · exact hfirst e' hold
      · rw [hf]
        exact hseen.1

theorem byAge_setBucket_iff (h : ∀ i, ByAge (t.buckets i)) {i : ℕ} {b : List PeerEntry} :
    (∀ j, ByAge ((t.setBucket i b).buckets j)) ↔ ByAge b := by
  refine ⟨fun hafter ↦ ?_, fun hb ↦ forall_setBucket (p := fun _ b ↦ ByAge b) hb h⟩
  rw [← buckets_setBucket_self t i b]
  exact hafter i

theorem byAge_evict_iff (h : ∀ i, ByAge (t.buckets i)) (dead : NodeId) :
    (∀ i, ByAge ((t.evictAndReplace dead).buckets i)) ↔
      ∀ e ∈ t.promoted dead, ∀ e' ∈ t.kept dead, e'.lastSeen ≤ e.lastSeen := by
  have hkept : ByAge (t.kept dead) := (h _).sublist List.filter_sublist
  rw [evictAndReplace_eq, byAge_setBucket_iff (t := t.setReplacement _ _) h]
  rcases t.promoted dead with _ | e
  · rw [Option.toList_none, List.append_nil]
    exact iff_of_true hkept fun e he ↦ absurd he (Option.not_mem_none e)
  · rw [Option.toList_some, byAge_append_iff hkept]
    simp

theorem byAge_insert (h : ∀ i, ByAge (t.buckets i)) (hseen : SeenBy now t) (info : PeerInfo)
    (i : ℕ) : ByAge ((t.insert now info).2.buckets i) := by
  generalize ht' : (t.insert now info).2 = t'
  cases ht' ▸ inserted t now info with
  | keep => exact h i
  | refresh hself hok he =>
    refine (byAge_setBucket_iff h).mpr ((byAge_append_iff ?_).mpr ?_) i
    · exact List.Pairwise.sublist List.eraseP_sublist (h _)
    · exact fun e' he' ↦ hseen.buckets _ e' (List.mem_of_mem_eraseP he')
  | enter hself hok hnew hroom =>
    exact (byAge_setBucket_iff h).mpr ((byAge_append_iff (h _)).mpr (hseen.buckets _)) i
  | wait hself hok hnew hroom => exact h i

/-- **One operation** keeps the order exactly if it comes in turn. -/
theorem byAge_apply_iff (h : ∀ i, ByAge (t.buckets i)) {op : TableOp} (hseen : t.InTime op) :
    (∀ i, ByAge ((t.apply op).buckets i)) ↔ t.InTurn op := by
  cases op with
  | insert now info =>
    exact iff_of_true (byAge_insert h (hseen now rfl) info) fun _ hnone ↦ by cases hnone
  | touchOk now id rttUs =>
    exact (byAge_setBucket_iff h).trans
      (byAge_updateFirst_iff (h _) ((hseen now rfl).buckets _) fun _ ↦ rfl)
  | evictAndReplace dead =>
    refine (byAge_evict_iff h dead).trans ?_
    simp [InTurn, evicts]
  | markFail id =>
    rw [apply]
    rcases he : t.get id with _ | e
    · rw [markFail_of_get_none he]
      exact iff_of_true h (by simp [InTurn, evicts, he])
    by_cases hthree : saturatingSucc e.failCount ≥ 3
    · rw [markFail_of_three he hthree, byAge_evict_iff h]
      simp [InTurn, evicts, he, hthree]
    · rw [markFail_of_few he hthree, byAge_setBucket_iff h]
      refine iff_of_true ?_ (by simp [InTurn, evicts, he, hthree])
      have hsame (n : UInt32) (e : PeerEntry) : (counted n e).lastSeen = e.lastSeen := rfl
      rw [ByAge, ← List.pairwise_map (f := PeerEntry.lastSeen) (R := (· ≤ ·)),
        map_updateFirst (hsame _), List.pairwise_map]
      exact h _

/-- **Recency.** Under a clock that does not go back, the first entry of every bucket is the one
seen least recently throughout a run exactly if every answer and every promotion of the run comes in
turn. -/
theorem leastRecentFirst_throughout_iff (selfId : NodeId) (ops : List TableOp)
    (hclock : (ops.filterMap TableOp.time).Pairwise (· ≤ ·)) :
    Runs.Throughout apply LeastRecentFirst (new selfId) ops ↔
      Runs.Along apply InTurn (new selfId) ops := by
  have hrun : Runs.Along apply InTime (new selfId) ops :=
    along_inTime hclock fun _ _ ↦ ⟨fun _ ↦ List.forall_mem_nil _, fun _ ↦ List.forall_mem_nil _⟩
  have hstart : ∀ i, ByAge ((new selfId).buckets i) := fun _ ↦ List.Pairwise.nil
  refine Runs.throughout_iff_along (I := fun t ↦ ∀ i, ByAge (t.buckets i)) hrun
    (fun t h ↦ leastRecentFirst_iff.mpr h) ?_ ?_ hstart
  · exact fun t op h hseen hturn ↦ (byAge_apply_iff h hseen).mpr hturn
  · exact fun t op h hseen hafter ↦ (byAge_apply_iff h hseen).mp hafter.sorted

/-- Three peers are entered, the last of them answers, and the first is heard of again. -/
theorem leastRecentFirst_throughout_in_turn :
    let ops : List TableOp := [.insert 0 (heardPeer 0 0), .insert 1 (heardPeer 1 1),
      .insert 2 (heardPeer 2 2), .touchOk 3 (heardPeer 2 2).id 900, .insert 4 (heardPeer 0 0)]
    Runs.Throughout apply LeastRecentFirst (new NodeId.zero) ops :=
  (leastRecentFirst_throughout_iff NodeId.zero _ (by decide +kernel)).mpr (by decide +kernel)

/-- Twenty peers that fill their bucket; then the first of them answers. -/
private def answerOps : List TableOp :=
  (List.range 20).map (fun n ↦ .insert n (heardPeer (UInt8.ofNat n) (UInt8.ofNat n))) ++
    [.touchOk 20 (heardPeer 0 0).id 900]

/-- The peer that has just answered is the one that `insert` returns to be checked. -/
theorem leastRecentFirst_fails :
    ¬∀ (selfId : NodeId) (ops : List TableOp),
      (ops.filterMap TableOp.time).Pairwise (· ≤ ·) →
        LeastRecentFirst (ops.foldl apply (new selfId)) := by
  intro h
  have hfull := (h NodeId.zero answerOps (by decide +kernel)).full 21 (heardPeer 20 20)
  revert hfull
  decide +kernel

end RoutingTable

end Molia
