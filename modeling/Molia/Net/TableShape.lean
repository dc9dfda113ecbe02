import Molia.Net.TableOps

/-!
# The shape of the routing table

A bucket and its replacement list hold entries of one distance class, the node itself is in none of
them, and the lists keep to their bounds: this is `Shaped`, and every sequence of insertions,
answers and failures keeps it. An eviction is what makes the bound on a bucket interesting, since it
puts an entry back; the failure count is only kept for peers that are in their bucket, so one entry
has left before.

Two more properties are checked where an entry comes in and lost where it is promoted. No id stands
twice in the table (`NoDuplicates`) as long as an eviction does not promote an entry of a peer that
is already in the bucket, as happens after a peer has been announced again while it waits. And no
bucket has more than eight entries of one `/24` (`Diverse`) as long as an eviction does not promote
a ninth. Both theorems are exact: each says which evictions break the property.
-/

namespace Molia

theorem bucketIndex_lt (a b : NodeId) : bucketIndex a b < 256 := by
  rw [bucketIndex]
  split_ifs
  · decide
  · omega

namespace TableOp

/-- The operations of a node in use: all but the direct eviction. -/
def Routine : TableOp → Prop
  | evictAndReplace _ => False
  | _ => True

instance : DecidablePred Routine
  | evictAndReplace _ => isFalse id
  | insert _ _ | touchOk _ _ _ | markFail _ => isTrue trivial

end TableOp

namespace RoutingTable

variable {t : RoutingTable}

/-! ## Lists of entries -/

theorem map_updateFirst {α : Type*} {g : PeerEntry → α} {f : PeerEntry → PeerEntry}
    (hg : ∀ e, g (f e) = g e) (id : NodeId) (b : List PeerEntry) :
    (updateFirst id f b).map g = b.map g := by
  induction b with
  | nil => rfl
  | cons e b ih =>
    rw [updateFirst]
    split_ifs
    · rw [List.map_cons, List.map_cons, hg]
    · rw [List.map_cons, List.map_cons, ih]

theorem get_eq_none_iff {x : NodeId} : t.get x = none ↔ x ∉ (t.bucketOf x).map PeerEntry.id := by
  rw [get, List.find?_eq_none, List.mem_map]
  simp [bucketOf]

theorem mem_waiting_of_promoted {dead : NodeId} {e : PeerEntry} (h : t.promoted dead = some e) :
    e ∈ t.waiting dead :=
  List.mem_of_getLast? (Option.filter_eq_some_iff.mp h).1

/-- The evicted peer makes room for the promoted one. -/
theorem length_kept_lt {dead : NodeId} {e : PeerEntry} (he : t.get dead = some e) :
    (t.kept dead).length < (t.bucketOf dead).length := by
  refine List.length_filter_lt_length_iff_exists.mpr ⟨e, mem_bucketOf_of_get he, ?_⟩
  simp [id_of_get he]

theorem get_of_evicts {op : TableOp} (hop : op.Routine) {dead : NodeId}
    (h : t.evicts op = some dead) : ∃ e, t.get dead = some e := by
  cases op with
  | insert now info => cases h
  | touchOk now id rttUs => cases h
  | evictAndReplace dead => cases hop
  | markFail id =>
    obtain ⟨e, he, hfails⟩ := Option.bind_eq_some_iff.mp h
    split_ifs at hfails
    obtain rfl := Option.some.inj hfails
    exact ⟨e, he⟩

/-! ## Places -/

/-- Every entry belongs into bucket `i` of the table of `self`, and is not `self`. -/
def Located (self : NodeId) (i : ℕ) (b : List PeerEntry) : Prop :=
  ∀ e ∈ b, bucketIndex self e.id = i ∧ e.id ≠ self

theorem Located.append {self : NodeId} {i : ℕ} {b b' : List PeerEntry} (h : Located self i b)
    (h' : Located self i b') : Located self i (b ++ b') :=
  List.forall_mem_append.mpr ⟨h, h'⟩

theorem Located.subset {self : NodeId} {i : ℕ} {b b' : List PeerEntry} (h : Located self i b)
    (hsub : b' ⊆ b) : Located self i b' := fun e he ↦ h e (hsub he)

theorem located_singleton {self : NodeId} {e : PeerEntry} (h : e.id ≠ self) :
    Located self (bucketIndex self e.id) [e] :=
  List.forall_mem_singleton.mpr ⟨rfl, h⟩

theorem Located.of_map_id {self : NodeId} {i : ℕ} {b b' : List PeerEntry} (h : Located self i b)
    (hids : b'.map PeerEntry.id = b.map PeerEntry.id) : Located self i b' := by
  intro e he
  have hmem : e.id ∈ b.map PeerEntry.id := hids ▸ List.mem_map_of_mem he
  obtain ⟨e', he', hid⟩ := List.mem_map.mp hmem
  rw [← hid]
  exact h e' he'

/-- Every entry of the table is in its place. -/
structure Placed (t : RoutingTable) : Prop where
  buckets : ∀ i, Located t.selfId i (t.buckets i)
  replacement : ∀ i, Located t.selfId i (t.replacement i)

theorem placed_new (selfId : NodeId) : Placed (new selfId) where
  buckets _ := List.forall_mem_nil _
  replacement _ := List.forall_mem_nil _

namespace Placed

theorem setBucket (h : Placed t) {i : ℕ} {b : List PeerEntry} (hb : Located t.selfId i b) :
    Placed (t.setBucket i b) where
  buckets := forall_setBucket hb h.buckets
  replacement := h.replacement

theorem setReplacement (h : Placed t) {i : ℕ} {b : List PeerEntry} (hb : Located t.selfId i b) :
    Placed (t.setReplacement i b) where
  buckets := h.buckets
  replacement := forall_setReplacement hb h.replacement

theorem edit (h : Placed t) {t' : RoutingTable} (hedit : Edit t t') : Placed t' := by
  cases hedit with
  | keep => exact h
  | @refresh now info e hself hok he =>
    have hrest := (h.buckets (bucketIndex t.selfId info.id)).subset
      (List.eraseP_subset (p := fun e : PeerEntry ↦ e.id = info.id))
    exact h.setBucket (hrest.append (located_singleton (e := reentered now info e) hself))
  | @enter now info hself hok hnew hroom =>
    exact h.setBucket ((h.buckets _).append (located_singleton (e := freshEntry now info) hself))
  | @wait now info hself hok hnew hroom =>
    exact h.setReplacement
      ((h.replacement _).append (located_singleton (e := freshEntry now info) hself))
  | @rewrite id f hid haddr =>
    exact h.setBucket ((h.buckets _).of_map_id (map_updateFirst hid id _))

theorem evict (h : Placed t) (dead : NodeId) : Placed (t.evictAndReplace dead) := by
  rw [evictAndReplace_eq]
  have hkept : Located t.selfId (bucketIndex t.selfId dead) (t.kept dead) :=
    (h.buckets _).subset (List.filter_subset_self _)
  have hpromoted : Located t.selfId (bucketIndex t.selfId dead) (t.promoted dead).toList := by
    intro e he
    exact h.replacement _ e (mem_waiting_of_promoted (Option.mem_toList.mp he))
  exact (h.setReplacement ((h.replacement _).subset (List.dropLast_subset _))).setBucket
    (hkept.append hpromoted)

theorem apply (h : Placed t) (op : TableOp) : Placed (t.apply op) := by
  rcases hop : t.evicts op with _ | dead
  · exact h.edit (edit_apply hop)
  · rw [apply_of_evicts hop]
    exact h.evict dead

theorem self_not_mem_closest (h : Placed t) (target : Key) (n : ℕ) :
    t.selfId ∉ (t.closest target n).map PeerInfo.id := by
  intro hself
  obtain ⟨info, hinfo, hid⟩ := List.mem_map.mp hself
  have hmem := (List.mem_insertionSort _).mp (List.mem_of_mem_take hinfo)
  obtain ⟨e, he, rfl⟩ := List.mem_map.mp hmem
  obtain ⟨i, -, hi⟩ := List.mem_flatMap.mp he
  exact (h.buckets i e hi).2 hid

end Placed

theorem placed_foldl (selfId : NodeId) (ops : List TableOp) :
    Placed (ops.foldl apply (new selfId)) :=
  Runs.along_true.invariant (fun _ op h _ ↦ h.apply op) (placed_new selfId)

/-! ## Bounds -/

/-- The lists keep to their bounds. -/
structure Bounded (t : RoutingTable) : Prop where
  k_eq : t.k = kDefault
  buckets : ∀ i, (t.buckets i).length ≤ kDefault
  replacement : ∀ i, (t.replacement i).length ≤ 8

theorem bounded_new (selfId : NodeId) : Bounded (new selfId) where
  k_eq := rfl
  buckets _ := Nat.zero_le _
  replacement _ := Nat.zero_le _

namespace Bounded

theorem min_k (h : Bounded t) : min t.k kMax = kDefault := by
  rw [h.k_eq]
  rfl

theorem setBucket (h : Bounded t) {i : ℕ} {b : List PeerEntry} (hb : b.length ≤ kDefault) :
    Bounded (t.setBucket i b) where
  k_eq := h.k_eq
  buckets := forall_setBucket (p := fun _ b ↦ b.length ≤ kDefault) hb h.buckets
  replacement := h.replacement

theorem setReplacement (h : Bounded t) {i : ℕ} {b : List PeerEntry} (hb : b.length ≤ 8) :
    Bounded (t.setReplacement i b) where
  k_eq := h.k_eq
  buckets := h.buckets
  replacement := forall_setReplacement (p := fun _ b ↦ b.length ≤ 8) hb h.replacement

theorem edit (h : Bounded t) {t' : RoutingTable} (hedit : Edit t t') : Bounded t' := by
  cases hedit with
  | keep => exact h
  | @refresh now info e hself hok he =>
    refine h.setBucket ?_
    -- the entry that is put at the end has been taken out before
    have hlen := List.length_eraseP_of_mem (p := fun e : PeerEntry ↦ decide (e.id = info.id))
      (mem_bucketOf_of_get he) (decide_eq_true (id_of_get he))
    have hpos := List.length_pos_of_mem (mem_bucketOf_of_get he)
    have hle := h.buckets (bucketIndex t.selfId info.id)
    rw [List.length_append, hlen, List.length_singleton, Nat.sub_add_cancel hpos]
    exact hle
  | @enter now info hself hok hnew hroom =>
    refine h.setBucket ?_
    rw [h.min_k] at hroom
    rw [List.length_append, List.length_singleton]
    exact hroom
  | @wait now info hself hok hnew hroom =>
    refine h.setReplacement ?_
    rw [List.length_append, List.length_singleton]
    exact hroom
  | @rewrite id f hid haddr =>
    refine h.setBucket ?_
    have hlen := congrArg List.length (map_updateFirst hid id (t.bucketOf id))
    rw [List.length_map, List.length_map] at hlen
    rw [hlen]
    exact h.buckets _

theorem evict (h : Bounded t) {dead : NodeId} {e : PeerEntry} (he : t.get dead = some e) :
    Bounded (t.evictAndReplace dead) := by
  rw [evictAndReplace_eq]
  refine (h.setReplacement ?_).setBucket ?_
  · have hle : (t.waiting dead).length ≤ 8 := h.replacement _
    rw [List.length_dropLast]
    omega
  · have hless := length_kept_lt he
    have hone : (t.promoted dead).toList.length ≤ 1 := by
      rcases t.promoted dead with _ | e'
      · exact Nat.zero_le 1
      · exact le_refl 1
    have hle : (t.bucketOf dead).length ≤ kDefault := h.buckets _
    rw [List.length_append]
    omega

theorem apply (h : Bounded t) {op : TableOp} (hop : op.Routine) : Bounded (t.apply op) := by
  rcases hevicts : t.evicts op with _ | dead
  · exact h.edit (edit_apply hevicts)
  · obtain ⟨e, he⟩ := get_of_evicts hop hevicts
    rw [apply_of_evicts hevicts]
    exact h.evict he

end Bounded

/-! ## Insertions do not panic -/

/-- The `push` of an `ArrayVec` of capacity `cap`, which panics when the vector is full. -/
def push {α : Type*} (cap : ℕ) (l : List α) (x : α) : Option (List α) :=
  if l.length < cap then some (l ++ [x]) else none

theorem push_of_lt {α : Type*} {cap : ℕ} {l : List α} (h : l.length < cap) (x : α) :
    push cap l x = some (l ++ [x]) := if_pos h

/-- The body of `insert` with its panics: a push onto a full vector, and the first entry of an empty
bucket. -/
def insertOrPanic (t : RoutingTable) (now : ℕ) (info : PeerInfo) :
    Option (Option PeerEntry × RoutingTable) :=
  if info.id = t.selfId then some (none, t)
  else if t.prefixOk info = false then some (none, t)
  else
    let i := bucketIndex t.selfId info.id
    let b := t.buckets i
    match b.find? fun e ↦ e.id = info.id with
    | some e => do
      let e' := { e with info, lastSeen := now, failCount := 0 }
      let b' ← push kMax (b.eraseP fun e ↦ e.id = info.id) e'
      some (none, t.setBucket i b')
    | none =>
      if b.length < min t.k kMax then do
        let b' ← push kMax b (freshEntry now info)
        some (none, t.setBucket i b')
      else do
        let lru ← b[0]?
        if (t.replacement i).length < 8 then do
          let r' ← push 8 (t.replacement i) (freshEntry now info)
          some (some lru, t.setReplacement i r')
        else some (some lru, t)

theorem Bounded.insertOrPanic_eq (h : Bounded t) (now : ℕ) (info : PeerInfo) :
    t.insertOrPanic now info = some (t.insert now info) := by
  rw [insertOrPanic, insert]
  split_ifs with hself hok
  · rfl
  · rfl
  dsimp only
  have hle : (t.buckets (bucketIndex t.selfId info.id)).length ≤ kDefault := h.buckets _
  generalize t.buckets (bucketIndex t.selfId info.id) = b at hle ⊢
  have hcap : kDefault < kMax := by decide
  rcases hfind : b.find? (fun e ↦ e.id = info.id) with _ | e
  · simp only [hfind, h.min_k]
    by_cases hroom : b.length < kDefault
    · rw [if_pos hroom, if_pos hroom, push_of_lt (by omega)]
      rfl
    · -- a full bucket has a first entry
      rw [if_neg hroom, if_neg hroom]
      rcases b with _ | ⟨lru, b⟩
      · exact absurd (by decide) hroom
      · split_ifs with hwait
        · rw [push_of_lt hwait]
          rfl
        · rfl
  · have hrest := List.length_eraseP_le (p := fun e : PeerEntry ↦ decide (e.id = info.id)) (l := b)
    simp only [hfind]
    rw [push_of_lt (by omega)]
    rfl

theorem Edit.selfId_eq {t' : RoutingTable} (h : Edit t t') : t'.selfId = t.selfId := by
  cases h <;> rfl

theorem selfId_apply (t : RoutingTable) (op : TableOp) : (t.apply op).selfId = t.selfId := by
  rcases hop : t.evicts op with _ | dead
  · exact (edit_apply hop).selfId_eq
  · rw [apply_of_evicts hop, evictAndReplace_eq]
    rfl

/-- **The shape of the table.** After any sequence of insertions, answers and failures every entry
is in its place, no entry is that of the node itself, the lists keep to their bounds, and a further
insertion does not panic. -/
theorem table_shape (selfId : NodeId) (ops : List TableOp) (hops : ∀ op ∈ ops, op.Routine) :
    let t := ops.foldl apply (new selfId)
    (∀ i, Located selfId i (t.buckets i) ∧ Located selfId i (t.replacement i)) ∧
      (∀ i, (t.buckets i).length ≤ 20 ∧ (t.replacement i).length ≤ 8) ∧
      ∀ now info, t.insertOrPanic now info = some (t.insert now info) := by
  intro t
  have hrun : Runs.Along apply (fun _ op ↦ op.Routine) (new selfId) ops :=
    Runs.along_of_forall hops
  have hself : t.selfId = selfId :=
    hrun.invariant (I := fun t ↦ t.selfId = selfId) (fun t op h _ ↦ (t.selfId_apply op).trans h) rfl
  have hplaced : Placed t := placed_foldl selfId ops
  have hbounded : Bounded t := hrun.invariant (fun _ _ h hop ↦ h.apply hop) (bounded_new selfId)
  refine ⟨?_, fun i ↦ ⟨hbounded.buckets i, hbounded.replacement i⟩, hbounded.insertOrPanic_eq⟩
  rw [← hself]
  exact fun i ↦ ⟨hplaced.buckets i, hplaced.replacement i⟩

/-- A peer in the bucket farthest from the zero id. -/
private def farId (n : UInt8) : NodeId := ⟨⟨128 :: n :: List.replicate 30 0, rfl⟩⟩

/-- It is at `10.0.c.n`. -/
private def farPeer (n c : UInt8) : PeerInfo := PeerInfo.new (farId n) (.ofV4 10 0 c n 4000)

theorem table_shape_touched :
    let ops : List TableOp :=
      [.insert 0 (farPeer 1 1), .touchOk 5 (farId 1) 900, .markFail (farId 1)]
    let t := ops.foldl apply (new NodeId.zero)
    (∀ i, Located NodeId.zero i (t.buckets i) ∧ Located NodeId.zero i (t.replacement i)) ∧
      (∀ i, (t.buckets i).length ≤ 20 ∧ (t.replacement i).length ≤ 8) ∧
      ∀ now info, t.insertOrPanic now info = some (t.insert now info) :=
  table_shape NodeId.zero _ (by decide)

/-- Twenty peers that fill their bucket, the `n`-th of them in the `/24` number `c n`. -/
private def fillOps (c : ℕ → ℕ) : List TableOp :=
  (List.range 20).map fun n ↦ .insert 0 (farPeer (UInt8.ofNat n) (UInt8.ofNat (c n)))

/-- Three failures in a row. -/
private def failOps (n : UInt8) : List TableOp := List.replicate 3 (.markFail (farId n))

/-! ## Duplicates -/

/-- No id stands twice in the table, and none is returned twice by `closest`. -/
structure NoDuplicates (t : RoutingTable) : Prop where
  peers : (t.allPeers.map PeerEntry.id).Nodup
  closest : ∀ target n, ((t.closest target n).map PeerInfo.id).Nodup

theorem noDuplicates_iff : NoDuplicates t ↔ (t.allPeers.map PeerEntry.id).Nodup := by
  refine ⟨NoDuplicates.peers, fun h ↦ ⟨h, fun target n ↦ ?_⟩⟩
  have hperm : (((t.allPeers.map PeerEntry.info).insertionSort (closerTo target)).map
      PeerInfo.id).Perm (t.allPeers.map PeerEntry.id) := by
    refine ((List.perm_insertionSort _ _).map PeerInfo.id).trans ?_
    rw [List.map_map]
    rfl
  rw [RoutingTable.closest, List.map_take]
  exact (hperm.nodup_iff.mpr h).sublist (List.take_sublist _ _)

theorem Placed.nodup_allPeers_iff (h : Placed t) :
    (t.allPeers.map PeerEntry.id).Nodup ↔ ∀ i, ((t.buckets i).map PeerEntry.id).Nodup := by
  rw [allPeers, List.map_flatMap, List.nodup_flatMap]
  constructor
  · rintro ⟨hbuckets, -⟩ i
    rcases hb : t.buckets i with _ | ⟨e, b⟩
    · exact List.nodup_nil
    · rw [← hb]
      refine hbuckets i (List.mem_range.mpr ?_)
      have he : e ∈ t.buckets i := hb ▸ List.mem_cons_self
      rw [← (h.buckets i e he).1]
      exact bucketIndex_lt _ _
  · intro hbuckets
    refine ⟨fun i _ ↦ hbuckets i, List.nodup_range.pairwise_of_forall_ne ?_⟩
    intro i _ j _ hij id hi hj
    obtain ⟨e, he, rfl⟩ := List.mem_map.mp hi
    obtain ⟨e', he', hid⟩ := List.mem_map.mp hj
    refine hij ?_
    rw [← (h.buckets i e he).1, ← (h.buckets j e' he').1, hid]

/-- An eviction does not promote an entry of a peer that is in the bucket. -/
def Fresh (t : RoutingTable) (op : TableOp) : Prop :=
  ∀ dead e, t.evicts op = some dead → t.promoted dead = some e →
    e.id ∉ (t.kept dead).map PeerEntry.id

theorem nodup_map_append {b : List PeerEntry} (h : (b.map PeerEntry.id).Nodup) {e : PeerEntry}
    (he : e.id ∉ b.map PeerEntry.id) : ((b ++ [e]).map PeerEntry.id).Nodup := by
  rw [List.map_append, List.map_singleton, ← List.concat_eq_append]
  exact h.concat he

/-- A peer that is entered again is taken out before. -/
theorem nodup_refresh {b : List PeerEntry} (h : (b.map PeerEntry.id).Nodup) {x : NodeId}
    {e e' : PeerEntry} (he : e ∈ b) (hx : e.id = x) (hx' : e'.id = x) :
    ((b.eraseP (fun e ↦ e.id = x) ++ [e']).map PeerEntry.id).Nodup := by
  obtain ⟨a, l₁, l₂, -, ha, rfl, herase⟩ :=
    List.exists_of_eraseP (p := fun e : PeerEntry ↦ decide (e.id = x)) he (decide_eq_true hx)
  have hax : a.id = x := of_decide_eq_true ha
  have hperm : ((l₁ ++ l₂ ++ [e']).map PeerEntry.id).Perm ((l₁ ++ a :: l₂).map PeerEntry.id) := by
    simp only [List.map_append, List.map_cons, List.map_nil, hx', hax]
    exact (List.perm_append_singleton x _).trans List.perm_middle.symm
  rw [herase]
  exact hperm.nodup_iff.mpr h

/-- No bucket has an id twice. -/
def Apart (t : RoutingTable) : Prop := ∀ i, ((t.buckets i).map PeerEntry.id).Nodup

namespace Apart

theorem setBucket (h : Apart t) {i : ℕ} {b : List PeerEntry} (hb : (b.map PeerEntry.id).Nodup) :
    Apart (t.setBucket i b) :=
  forall_setBucket (p := fun _ b ↦ (b.map PeerEntry.id).Nodup) hb h

theorem edit (h : Apart t) {t' : RoutingTable} (hedit : Edit t t') : Apart t' := by
  cases hedit with
  | keep => exact h
  | @refresh now info e hself hok he =>
    exact h.setBucket (nodup_refresh (h _) (mem_bucketOf_of_get he) (id_of_get he) rfl)
  | @enter now info hself hok hnew hroom =>
    exact h.setBucket (nodup_map_append (h _) (get_eq_none_iff.mp hnew))
  | wait => exact h
  | @rewrite id f hid haddr =>
    refine h.setBucket ?_
    rw [map_updateFirst hid]
    exact h _

theorem evict (h : Apart t) {dead : NodeId}
    (hfresh : ∀ e, t.promoted dead = some e → e.id ∉ (t.kept dead).map PeerEntry.id) :
    Apart (t.evictAndReplace dead) := by
  rw [evictAndReplace_eq]
  refine setBucket (t := t.setReplacement _ _) h ?_
  have hkept : ((t.kept dead).map PeerEntry.id).Nodup :=
    (h _).sublist (List.filter_sublist.map PeerEntry.id)
  rcases hpromoted : t.promoted dead with _ | e
  · rw [Option.toList_none, List.append_nil]
    exact hkept
  · exact nodup_map_append hkept (hfresh e hpromoted)

end Apart

theorem bucket_of_promoted {op : TableOp} {dead : NodeId} {e : PeerEntry}
    (hop : t.evicts op = some dead) (he : t.promoted dead = some e) :
    (t.apply op).buckets (bucketIndex t.selfId dead) = t.kept dead ++ [e] := by
  rw [apply_of_evicts hop, evictAndReplace_eq, buckets_setBucket_self, he, Option.toList_some]

/-- **Duplicates.** Throughout a run no id stands twice in the table exactly if every eviction of
the run is fresh. -/
theorem noDuplicates_throughout_iff (selfId : NodeId) (ops : List TableOp) :
    Runs.Throughout apply NoDuplicates (new selfId) ops ↔
      Runs.Along apply Fresh (new selfId) ops := by
  refine Runs.throughout_iff_along (I := fun t ↦ Placed t ∧ Apart t) Runs.along_true ?_ ?_ ?_
    ⟨placed_new selfId, fun _ ↦ List.nodup_nil⟩
  · rintro t ⟨hplaced, hapart⟩
    exact noDuplicates_iff.mpr (hplaced.nodup_allPeers_iff.mpr hapart)
  · rintro t op ⟨hplaced, hapart⟩ - hfresh
    refine ⟨hplaced.apply op, ?_⟩
    rcases hop : t.evicts op with _ | dead
    · exact hapart.edit (edit_apply hop)
    · rw [apply_of_evicts hop]
      exact hapart.evict fun e he ↦ hfresh dead e hop he
  · rintro t op ⟨hplaced, hapart⟩ - hafter dead e hop he
    have hnodup := (hplaced.apply op).nodup_allPeers_iff.mp hafter.peers
      (bucketIndex t.selfId dead)
    rw [bucket_of_promoted hop he, List.map_append, List.map_singleton,
      ← List.concat_eq_append, List.nodup_concat] at hnodup
    exact hnodup.1

/-- A peer is announced twice while its bucket is full, and two others fail. -/
private def twiceOps : List TableOp :=
  fillOps id ++ [.insert 0 (farPeer 20 20), .insert 0 (farPeer 20 20)] ++ failOps 0 ++ failOps 1

/-- A peer that waited twice is promoted twice. -/
theorem noDuplicates_fails :
    ¬∀ (selfId : NodeId) (ops : List TableOp), (∀ op ∈ ops, op.Routine) →
      NoDuplicates (ops.foldl apply (new selfId)) := by
  intro h
  have hnodup := (placed_foldl NodeId.zero twiceOps).nodup_allPeers_iff.mp
    (h NodeId.zero twiceOps (by decide +kernel)).peers 255
  revert hnodup
  decide +kernel

/-! ## Address diversity -/

/-- The number of entries with a primary address in a `/24`. -/
def crowd (p : UInt8 × UInt8 × UInt8) (b : List PeerEntry) : ℕ :=
  b.countP fun e ↦ e.info.primaryAddr.bind prefix24 == some p

/-- At most eight entries of a bucket are of one `/24`. -/
def Diverse (t : RoutingTable) : Prop := ∀ i p, crowd p (t.buckets i) ≤ 8

/-- An eviction does not promote a ninth entry of one `/24`. -/
def Spread (t : RoutingTable) (op : TableOp) : Prop :=
  ∀ dead e p, t.evicts op = some dead → t.promoted dead = some e →
    e.info.primaryAddr.bind prefix24 = some p → crowd p (t.kept dead) < 8

theorem prefixOk_iff {info : PeerInfo} : t.prefixOk info = true ↔
    ∀ p, info.primaryAddr.bind prefix24 = some p → crowd p (t.bucketOf info.id) < 8 := by
  rw [prefixOk]
  rcases info.primaryAddr.bind prefix24 with _ | p
  · simp
  · simp [crowd, bucketOf]

theorem crowd_eq_countP_map (p : UInt8 × UInt8 × UInt8) (b : List PeerEntry) :
    crowd p b
      = (b.map fun e ↦ e.info.primaryAddr).countP fun a ↦ a.bind prefix24 == some p := by
  rw [List.countP_map]
  rfl

theorem crowd_append_singleton (p : UInt8 × UInt8 × UInt8) (b : List PeerEntry) (e : PeerEntry) :
    crowd p (b ++ [e])
      = crowd p b + if e.info.primaryAddr.bind prefix24 = some p then 1 else 0 := by
  rw [crowd, List.countP_append, List.countP_singleton]
  simp [crowd]

theorem crowd_le_of_sublist {b b' : List PeerEntry} (h : b'.Sublist b)
    (p : UInt8 × UInt8 × UInt8) : crowd p b' ≤ crowd p b := h.countP_le

theorem crowd_append_le {b : List PeerEntry} {e : PeerEntry} (h : ∀ p, crowd p b ≤ 8)
    (he : ∀ p, e.info.primaryAddr.bind prefix24 = some p → crowd p b < 8)
    (p : UInt8 × UInt8 × UInt8) : crowd p (b ++ [e]) ≤ 8 := by
  rw [crowd_append_singleton]
  split_ifs with hp
  · exact he p hp
  · exact h p

namespace Diverse

theorem setBucket (h : Diverse t) {i : ℕ} {b : List PeerEntry} (hb : ∀ p, crowd p b ≤ 8) :
    Diverse (t.setBucket i b) :=
  forall_setBucket (p := fun _ b ↦ ∀ p, crowd p b ≤ 8) hb h

theorem edit (h : Diverse t) {t' : RoutingTable} (hedit : Edit t t') : Diverse t' := by
  cases hedit with
  | keep => exact h
  | @refresh now info e hself hok he =>
    refine h.setBucket ?_
    have hrest := crowd_le_of_sublist
      (List.eraseP_sublist (p := fun e ↦ decide (e.id = info.id)) (l := t.bucketOf info.id))
    exact crowd_append_le (fun p ↦ (hrest p).trans (h _ p))
      fun p hp ↦ (hrest p).trans_lt (prefixOk_iff.mp hok p hp)
  | @enter now info hself hok hnew hroom =>
    exact h.setBucket (crowd_append_le (h _) (prefixOk_iff.mp hok))
  | wait => exact h
  | @rewrite id f hid haddr =>
    refine h.setBucket ?_
    intro p
    rw [crowd_eq_countP_map, map_updateFirst haddr, ← crowd_eq_countP_map]
    exact h _ p

theorem evict (h : Diverse t) {dead : NodeId}
    (hspread : ∀ e p, t.promoted dead = some e → e.info.primaryAddr.bind prefix24 = some p →
      crowd p (t.kept dead) < 8) : Diverse (t.evictAndReplace dead) := by
  rw [evictAndReplace_eq]
  refine setBucket (t := t.setReplacement _ _) h ?_
  have hkept : ∀ p, crowd p (t.kept dead) ≤ 8 := fun p ↦
    (crowd_le_of_sublist List.filter_sublist p).trans (h _ p)
  rcases hpromoted : t.promoted dead with _ | e
  · rw [Option.toList_none, List.append_nil]
    exact hkept
  · exact crowd_append_le hkept fun p hp ↦ hspread e p hpromoted hp

end Diverse

/-- **Address diversity.** Throughout a run no bucket has more than eight entries of one `/24`
exactly if no eviction of the run promotes a ninth. -/
theorem diverse_throughout_iff (selfId : NodeId) (ops : List TableOp) :
    Runs.Throughout apply Diverse (new selfId) ops ↔ Runs.Along apply Spread (new selfId) ops := by
  refine Runs.throughout_iff_along Runs.along_true (fun _ h ↦ h) ?_ ?_ fun _ _ ↦ Nat.zero_le 8
  · intro t op h _ hspread
    rcases hop : t.evicts op with _ | dead
    · exact h.edit (edit_apply hop)
    · rw [apply_of_evicts hop]
      exact h.evict fun e p he hp ↦ hspread dead e p hop he hp
  · intro t op h _ hafter dead e p hop he hp
    have hle := hafter (bucketIndex t.selfId dead) p
    rw [bucket_of_promoted hop he, crowd_append_singleton, if_pos hp] at hle
    exact hle

/-- Seven of twenty peers are of one `/24`, two more of it wait, and two others fail. -/
private def ninthOps : List TableOp :=
  fillOps (min 13) ++ [.insert 0 (farPeer 20 13), .insert 0 (farPeer 21 13)]
    ++ failOps 0 ++ failOps 1

/-- Both that waited were let in when there were seven, and both are promoted. -/
theorem diverse_fails :
    ¬∀ (selfId : NodeId) (ops : List TableOp), (∀ op ∈ ops, op.Routine) →
      Diverse (ops.foldl apply (new selfId)) := by
  intro h
  have hnine := h NodeId.zero ninthOps (by decide +kernel) 255 (10, 0, 13)
  revert hnine
  decide +kernel

end RoutingTable

end Molia
