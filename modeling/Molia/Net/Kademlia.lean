import Mathlib.Data.Finset.Basic
import Molia.General.XorMetric
import Molia.Net.BitLength
import Molia.Net.LookupHistory
import Molia.Net.LookupOrder

/-!
# Finding the nearest node

In an overlay every node knows somebody in each of its buckets that is not empty, and knows nobody
but nodes. That much is enough to find the node nearest to a target, although a node answers with a
few peers of its own table only. Let `z` be that node. In the table of any other node `x` there is a
peer that first differs from `x` at the same bit as `z`; whoever is nearest to the target in that
table agrees with `z` from that bit on (`XorMetric.size_xor_lt`), so the answer of `x` brings a node
that is nearer to `z` by a bit.

Asked one after the other, the nodes lead to `z` in at most 256 hops (`hops_reach_nearest`). A
lookup asks several at once, and in any order; when it settles, the nearest peer of its shortlist
has answered, and if that peer were not `z` its answer would have brought a nearer one
(`lookup_finds_nearest`).

An overlay is what the nodes arrive at by being told of each other: a bucket into which a peer is
inserted is not empty, whether or not the peer is taken in (`Overlay.ofIntroductions`).
-/

namespace Molia

/-- The number of bits from which on two ids agree. -/
def rank (x z : NodeId) : ℕ := (x.val.toNat ^^^ z.val.toNat).size

theorem rank_eq {x z : NodeId} (h : x ≠ z) : rank x z = bucketIndex x z + 1 := by
  have hpos := Nat.size_pos.mpr (xor_toNat_pos h)
  rw [rank, bucketIndex_eq, Nat.sub_add_cancel hpos]

@[simp] theorem rank_self (z : NodeId) : rank z z = 0 := by
  rw [rank, Nat.xor_self, Nat.size_zero]

theorem rank_le (x z : NodeId) : rank x z ≤ bucketIndex x z + 1 := by
  by_cases h : x = z
  · rw [h, rank_self]
    exact Nat.zero_le _
  · exact (rank_eq h).le

theorem eq_of_rank_eq_zero {x z : NodeId} (h : rank x z = 0) : x = z := by
  by_contra hne
  rw [rank_eq hne] at h
  exact absurd h (Nat.succ_ne_zero _)

namespace RoutingTable

variable {t : RoutingTable}

theorem mem_allPeers_of_mem_bucket {i : ℕ} (hi : i < 256) {e : PeerEntry} (he : e ∈ t.buckets i) :
    e ∈ t.allPeers :=
  List.mem_flatMap.mpr ⟨i, List.mem_range.mpr hi, he⟩

theorem head_closest_le {target : Key} {n : ℕ} {q : PeerInfo} {rest : List PeerInfo}
    (h : t.closest target n = q :: rest) {e : PeerEntry} (he : e ∈ t.allPeers) :
    distance q.id target ≤ distance e.id target := by
  have htake : (t.byDistance target).take (min n kMax) = q :: rest := h
  obtain ⟨tail, hall⟩ : ∃ tail, t.byDistance target = q :: tail := by
    refine ⟨rest ++ (t.byDistance target).drop (min n kMax), ?_⟩
    rw [← List.cons_append, ← htake, List.take_append_drop]
  have hmem : e.info ∈ t.byDistance target :=
    (List.mem_insertionSort _).mpr (List.mem_map_of_mem he)
  have hsorted := t.pairwise_byDistance target
  rw [hall] at hmem hsorted
  rcases List.mem_cons.mp hmem with heq | htail
  · rw [← heq]
    exact Nat.le_refl _
  · exact (List.pairwise_cons.mp hsorted).1 e.info htail

theorem exists_mem_of_mem_closest {target : Key} {n : ℕ} {q : PeerInfo}
    (h : q ∈ t.closest target n) : ∃ e ∈ t.allPeers, e.info = q :=
  List.mem_map.mp ((List.mem_insertionSort _).mp (List.mem_of_mem_take h))

theorem closest_ne_nil {target : Key} {n : ℕ} (hn : 0 < n) {e : PeerEntry} (he : e ∈ t.allPeers) :
    t.closest target n ≠ [] := by
  intro hnil
  have htake : (t.byDistance target).take (min n kMax) = [] := hnil
  rcases List.take_eq_nil_iff.mp htake with hzero | hempty
  · rw [kMax] at hzero
    omega
  · have hmem : e.info ∈ t.byDistance target :=
      (List.mem_insertionSort _).mpr (List.mem_map_of_mem he)
    rw [hempty] at hmem
    exact absurd hmem List.not_mem_nil

/-! ### Introductions -/

/-- The table of a node that is told of peers, one after the other. -/
def introduced (x : NodeId) (peers : List (ℕ × PeerInfo)) : RoutingTable :=
  peers.foldl (fun t p ↦ (t.insert p.1 p.2).2) (new x)

variable {t' : RoutingTable} {now : ℕ} {info : PeerInfo}

theorem bucket_setBucket_ne_nil {i j : ℕ} {b : List PeerEntry} (h : t.buckets i ≠ [])
    (hb : b ≠ []) : (t.setBucket j b).buckets i ≠ [] := by
  change Function.update t.buckets j b i ≠ []
  rw [Function.update_apply]
  split_ifs
  · exact hb
  · exact h

theorem Inserted.bucket_ne_nil (h : Inserted t now info t') {i : ℕ} (hi : t.buckets i ≠ []) :
    t'.buckets i ≠ [] := by
  cases h with
  | keep => exact hi
  | refresh hself hok he => exact bucket_setBucket_ne_nil hi (by simp)
  | enter hself hok hnew hroom => exact bucket_setBucket_ne_nil hi (by simp)
  | wait hself hok hnew hroom => exact hi

/-- The bucket of a peer is not empty after its insertion: if the peer is turned away, the bucket is
full or holds eight peers of its network. -/
theorem bucket_insert_ne_nil (hk : 0 < t.k) (hself : info.id ≠ t.selfId) :
    (t.insert now info).2.buckets (bucketIndex t.selfId info.id) ≠ [] := by
  by_cases hempty : t.buckets (bucketIndex t.selfId info.id) = []
  · have hok : t.prefixOk info = true := by
      simp only [prefixOk, hempty, List.countP_nil]
      split
      · rfl
      · rfl
    have hroom : ([] : List PeerEntry).length < min t.k kMax := by
      rw [List.length_nil, kMax]
      omega
    simp only [insert, if_neg hself, hok, hempty, List.find?_nil, if_pos hroom, Bool.true_eq_false,
      if_false]
    change Function.update t.buckets _ _ _ ≠ []
    rw [Function.update_self]
    simp
  · exact (inserted t now info).bucket_ne_nil hempty

theorem mem_bucket_setBucket {i j : ℕ} {b : List PeerEntry} {e : PeerEntry}
    (h : e ∈ (t.setBucket j b).buckets i) : e ∈ b ∨ e ∈ t.buckets i := by
  change e ∈ Function.update t.buckets j b i at h
  rw [Function.update_apply] at h
  split_ifs at h
  · exact Or.inl h
  · exact Or.inr h

theorem Inserted.mem_bucket (h : Inserted t now info t') {i : ℕ} {e : PeerEntry}
    (he : e ∈ t'.buckets i) : e.id = info.id ∨ ∃ j, e ∈ t.buckets j := by
  cases h with
  | keep => exact Or.inr ⟨i, he⟩
  | refresh hself hok hget =>
    rcases mem_bucket_setBucket he with hnew | hold
    · rcases List.mem_append.mp hnew with hrest | hlast
      · exact Or.inr ⟨_, List.mem_of_mem_eraseP hrest⟩
      · rw [List.mem_singleton.mp hlast]
        exact Or.inl rfl
    · exact Or.inr ⟨i, hold⟩
  | enter hself hok hnew hroom =>
    rcases mem_bucket_setBucket he with hnew | hold
    · rcases List.mem_append.mp hnew with hrest | hlast
      · exact Or.inr ⟨_, hrest⟩
      · rw [List.mem_singleton.mp hlast]
        exact Or.inl rfl
    · exact Or.inr ⟨i, hold⟩
  | wait hself hok hnew hroom => exact Or.inr ⟨i, he⟩

theorem Inserted.frame (h : Inserted t now info t') : t'.selfId = t.selfId ∧ t'.k = t.k := by
  cases h with
  | keep => exact ⟨rfl, rfl⟩
  | refresh hself hok he => exact ⟨rfl, rfl⟩
  | enter hself hok hnew hroom => exact ⟨rfl, rfl⟩
  | wait hself hok hnew hroom => exact ⟨rfl, rfl⟩

/-- What a node knows that is told of peers. -/
structure Introduced (x : NodeId) (peers : List (ℕ × PeerInfo)) (t : RoutingTable) : Prop where
  selfId_eq : t.selfId = x
  k_eq : t.k = kDefault
  placed : t.Placed
  known : ∀ i, ∀ e ∈ t.buckets i, ∃ p ∈ peers, p.2.id = e.id
  covers : ∀ p ∈ peers, p.2.id ≠ x → t.buckets (bucketIndex x p.2.id) ≠ []

theorem introduced_introduced (x : NodeId) (peers : List (ℕ × PeerInfo)) :
    Introduced x peers (introduced x peers) := by
  induction peers using List.reverseRecOn with
  | nil =>
    exact ⟨rfl, rfl, placed_new x, fun _ _ he ↦ absurd he List.not_mem_nil,
      fun _ hp ↦ absurd hp List.not_mem_nil⟩
  | append_singleton peers p ih =>
    rw [introduced, List.foldl_append, List.foldl_cons, List.foldl_nil]
    have hins := inserted (introduced x peers) p.1 p.2
    obtain ⟨hself, hk⟩ := hins.frame
    refine ⟨hself.trans ih.selfId_eq, hk.trans ih.k_eq, ih.placed.edit hins.edit, ?_, ?_⟩
    · intro i e he
      rcases hins.mem_bucket he with hid | ⟨j, hold⟩
      · exact ⟨p, List.mem_append_right _ List.mem_cons_self, hid.symm⟩
      · obtain ⟨q, hq, hid⟩ := ih.known j e hold
        exact ⟨q, List.mem_append_left _ hq, hid⟩
    · intro q hq hne
      rcases List.mem_append.mp hq with hold | hlast
      · exact hins.bucket_ne_nil (ih.covers q hold hne)
      · rw [List.mem_singleton.mp hlast] at hne ⊢
        have hpos : 0 < (introduced x peers).k := ih.k_eq ▸ (by decide : 0 < kDefault)
        have hother : p.2.id ≠ (introduced x peers).selfId := ih.selfId_eq.symm ▸ hne
        have hbucket := @bucket_insert_ne_nil _ p.1 _ hpos hother
        rwa [ih.selfId_eq] at hbucket

end RoutingTable

/-! ## Overlays -/

/-- A network in which every node knows somebody in each of its buckets that is not empty. -/
structure Overlay where
  nodes : Finset NodeId
  table : NodeId → RoutingTable
  selfId_eq : ∀ x ∈ nodes, (table x).selfId = x
  placed : ∀ x ∈ nodes, (table x).Placed
  /-- Whoever is in a table is a node. -/
  known : ∀ x ∈ nodes, ∀ e ∈ (table x).allPeers, e.id ∈ nodes
  /-- There is an entry in the bucket of every other node. -/
  covers : ∀ x ∈ nodes, ∀ y ∈ nodes, y ≠ x → (table x).buckets (bucketIndex x y) ≠ []

namespace Overlay

variable {o : Overlay} {target : Key} {x z : NodeId} {n : ℕ}

/-- The node nearest to a target. -/
structure IsNearest (o : Overlay) (target : Key) (z : NodeId) : Prop where
  mem : z ∈ o.nodes
  le : ∀ x ∈ o.nodes, distance z target ≤ distance x target

theorem mem_nodes_of_mem_closest (hx : x ∈ o.nodes) {q : PeerInfo}
    (hq : q ∈ (o.table x).closest target n) : q.id ∈ o.nodes := by
  obtain ⟨e, he, rfl⟩ := RoutingTable.exists_mem_of_mem_closest hq
  exact o.known x hx e he

/-- A node knows somebody in the bucket of every other node. -/
theorem exists_entry (hx : x ∈ o.nodes) {y : NodeId} (hy : y ∈ o.nodes) (hne : y ≠ x) :
    ∃ e ∈ (o.table x).allPeers, rank x e.id = rank x y := by
  obtain ⟨e, he⟩ := List.exists_mem_of_ne_nil _ (o.covers x hx y hy hne)
  obtain ⟨hbucket, hself⟩ := (o.placed x hx).buckets _ e he
  rw [o.selfId_eq x hx] at hbucket hself
  refine ⟨e, RoutingTable.mem_allPeers_of_mem_bucket (bucketIndex_lt x y) he, ?_⟩
  rw [rank_eq hself.symm, rank_eq hne.symm, hbucket]

/-- **One answer.** A node other than the nearest one answers with a node first that is nearer to
the nearest one by a bit, and nearer to the target. -/
theorem IsNearest.answer (hz : o.IsNearest target z) (hx : x ∈ o.nodes) (hne : x ≠ z)
    (hn : 0 < n) :
    ∃ q rest, (o.table x).closest target n = q :: rest ∧ q.id ∈ o.nodes ∧
      rank q.id z < rank x z ∧ distance q.id target < distance x target := by
  obtain ⟨e, he, hrank⟩ := exists_entry hx hz.mem hne.symm
  rcases hanswer : (o.table x).closest target n with _ | ⟨q, rest⟩
  · exact absurd hanswer (RoutingTable.closest_ne_nil hn he)
  have hmem : q ∈ (o.table x).closest target n := by
    rw [hanswer]
    exact List.mem_cons_self
  have hq : q.id ∈ o.nodes := mem_nodes_of_mem_closest hx hmem
  have hrank' : rank q.id z < rank x z :=
    XorMetric.size_xor_lt (xor_toNat_pos hne) hrank (hz.le q.id hq)
      (RoutingTable.head_closest_le hanswer he)
  exact ⟨q, rest, rfl, hq, hrank', XorMetric.xor_lt_of_size_lt (hz.le x hx) hrank'⟩

/-- Nodes that have been told of nodes only, and of one in the bucket of every other node. -/
def ofIntroductions (nodes : Finset NodeId) (told : NodeId → List (ℕ × PeerInfo))
    (hknown : ∀ x ∈ nodes, ∀ p ∈ told x, p.2.id ∈ nodes)
    (hcovers : ∀ x ∈ nodes, ∀ y ∈ nodes, y ≠ x →
      ∃ p ∈ told x, p.2.id ≠ x ∧ bucketIndex x p.2.id = bucketIndex x y) : Overlay where
  nodes := nodes
  table x := RoutingTable.introduced x (told x)
  selfId_eq x _ := (RoutingTable.introduced_introduced x (told x)).selfId_eq
  placed x _ := (RoutingTable.introduced_introduced x (told x)).placed
  known x hx e he := by
    obtain ⟨i, -, hi⟩ := List.mem_flatMap.mp he
    obtain ⟨p, hp, hid⟩ := (RoutingTable.introduced_introduced x (told x)).known i e hi
    rw [← hid]
    exact hknown x hx p hp
  covers x hx y hy hne := by
    obtain ⟨p, hp, hself, hbucket⟩ := hcovers x hx y hy hne
    rw [← hbucket]
    exact (RoutingTable.introduced_introduced x (told x)).covers p hp hself

/-! ## Hops -/

/-- Go to the nearest peer that a node answers with, or stay if it is no nearer. -/
def hop (o : Overlay) (target : Key) (n : ℕ) (x : NodeId) : NodeId :=
  match (o.table x).closest target n with
  | [] => x
  | q :: _ => if distance q.id target < distance x target then q.id else x

theorem IsNearest.hop_self (hz : o.IsNearest target z) (n : ℕ) : o.hop target n z = z := by
  rw [hop]
  split
  · rfl
  · rename_i q rest hanswer
    have hq : q ∈ (o.table z).closest target n := by
      rw [hanswer]
      exact List.mem_cons_self
    exact if_neg (Nat.not_lt.mpr (hz.le q.id (mem_nodes_of_mem_closest hz.mem hq)))

theorem IsNearest.hop_of_ne (hz : o.IsNearest target z) (hx : x ∈ o.nodes) (hne : x ≠ z)
    (hn : 0 < n) : o.hop target n x ∈ o.nodes ∧ rank (o.hop target n x) z < rank x z := by
  obtain ⟨q, rest, hanswer, hq, hrank, hlt⟩ := hz.answer hx hne hn
  rw [hop, hanswer]
  dsimp only
  rw [if_pos hlt]
  exact ⟨hq, hrank⟩

theorem IsNearest.iterate_hop (hz : o.IsNearest target z) (hn : 0 < n) {k : ℕ}
    (hx : x ∈ o.nodes) (hk : rank x z ≤ k) : (o.hop target n)^[k] x = z := by
  induction k generalizing x with
  | zero => exact eq_of_rank_eq_zero (Nat.le_zero.mp hk)
  | succ k ih =>
    rw [Function.iterate_succ_apply]
    by_cases hne : x = z
    · rw [hne, hz.hop_self]
      exact ih hz.mem (by rw [rank_self]; exact Nat.zero_le k)
    · obtain ⟨hmem, hlt⟩ := hz.hop_of_ne hx hne hn
      exact ih hmem (by omega)

/-- **Hops.** From every node of an overlay, going on to the nearest peer that each node answers
with leads to the node nearest to the target, after at most as many hops as the number of its
bucket at the start says, and one; so after at most 256. There it stays. -/
theorem hops_reach_nearest (o : Overlay) (target : Key) (n : ℕ) (hn : 0 < n) {z : NodeId}
    (hz : o.IsNearest target z) (x : NodeId) (hx : x ∈ o.nodes) :
    bucketIndex x z + 1 ≤ 256 ∧
      ∀ k, bucketIndex x z + 1 ≤ k → (o.hop target n)^[k] x = z :=
  ⟨bucketIndex_lt x z, fun _ hk ↦ hz.iterate_hop hn hx ((rank_le x z).trans hk)⟩

/-- Three nodes; the first knows the second only. -/
private def threeNodes : Overlay :=
  ofIntroductions {⟨.fill 1⟩, ⟨.fill 2⟩, ⟨.fill 3⟩}
    (fun x ↦
      if x = ⟨.fill 1⟩ then [(0, Lookup.seedPeer 2)]
      else if x = ⟨.fill 2⟩ then [(0, Lookup.seedPeer 1), (0, Lookup.seedPeer 3)]
      else [(0, Lookup.seedPeer 1), (0, Lookup.seedPeer 2)])
    (by decide +kernel) (by decide +kernel)

private theorem isNearest_three : threeNodes.IsNearest ⟨.fill 3⟩ ⟨.fill 3⟩ :=
  ⟨by decide +kernel, by decide +kernel⟩

/-- From the first node to the third. -/
theorem hops_reach_nearest_third :
    threeNodes.hop ⟨.fill 3⟩ 8 ⟨.fill 1⟩ = ⟨.fill 2⟩ ∧
      (threeNodes.hop ⟨.fill 3⟩ 8)^[256] ⟨.fill 1⟩ = ⟨.fill 3⟩ := by
  obtain ⟨hle, hreach⟩ := hops_reach_nearest threeNodes ⟨.fill 3⟩ 8 (by decide) isNearest_three
    ⟨.fill 1⟩ (by decide +kernel)
  exact ⟨by decide +kernel, hreach 256 hle⟩

/-! ## Lookups -/

/-- An answer is what a node answers with: the `n` nearest peers of its table. No record is found,
and what is sent or given up does not matter. -/
def Honest (o : Overlay) (target : Key) (n : ℕ) : LookupOp → Prop
  | .onCloser sender peers _ => sender ∈ o.nodes ∧
      peers.map PeerInfo.id = ((o.table sender).closest target n).map PeerInfo.id
  | .onProviders sender _ closer => sender ∈ o.nodes ∧
      closer.map PeerInfo.id = ((o.table sender).closest target n).map PeerInfo.id
  | .onRecord _ _ => False
  | .dispatch _ _ => True
  | .onTimeouts _ => True

instance (o : Overlay) (target : Key) (n : ℕ) : DecidablePred (o.Honest target n)
  | .onCloser _ _ _ => inferInstanceAs (Decidable (_ ∧ _))
  | .onProviders _ _ _ => inferInstanceAs (Decidable (_ ∧ _))
  | .onRecord _ _ => isFalse id
  | .dispatch _ _ => isTrue trivial
  | .onTimeouts _ => isTrue trivial

theorem Honest.mem_nodes {op : LookupOp} (h : o.Honest target n op) {id : NodeId}
    (hid : id ∈ op.delivered.map PeerInfo.id) : id ∈ o.nodes := by
  have hpeers : ∀ {sender : NodeId} {peers : List PeerInfo}, sender ∈ o.nodes ∧
      peers.map PeerInfo.id = ((o.table sender).closest target n).map PeerInfo.id →
      id ∈ peers.map PeerInfo.id → id ∈ o.nodes := by
    rintro sender peers ⟨hsender, hpeers⟩ hid
    rw [hpeers] at hid
    obtain ⟨q, hq, rfl⟩ := List.mem_map.mp hid
    exact mem_nodes_of_mem_closest hsender hq
  cases op with
  | onCloser sender peers rttUs => exact hpeers h hid
  | onProviders sender providers closer => exact hpeers h hid
  | onRecord sender rec => exact h.elim
  | dispatch now sends => exact absurd hid List.not_mem_nil
  | onTimeouts now => exact absurd hid List.not_mem_nil

theorem Honest.delivered_of_answered {op : LookupOp} {l : Lookup} {id : NodeId}
    (h : o.Honest target n op) (hev : (id, .answered) ∈ l.events op) :
    op.delivered.map PeerInfo.id = ((o.table id).closest target n).map PeerInfo.id := by
  cases op with
  | onCloser sender peers rttUs =>
    obtain rfl : id = sender := congrArg Prod.fst (List.mem_singleton.mp hev)
    exact h.2
  | onProviders sender providers closer =>
    obtain rfl : id = sender := congrArg Prod.fst (List.mem_singleton.mp hev)
    exact h.2
  | onRecord sender rec => exact h.elim
  | dispatch now sends => simp [Lookup.events] at hev
  | onTimeouts now => simp [Lookup.events] at hev

theorem exists_delivered_of_answered {ops : List LookupOp} {l : Lookup} {id : NodeId}
    (h : ∀ op ∈ ops, o.Honest target n op) (hev : (id, .answered) ∈ l.history ops) :
    ((o.table id).closest target n).map PeerInfo.id ⊆
      (ops.flatMap LookupOp.delivered).map PeerInfo.id := by
  induction ops generalizing l with
  | nil => exact absurd hev List.not_mem_nil
  | cons op ops ih =>
    obtain ⟨hop, hops⟩ := List.forall_mem_cons.mp h
    rw [List.flatMap_cons, List.map_append]
    rcases List.mem_append.mp hev with hnow | hlater
    · rw [← hop.delivered_of_answered hnow]
      exact List.subset_append_left _ _
    · exact List.subset_append_of_subset_right _ (ih hops hlater)

/-- The head of a shortlist of nodes is the nearest node if its answer is in the shortlist. -/
theorem IsNearest.eq_of_answer_subset (hz : o.IsNearest target z) (hn : 0 < n) {l : Lookup}
    (hsorted : l.InOrder target) {p : PeerInfo} {rest : List PeerInfo}
    (hl : l.shortlist = p :: rest) (hp : p.id ∈ o.nodes)
    (hanswer : ((o.table p.id).closest target n).map PeerInfo.id ⊆
      l.shortlist.map PeerInfo.id) : p.id = z := by
  by_contra hne
  obtain ⟨q, tail, hclosest, -, -, hlt⟩ := hz.answer hp hne hn
  rw [hclosest] at hanswer
  obtain ⟨r, hr, hid⟩ := List.mem_map.mp (hanswer List.mem_cons_self)
  have horder := hsorted.sorted
  rw [hl] at hr horder
  rcases List.mem_cons.mp hr with rfl | hrest
  · rw [← hid] at hlt
    exact absurd hlt (Nat.lt_irrefl _)
  · have hle := distance_le_of_closerTo ((List.pairwise_cons.mp horder).1 r hrest)
    rw [hid] at hle
    exact absurd hlt (Nat.not_lt.mpr hle)

/-- When a lookup has exhausted its peers, the nearest of them has answered unless it has timed out
twice. -/
theorem answered_of_exhausted {now₀ : ℕ} {kind : LookupKind} {seeds : List PeerInfo}
    {privacy : PrivacyMode} {ops : List LookupOp} (hseeds : (seeds.map PeerInfo.id).Nodup)
    (hops : Runs.Along Lookup.step Lookup.Proper (Lookup.new now₀ kind target seeds privacy) ops)
    (hexhausted : (ops.foldl Lookup.step (Lookup.new now₀ kind target seeds privacy)).Exhausted)
    {p : PeerInfo} {rest : List PeerInfo}
    (hl : (ops.foldl Lookup.step (Lookup.new now₀ kind target seeds privacy)).shortlist
      = p :: rest)
    (hlive : ((Lookup.new now₀ kind target seeds privacy).history ops).count (p.id, .timedOut)
      ≠ 2) :
    (p.id, .sent) ∈ (Lookup.new now₀ kind target seeds privacy).history ops ∧
      (p.id, .answered) ∈ (Lookup.new now₀ kind target seeds privacy).history ops := by
  have hnew := Lookup.sound_new now₀ kind target privacy hseeds
  obtain ⟨hflight, hqueried⟩ := hexhausted
  have hp := hqueried p (by rw [(hnew.run hops).k_eq, hl, kDefault]; exact List.mem_cons_self)
  have hclosed : (ops.foldl Lookup.step (Lookup.new now₀ kind target seeds privacy)).phase p.id
      = .closed := by
    rw [Lookup.phase, hflight, List.map_nil, if_neg List.not_mem_nil, if_pos hp]
  have hrun := Lookup.run_history hnew hops p.id
  rw [hclosed, Lookup.phase_new] at hrun
  obtain ⟨hsent, ⟨a, b, heq, hb⟩ | htwice⟩ := Retry.settled_of_run hrun
  · refine ⟨hsent, ?_⟩
    rw [heq]
    exact List.mem_append_right _ (List.mem_cons_of_mem _ hb)
  · exact absurd htwice hlive

/-- **A lookup finds the nearest node.** In every run from some nodes as seeds, with any answers of
nodes in any order and with repetitions, and requests to members of the batches: when the last
operation ends the lookup, and not for the time, and nobody has timed out twice, the node nearest to
the target is the first of the result, and it was asked and answered. -/
theorem lookup_finds_nearest (o : Overlay) (now₀ : ℕ) (kind : LookupKind) (target : Key)
    (seeds : List PeerInfo) (privacy : PrivacyMode) (n : ℕ) (ops : List LookupOp) (op : LookupOp)
    (hn : 0 < n) {z : NodeId} (hz : o.IsNearest target z)
    (hseeds : (seeds.map PeerInfo.id).Nodup) (hnodes : ∀ p ∈ seeds, p.id ∈ o.nodes)
    (hne : seeds ≠ [])
    (hops : Runs.Along Lookup.step Lookup.Proper (Lookup.new now₀ kind target seeds privacy)
      (ops ++ [op]))
    (hhonest : ∀ op' ∈ ops ++ [op], o.Honest target n op')
    (hbefore : (ops.foldl Lookup.step (Lookup.new now₀ kind target seeds privacy)).done = false)
    (hafter :
      ((ops ++ [op]).foldl Lookup.step (Lookup.new now₀ kind target seeds privacy)).done = true)
    (htime : ∀ now sends, op = .dispatch now sends → now - now₀ < 1500 * millis)
    (hlive : ∀ p ∈ ((ops ++ [op]).foldl Lookup.step
        (Lookup.new now₀ kind target seeds privacy)).shortlist,
      ((Lookup.new now₀ kind target seeds privacy).history (ops ++ [op])).count (p.id, .timedOut)
        ≠ 2) :
    let l := (ops ++ [op]).foldl Lookup.step (Lookup.new now₀ kind target seeds privacy)
    (l.finishPeers.map PeerInfo.id).head? = some z ∧
      (z, .sent) ∈ (Lookup.new now₀ kind target seeds privacy).history (ops ++ [op]) ∧
      (z, .answered) ∈ (Lookup.new now₀ kind target seeds privacy).history (ops ++ [op]) := by
  intro l
  have hnew := Lookup.sound_new now₀ kind target privacy hseeds
  have hstart : (Lookup.new now₀ kind target seeds privacy).InOrder target :=
    ⟨rfl, rfl, hnew.shortlist_nodup, hnew.shortlist_sorted⟩
  have horder : l.InOrder target := hstart.run _
  have hmem (id : NodeId) : id ∈ l.shortlist.map PeerInfo.id ↔ id ∈ seeds.map PeerInfo.id ∨
      id ∈ ((ops ++ [op]).flatMap LookupOp.delivered).map PeerInfo.id := by
    rw [Lookup.mem_ids_run]
    exact or_congr_left ((perm_sortShortlist seeds target).map _).mem_iff
  have hexhausted : l.Exhausted := by
    obtain ⟨hrun, hlast, -⟩ := Runs.along_append.mp hops
    obtain ⟨hstarted, hbudget⟩ := Lookup.clock_run hnew hrun
    simp only [l, List.foldl_append, List.foldl_cons, List.foldl_nil] at hafter ⊢
    refine (hnew.run hrun).exhausted_step hlast hbefore hafter ?_ ?_
    · rw [hstarted, hbudget]
      exact htime
    · rintro sender rec rfl
      exact hhonest _ (List.mem_append_right _ List.mem_cons_self)
  obtain ⟨s, hs⟩ := List.exists_mem_of_ne_nil seeds hne
  have hs' : s.id ∈ l.shortlist.map PeerInfo.id :=
    (hmem s.id).mpr (Or.inl (List.mem_map_of_mem hs))
  rcases hl : l.shortlist with _ | ⟨p, rest⟩
  · rw [hl] at hs'
    exact absurd hs' List.not_mem_nil
  have hp : p ∈ l.shortlist := by
    rw [hl]
    exact List.mem_cons_self
  have hpnode : p.id ∈ o.nodes := by
    rcases (hmem p.id).mp (List.mem_map_of_mem hp) with hseed | hdelivered
    · obtain ⟨s, hs, hid⟩ := List.mem_map.mp hseed
      rw [← hid]
      exact hnodes s hs
    · rw [List.map_flatMap] at hdelivered
      obtain ⟨op', hop', hid⟩ := List.mem_flatMap.mp hdelivered
      exact (hhonest op' hop').mem_nodes hid
  obtain ⟨hsent, hanswered⟩ := answered_of_exhausted hseeds hops hexhausted hl (hlive p hp)
  have hanswer := exists_delivered_of_answered hhonest hanswered
  obtain rfl : p.id = z := by
    refine hz.eq_of_answer_subset hn horder hl hpnode fun id hid ↦ ?_
    exact (hmem id).mpr (Or.inr (hanswer hid))
  refine ⟨?_, hsent, hanswered⟩
  rw [Lookup.finishPeers, horder.k_eq, hl]
  rfl

/-- One node after the other is asked, and brings the next. -/
private def threeOps : List LookupOp :=
  [.dispatch 0 [Lookup.askSeed 1 0], .onCloser ⟨.fill 1⟩ [Lookup.seedPeer 2] 900,
    .dispatch 0 [Lookup.askSeed 2 0],
    .onCloser ⟨.fill 2⟩ [Lookup.seedPeer 3, Lookup.seedPeer 1] 900,
    .dispatch 0 [Lookup.askSeed 3 0]]

private def thirdAnswers : LookupOp :=
  .onCloser ⟨.fill 3⟩ [Lookup.seedPeer 2, Lookup.seedPeer 1] 900

theorem lookup_finds_nearest_third :
    let l₀ := Lookup.new 0 .findValue ⟨.fill 3⟩ [Lookup.seedPeer 1] .none
    let l := (threeOps ++ [thirdAnswers]).foldl Lookup.step l₀
    (l.finishPeers.map PeerInfo.id).head? = some ⟨.fill 3⟩ ∧
      (⟨.fill 3⟩, .sent) ∈ l₀.history (threeOps ++ [thirdAnswers]) ∧
      (⟨.fill 3⟩, .answered) ∈ l₀.history (threeOps ++ [thirdAnswers]) := by
  refine lookup_finds_nearest threeNodes 0 .findValue ⟨.fill 3⟩ [Lookup.seedPeer 1] .none 8
    threeOps thirdAnswers (by decide) isNearest_three (by decide +kernel) (by decide +kernel)
    (List.cons_ne_nil _ _) (by decide +kernel) (by decide +kernel) (by decide +kernel)
    (by decide +kernel) ?_ (by decide +kernel)
  rintro now sends ⟨⟩

end Overlay

end Molia
