import Molia.Net.Eviction

/-!
# Failure counts

The table counts the failures of a peer in a row and evicts it at the third. The count is kept in
the entry of the peer, and whatever makes a new entry of it, or renews the old one, starts it again
from zero: an answer of the peer, but also every insertion, whoever made the peer known.

A peer may have several entries in its bucket, and only the first of them counts. The others have
never failed (`Tallied`), so when the first is gone the count is zero again. Between two failures of
a peer its count therefore stays as it is, or is zero, or the peer is gone (`eased_apply`). A peer
that fails for the third time leaves the table exactly if its count was not zero since the first
failure, and the eviction does not promote another entry of it (`get_markFail_third_iff`).
-/

namespace Molia.RoutingTable

variable {t : RoutingTable} {p : NodeId} {op : TableOp}

/-! ## Counts in a bucket -/

/-- The failure counts of the entries of a peer. -/
def counts (p : NodeId) (b : List PeerEntry) : List ℕ :=
  (b.filter fun e ↦ e.id = p).map fun e ↦ e.failCount.toNat

/-- The failures of a peer that is in the table. -/
def failures (t : RoutingTable) (p : NodeId) : Option ℕ :=
  (t.get p).map fun e ↦ e.failCount.toNat

theorem failures_eq_head? : t.failures p = (counts p (t.bucketOf p)).head? := by
  rw [failures, counts, List.head?_map, List.head?_filter]
  rfl

theorem counts_append (p : NodeId) (b b' : List PeerEntry) :
    counts p (b ++ b') = counts p b ++ counts p b' := by
  rw [counts, List.filter_append, List.map_append]
  rfl

theorem counts_cons_self {e : PeerEntry} (h : e.id = p) (b : List PeerEntry) :
    counts p (e :: b) = e.failCount.toNat :: counts p b := by
  rw [counts, List.filter_cons_of_pos (by simpa using h)]
  rfl

theorem counts_cons_of_ne {e : PeerEntry} (h : e.id ≠ p) (b : List PeerEntry) :
    counts p (e :: b) = counts p b := by
  rw [counts, List.filter_cons_of_neg (by simpa using h)]
  rfl

theorem counts_updateFirst (id : NodeId) {f : PeerEntry → PeerEntry} {n : UInt32}
    (hid : ∀ e, (f e).id = e.id) (hn : ∀ e, (f e).failCount = n) (b : List PeerEntry) :
    counts p (updateFirst id f b)
      = if id = p then (counts p b).modifyHead fun _ ↦ n.toNat else counts p b := by
  induction b with
  | nil => simp [counts, updateFirst]
  | cons e b ih =>
    rw [updateFirst]
    by_cases he : e.id = id
    · rw [if_pos he]
      by_cases hp : id = p
      · rw [if_pos hp, counts_cons_self ((hid e).trans (he.trans hp)),
          counts_cons_self (he.trans hp), List.modifyHead_cons, hn]
      · have hne : e.id ≠ p := fun h ↦ hp (he.symm.trans h)
        rw [if_neg hp, counts_cons_of_ne ((hid e).trans_ne hne), counts_cons_of_ne hne]
    · rw [if_neg he]
      by_cases hp : e.id = p
      · have hne : id ≠ p := fun h ↦ he (hp.trans h.symm)
        rw [counts_cons_self hp, counts_cons_self hp, ih, if_neg hne, if_neg hne]
      · rw [counts_cons_of_ne hp, counts_cons_of_ne hp, ih]

theorem counts_updateFirst_counted (id : NodeId) (n : UInt32) (b : List PeerEntry) :
    counts p (updateFirst id (counted n) b)
      = if id = p then (counts p b).modifyHead fun _ ↦ n.toNat else counts p b :=
  counts_updateFirst id (f := counted n) (fun _ ↦ rfl) (fun _ ↦ rfl) b

theorem counts_eraseP (id : NodeId) (b : List PeerEntry) :
    counts p (b.eraseP fun e ↦ e.id = id)
      = if id = p then (counts p b).tail else counts p b := by
  induction b with
  | nil => simp [counts]
  | cons e b ih =>
    by_cases he : e.id = id
    · rw [List.eraseP_cons_of_pos (by simpa using he)]
      by_cases hp : id = p
      · rw [if_pos hp, counts_cons_self (he.trans hp), List.tail_cons]
      · rw [if_neg hp, counts_cons_of_ne fun h ↦ hp (he.symm.trans h)]
    · rw [List.eraseP_cons_of_neg (by simpa using he)]
      by_cases hp : e.id = p
      · have hne : id ≠ p := fun h ↦ he (hp.trans h.symm)
        rw [counts_cons_self hp, counts_cons_self hp, ih, if_neg hne, if_neg hne]
      · rw [counts_cons_of_ne hp, counts_cons_of_ne hp, ih]

theorem counts_filter_ne (id : NodeId) (b : List PeerEntry) :
    counts p (b.filter fun e ↦ e.id ≠ id) = if id = p then [] else counts p b := by
  rw [counts, List.filter_filter]
  split_ifs with h
  · subst h
    rw [List.filter_eq_nil_iff.mpr (by simp), List.map_nil]
  · rw [counts]
    congr 2
    funext e
    by_cases hp : e.id = p
    · simp [hp, Ne.symm h]
    · simp [hp]

theorem counts_singleton {e : PeerEntry} (h : e.failCount = 0) :
    counts p [e] = if e.id = p then [0] else [] := by
  split_ifs with hp
  · rw [counts_cons_self hp, h]
    rfl
  · rw [counts_cons_of_ne hp]
    rfl

/-! ## One operation -/

/-- Only the first entry of the peer has failed, and nobody has who waits. -/
structure Tallied (p : NodeId) (t : RoutingTable) : Prop where
  rest : ∀ n ∈ (counts p (t.bucketOf p)).tail, n = 0
  waiting : ∀ i, ∀ e ∈ t.replacement i, e.failCount = 0

theorem bucketOf_setBucket (t : RoutingTable) (i : ℕ) (b : List PeerEntry) (p : NodeId) :
    (t.setBucket i b).bucketOf p = if bucketIndex t.selfId p = i then b else t.bucketOf p := by
  show Function.update t.buckets i b (bucketIndex t.selfId p) = _
  rw [Function.update_apply]
  rfl

/-- The counts of a peer after another one has been put at the end, or itself: what a step that is
not a failure of the peer can do. -/
def Eased (c c' : List ℕ) : Prop := c' = c ∨ c' = c ++ [0] ∨ ∀ n ∈ c', n = 0

/-- The bucket of an operation is the bucket of the peer, or the peer does not notice. -/
theorem eased_setBucket {id : NodeId} {b : List PeerEntry}
    (h : bucketIndex t.selfId p = bucketIndex t.selfId id →
      Eased (counts p (t.bucketOf p)) (counts p b)) :
    Eased (counts p (t.bucketOf p))
      (counts p ((t.setBucket (bucketIndex t.selfId id) b).bucketOf p)) := by
  rw [bucketOf_setBucket]
  split_ifs with hi
  · exact h hi
  · exact Or.inl rfl

theorem bucketOf_congr {id : NodeId} (h : bucketIndex t.selfId p = bucketIndex t.selfId id) :
    t.bucketOf id = t.bucketOf p := by
  rw [bucketOf, bucketOf, h]

namespace Tallied

theorem setReplacement (h : Tallied p t) {i : ℕ} {b : List PeerEntry}
    (hb : ∀ e ∈ b, e.failCount = 0) : Tallied p (t.setReplacement i b) where
  rest := h.rest
  waiting := forall_setReplacement (p := fun _ b ↦ ∀ e ∈ b, e.failCount = 0) hb h.waiting

theorem eased_insert (h : Tallied p t) (now : ℕ) (info : PeerInfo) :
    Eased (counts p (t.bucketOf p)) (counts p ((t.insert now info).2.bucketOf p)) := by
  generalize ht' : (t.insert now info).2 = t'
  cases ht' ▸ inserted t now info with
  | keep => exact Or.inl rfl
  | refresh hself hok he =>
    refine eased_setBucket fun hi ↦ ?_
    rw [bucketOf_congr hi, counts_append, counts_eraseP, counts_singleton rfl]
    show Eased _ (_ ++ if info.id = p then _ else _)
    split_ifs
    · -- the entry that counted is gone: what is left of the peer has not failed
      refine Or.inr (Or.inr fun n hn ↦ ?_)
      rcases List.mem_append.mp hn with hrest | hlast
      · exact h.rest n hrest
      · exact List.mem_singleton.mp hlast
    · exact Or.inl (List.append_nil _)
  | enter hself hok hnew hroom =>
    refine eased_setBucket fun hi ↦ ?_
    rw [bucketOf_congr hi, counts_append, counts_singleton rfl]
    split_ifs
    · exact Or.inr (Or.inl rfl)
    · exact Or.inl (List.append_nil _)
  | wait hself hok hnew hroom => exact Or.inl rfl

theorem eased_touchOk (h : Tallied p t) (now : ℕ) (id : NodeId) (rttUs : UInt32) :
    Eased (counts p (t.bucketOf p)) (counts p ((t.touchOk now id rttUs).bucketOf p)) := by
  refine eased_setBucket fun hi ↦ ?_
  have hcounts := counts_updateFirst id (p := p) (f := touched now rttUs) (n := 0)
    (fun _ ↦ rfl) (fun _ ↦ rfl) (t.bucketOf p)
  show Eased _ (counts p (updateFirst id (touched now rttUs) (t.bucketOf id)))
  rw [bucketOf_congr hi, hcounts]
  split_ifs
  · refine Or.inr (Or.inr fun n hn ↦ ?_)
    have hrest := h.rest
    rcases hc : counts p (t.bucketOf p) with _ | ⟨m, ms⟩
    · rw [hc] at hn
      cases hn
    · rw [hc, List.modifyHead_cons, List.mem_cons] at hn
      rw [hc] at hrest
      rcases hn with rfl | hn
      · rfl
      · exact hrest n hn
  · exact Or.inl rfl

theorem counts_promoted (h : Tallied p t) (dead : NodeId) :
    counts p (t.promoted dead).toList = [] ∨ counts p (t.promoted dead).toList = [0] := by
  rcases he : t.promoted dead with _ | e
  · exact Or.inl rfl
  · rw [Option.toList_some, counts_singleton (h.waiting _ e (mem_waiting_of_promoted he))]
    split_ifs
    · exact Or.inr rfl
    · exact Or.inl rfl

theorem eased_evict (h : Tallied p t) (dead : NodeId) :
    Eased (counts p (t.bucketOf p)) (counts p ((t.evictAndReplace dead).bucketOf p)) := by
  rw [evictAndReplace_eq]
  refine eased_setBucket (t := t.setReplacement _ _) fun hi ↦ ?_
  have hi' : bucketIndex t.selfId p = bucketIndex t.selfId dead := hi
  show Eased (counts p (t.bucketOf p)) _
  rw [counts_append, kept, bucketOf_congr hi', counts_filter_ne]
  rcases h.counts_promoted dead with hnone | hzero
  · rw [hnone, List.append_nil]
    split_ifs
    · exact Or.inr (Or.inr (List.forall_mem_nil _))
    · exact Or.inl rfl
  · rw [hzero]
    split_ifs
    · exact Or.inr (Or.inr (by simp))
    · exact Or.inr (Or.inl rfl)

/-- **One operation.** Whatever is not a failure of the peer leaves its count, or sets it back, or
takes the peer out. -/
theorem eased_apply (h : Tallied p t) (hop : op ≠ .markFail p) :
    Eased (counts p (t.bucketOf p)) (counts p ((t.apply op).bucketOf p)) := by
  cases op with
  | insert now info => exact h.eased_insert now info
  | touchOk now id rttUs => exact h.eased_touchOk now id rttUs
  | evictAndReplace dead => exact h.eased_evict dead
  | markFail id =>
    rw [apply]
    rcases he : t.get id with _ | e
    · rw [markFail_of_get_none he]
      exact Or.inl rfl
    by_cases hthree : saturatingSucc e.failCount ≥ 3
    · rw [markFail_of_three he hthree]
      exact h.eased_evict id
    · have hne : id ≠ p := fun hid ↦ hop (hid ▸ rfl)
      rw [markFail_of_few he hthree]
      refine eased_setBucket fun hi ↦ Or.inl ?_
      rw [bucketOf_congr hi, counts_updateFirst_counted, if_neg hne]

end Tallied

/-! ## Failures -/

theorem three_le_saturatingSucc_iff (n : UInt32) : saturatingSucc n ≥ 3 ↔ 2 ≤ n.toNat := by
  rw [ge_iff_le, UInt32.le_iff_toNat_le, saturatingSucc]
  split_ifs with hmax
  · rw [hmax]
    decide
  · have hlt : n.toNat < 4294967295 := by
      have hle := n.toNat_lt
      have hne : n.toNat ≠ 4294967295 := fun h ↦ hmax (UInt32.toNat_inj.mp h)
      omega
    rw [UInt32.toNat_add, Nat.mod_eq_of_lt (by simpa using (by omega : n.toNat + 1 < 4294967296))]
    show 3 ≤ n.toNat + 1 ↔ _
    omega

theorem toNat_saturatingSucc_of_lt {n : UInt32} (h : n.toNat < 2) :
    (saturatingSucc n).toNat = n.toNat + 1 := by
  have hmax : n ≠ 0xFFFFFFFF := by
    rintro rfl
    exact absurd h (by decide)
  rw [saturatingSucc, if_neg hmax, UInt32.toNat_add]
  exact Nat.mod_eq_of_lt (by simpa using (by omega : n.toNat + 1 < 4294967296))

theorem failures_eq_none_iff : t.failures p = none ↔ t.get p = none := Option.map_eq_none_iff

theorem failures_markFail_of_none (h : t.failures p = none) : (t.markFail p).failures p = none := by
  rw [markFail_of_get_none (failures_eq_none_iff.mp h)]
  exact h

theorem bucketOf_markFail_of_lt {n : ℕ} (h : t.failures p = some n) (hlt : n < 2) :
    counts p ((t.markFail p).bucketOf p)
      = (counts p (t.bucketOf p)).modifyHead fun _ ↦ n + 1 := by
  obtain ⟨e, he, rfl⟩ := Option.map_eq_some_iff.mp h
  have hfew : ¬saturatingSucc e.failCount ≥ 3 := by
    rw [three_le_saturatingSucc_iff]
    omega
  rw [markFail_of_few he hfew, bucketOf_setBucket, if_pos rfl, counts_updateFirst_counted,
    if_pos rfl, toNat_saturatingSucc_of_lt hlt]

theorem failures_markFail_of_lt {n : ℕ} (h : t.failures p = some n) (hlt : n < 2) :
    (t.markFail p).failures p = some (n + 1) := by
  rw [failures_eq_head?] at h
  obtain ⟨ns, hns⟩ := List.head?_eq_some_iff.mp h
  rw [failures_eq_head?, bucketOf_markFail_of_lt (failures_eq_head? ▸ h) hlt, hns]
  rfl

theorem markFail_of_two_le {n : ℕ} (h : t.failures p = some n) (hle : 2 ≤ n) :
    t.markFail p = t.evictAndReplace p := by
  obtain ⟨e, he, rfl⟩ := Option.map_eq_some_iff.mp h
  exact markFail_of_three he ((three_le_saturatingSucc_iff _).mpr hle)

theorem get_evict_eq_none_iff :
    (t.evictAndReplace p).get p = none ↔ ∀ e ∈ t.promoted p, e.id ≠ p := by
  rw [get_eq_none_iff, bucketOf_evict, List.map_append, List.mem_append, not_or]
  have hkept : p ∉ (t.kept p).map PeerEntry.id := by
    intro hmem
    obtain ⟨e, he, hid⟩ := List.mem_map.mp hmem
    exact (mem_kept.mp he).2 hid
  rw [and_iff_right hkept]
  rcases t.promoted p with _ | e
  · simp
  · simp [eq_comm]

namespace Tallied

theorem waiting_apply (h : Tallied p t) (op : TableOp) :
    ∀ i, ∀ e ∈ (t.apply op).replacement i, e.failCount = 0 := by
  rcases hop : t.evicts op with _ | dead
  · generalize ht' : t.apply op = t'
    cases ht' ▸ edit_apply hop with
    | keep => exact h.waiting
    | refresh hself hok he => exact h.waiting
    | enter hself hok hnew hroom => exact h.waiting
    | wait hself hok hnew hroom =>
      refine (h.setReplacement (List.forall_mem_append.mpr ⟨h.waiting _, ?_⟩)).waiting
      exact List.forall_mem_singleton.mpr rfl
    | rewrite hid haddr => exact h.waiting
  · rw [apply_of_evicts hop, evictAndReplace_eq]
    exact (h.setReplacement fun e he ↦ h.waiting _ e (List.dropLast_subset _ he)).waiting

theorem rest_of_eased {c c' : List ℕ} (hrest : ∀ n ∈ c.tail, n = 0) (h : Eased c c') :
    ∀ n ∈ c'.tail, n = 0 := by
  rcases h with rfl | rfl | hzero
  · exact hrest
  · rcases c with _ | ⟨m, ms⟩
    · exact List.forall_mem_nil _
    · rw [List.cons_append, List.tail_cons]
      exact List.forall_mem_append.mpr ⟨hrest, List.forall_mem_singleton.mpr rfl⟩
  · exact fun n hn ↦ hzero n (List.mem_of_mem_tail hn)

theorem apply (h : Tallied p t) (op : TableOp) : Tallied p (t.apply op) := by
  refine ⟨?_, h.waiting_apply op⟩
  by_cases hop : op = .markFail p
  · subst hop
    rw [RoutingTable.apply]
    rcases hf : t.failures p with _ | n
    · rw [markFail_of_get_none (failures_eq_none_iff.mp hf)]
      exact h.rest
    by_cases hlt : n < 2
    · rw [bucketOf_markFail_of_lt hf hlt, List.tail_modifyHead]
      exact h.rest
    · rw [markFail_of_two_le hf (Nat.le_of_not_lt hlt)]
      exact rest_of_eased h.rest (h.eased_evict p)
  · exact rest_of_eased h.rest (h.eased_apply hop)

theorem run (h : Tallied p t) (ops : List TableOp) : Tallied p (ops.foldl RoutingTable.apply t) :=
  Runs.along_true.invariant (fun _ op ht _ ↦ ht.apply op) h

theorem failures_of_eased {t' : RoutingTable}
    (heased : Eased (counts p (t.bucketOf p)) (counts p (t'.bucketOf p))) :
    t'.failures p = t.failures p ∨ t'.failures p = some 0 ∨ t'.failures p = none := by
  rw [failures_eq_head?, failures_eq_head?]
  generalize counts p (t.bucketOf p) = c at heased
  generalize counts p (t'.bucketOf p) = c' at heased
  rcases heased with rfl | rfl | hzero
  · exact Or.inl rfl
  · rcases c with _ | ⟨m, ms⟩
    · exact Or.inr (Or.inl rfl)
    · exact Or.inl rfl
  · rcases c' with _ | ⟨m, ms⟩
    · exact Or.inr (Or.inr rfl)
    · rw [hzero m List.mem_cons_self]
      exact Or.inr (Or.inl rfl)

theorem failures_evict (h : Tallied p t) :
    (t.evictAndReplace p).failures p = some 0 ∨ (t.evictAndReplace p).failures p = none := by
  rw [failures_eq_head?, bucketOf_evict, counts_append, kept, counts_filter_ne, if_pos rfl,
    List.nil_append]
  rcases h.counts_promoted p with hnone | hzero
  · rw [hnone]
    exact Or.inr rfl
  · rw [hzero]
    exact Or.inl rfl

/-! ## Runs -/

theorem failures_run (h : Tallied p t) {ops : List TableOp} (hops : .markFail p ∉ ops) :
    (ops.foldl RoutingTable.apply t).failures p = t.failures p ∨
      (ops.foldl RoutingTable.apply t).failures p = some 0 ∨
      (ops.foldl RoutingTable.apply t).failures p = none := by
  induction ops generalizing t with
  | nil => exact Or.inl rfl
  | cons op ops ih =>
    obtain ⟨hop, hrest⟩ := not_or.mp (List.mem_cons.not.mp hops)
    rw [List.foldl_cons]
    rcases ih (h.apply op) hrest with hsame | hlost
    · rw [hsame]
      exact failures_of_eased (h.eased_apply (Ne.symm hop))
    · exact Or.inr hlost

theorem failures_run_of_throughout (h : Tallied p t) {ops : List TableOp}
    (hops : .markFail p ∉ ops)
    (hnever : Runs.Throughout RoutingTable.apply (fun t ↦ t.failures p ≠ some 0) t ops) :
    (ops.foldl RoutingTable.apply t).failures p = t.failures p ∨
      (ops.foldl RoutingTable.apply t).failures p = none := by
  rcases h.failures_run hops with hsame | hzero | hnone
  · exact Or.inl hsame
  · exact absurd hzero hnever.finish
  · exact Or.inr hnone

theorem failures_run_of_not_throughout (h : Tallied p t) {ops : List TableOp}
    (hops : .markFail p ∉ ops)
    (hzero : ¬Runs.Throughout RoutingTable.apply (fun t ↦ t.failures p ≠ some 0) t ops) :
    (ops.foldl RoutingTable.apply t).failures p = some 0 ∨
      (ops.foldl RoutingTable.apply t).failures p = none := by
  induction ops generalizing t with
  | nil => exact Or.inl (not_not.mp hzero)
  | cons op ops ih =>
    obtain ⟨-, hrest⟩ := not_or.mp (List.mem_cons.not.mp hops)
    by_cases hstart : t.failures p = some 0
    · have hrun := h.failures_run hops
      rw [hstart, ← or_assoc, or_self] at hrun
      exact hrun
    · exact ih (h.apply op) hrest fun hlater ↦ hzero ⟨hstart, hlater⟩

end Tallied

theorem tallied_new (selfId p : NodeId) : Tallied p (new selfId) where
  rest := List.forall_mem_nil _
  waiting _ := List.forall_mem_nil _

theorem tallied_foldl (selfId p : NodeId) (ops : List TableOp) :
    Tallied p (ops.foldl apply (new selfId)) := (tallied_new selfId p).run ops

section Third

variable {mid₁ mid₂ : List TableOp}

theorem lt_two_of_zero_before (h : Tallied p t) (h₁ : .markFail p ∉ mid₁) (h₂ : .markFail p ∉ mid₂)
    (hzero : ¬Runs.Throughout apply (fun t ↦ t.failures p ≠ some 0) t mid₁) {n : ℕ}
    (hn : (mid₂.foldl apply ((mid₁.foldl apply t).markFail p)).failures p = some n) : n < 2 := by
  have hfail : Tallied p ((mid₁.foldl apply t).markFail p) := (h.run mid₁).apply (.markFail p)
  have hone : ((mid₁.foldl apply t).markFail p).failures p = some 1 ∨
      ((mid₁.foldl apply t).markFail p).failures p = none := by
    rcases h.failures_run_of_not_throughout h₁ hzero with hstart | hnone
    · exact Or.inl (failures_markFail_of_lt hstart Nat.zero_lt_two)
    · exact Or.inr (failures_markFail_of_none hnone)
  rcases hfail.failures_run h₂ with hsame | hstart | hnone
  · rw [← hsame, hn] at hone
    rcases hone with hone | hnone
    · rw [Option.some.inj hone]
      exact Nat.one_lt_two
    · cases hnone
  · rw [Option.some.inj (hn.symm.trans hstart)]
    exact Nat.zero_lt_two
  · cases hn.symm.trans hnone

theorem eq_zero_of_zero_after (h : Tallied p t) (hops : .markFail p ∉ mid₂)
    (hzero : ¬Runs.Throughout apply (fun t ↦ t.failures p ≠ some 0) t mid₂) {n : ℕ}
    (hn : (mid₂.foldl apply t).failures p = some n) : n = 0 := by
  rcases h.failures_run_of_not_throughout hops hzero with hstart | hnone
  · exact Option.some.inj (hn.symm.trans hstart)
  · cases hn.symm.trans hnone

theorem two_le_of_throughout (h : Tallied p t) (h₂ : .markFail p ∉ mid₂)
    (hnever₁ : Runs.Throughout apply (fun t ↦ t.failures p ≠ some 0) t mid₁)
    (hnever₂ : Runs.Throughout apply (fun t ↦ t.failures p ≠ some 0)
      ((mid₁.foldl apply t).markFail p) mid₂) {n : ℕ}
    (hn : (mid₂.foldl apply ((mid₁.foldl apply t).markFail p)).failures p = some n) : 2 ≤ n := by
  have hmid : Tallied p (mid₁.foldl apply t) := h.run mid₁
  have hsecond : ((mid₁.foldl apply t).markFail p).failures p = some n := by
    rcases (hmid.apply (.markFail p)).failures_run_of_throughout h₂ hnever₂ with hsame | hnone
    · exact hsame.symm.trans hn
    · cases hn.symm.trans hnone
  rcases hfirst : (mid₁.foldl apply t).failures p with _ | m
  · cases hsecond.symm.trans (failures_markFail_of_none hfirst)
  have hpos : m ≠ 0 := by
    rintro rfl
    exact hnever₁.finish hfirst
  by_cases hlt : m < 2
  · have hsucc : n = m + 1 :=
      Option.some.inj (hsecond.symm.trans (failures_markFail_of_lt hfirst hlt))
    omega
  · -- the peer was evicted, and if it came back it did so with nothing counted
    have hevicted := markFail_of_two_le hfirst (Nat.le_of_not_lt hlt)
    rw [hevicted] at hsecond
    rcases hmid.failures_evict with hzero | hnone
    · exact absurd (hevicted ▸ hzero) hnever₂.start
    · cases hsecond.symm.trans hnone

/-- At its third failure a peer that is still there has a count of two exactly if the count was
never zero since the first. -/
theorem two_le_failures_iff (h : Tallied p t) (h₁ : .markFail p ∉ mid₁) (h₂ : .markFail p ∉ mid₂)
    {n : ℕ} (hn : (mid₂.foldl apply ((mid₁.foldl apply t).markFail p)).failures p = some n) :
    2 ≤ n ↔ Runs.Throughout apply (fun t ↦ t.failures p ≠ some 0) t
      (mid₁ ++ .markFail p :: mid₂) := by
  rw [Runs.throughout_append_cons]
  constructor
  · intro htwo
    refine ⟨by_contra fun hzero ↦ ?_, by_contra fun hzero ↦ ?_⟩
    · exact absurd htwo (Nat.not_le_of_lt (lt_two_of_zero_before h h₁ h₂ hzero hn))
    · have hfail : Tallied p ((mid₁.foldl apply t).markFail p) := (h.run mid₁).apply (.markFail p)
      have hstart := eq_zero_of_zero_after hfail h₂ hzero hn
      omega
  · rintro ⟨hnever₁, hnever₂⟩
    exact two_le_of_throughout h h₂ hnever₁ hnever₂ hn

/-- **The third failure.** A peer that is in the table at its third failure leaves it exactly if its
count was never zero since the first, and the eviction promotes no other entry of it. -/
theorem get_markFail_third_iff (h : Tallied p t) (h₁ : .markFail p ∉ mid₁)
    (h₂ : .markFail p ∉ mid₂) :
    let t' := (mid₁ ++ .markFail p :: mid₂).foldl apply t
    (t'.markFail p).get p = none ↔ t'.get p = none ∨
      (Runs.Throughout apply (fun t ↦ t.failures p ≠ some 0) t (mid₁ ++ .markFail p :: mid₂) ∧
        ∀ e ∈ t'.promoted p, e.id ≠ p) := by
  intro t'
  have ht' : t' = mid₂.foldl apply ((mid₁.foldl apply t).markFail p) := by
    show (mid₁ ++ .markFail p :: mid₂).foldl apply t = _
    rw [List.foldl_append, List.foldl_cons]
    rfl
  rcases hn : t'.failures p with _ | n
  · rw [failures_eq_none_iff] at hn
    rw [markFail_of_get_none hn]
    exact iff_of_true hn (Or.inl hn)
  have hget : t'.get p ≠ none := by
    rw [Ne, ← failures_eq_none_iff, hn]
    exact Option.some_ne_none n
  have htwo := two_le_failures_iff h h₁ h₂ (ht' ▸ hn)
  rw [or_iff_right hget, ← htwo]
  by_cases hlt : n < 2
  · refine iff_of_false ?_ fun hboth ↦ absurd hboth.1 (Nat.not_le_of_lt hlt)
    rw [← failures_eq_none_iff, failures_markFail_of_lt hn hlt]
    exact Option.some_ne_none _
  · have hle := Nat.le_of_not_lt hlt
    rw [markFail_of_two_le hn hle, get_evict_eq_none_iff, and_iff_right hle]

end Third

end Molia.RoutingTable
