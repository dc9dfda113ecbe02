import Molia.Store.Lifetimes
import Molia.Store.Slot

/-!
# What a store keeps

Reads look at two maps in turn and test the age of what they find, so whether an entry is still
there is one question and whether it is served is another. Four results follow from keeping the two
apart.

The garbage collector is invisible to reads (`reads_gc`): it removes what no later read would serve.
It is not invisible to writes. A provider list is full when it holds 64 entries, served or not, so a
new provider is turned away while expired ones hold the places (`provider_admitted_iff`).

A record that is stored again is not merged with the one it replaces. The later call decides the
lifetime, and a value that was to be served for a day can be cut short by anyone who stores it again
(`servesUntil_put_iff`).

And a put accepts values of up to `64 * 1200` bytes where a STORE request accepts `64 * 1024`; a
value between the two is stored here and turned away by every replica (`admission_agrees_iff`).
-/

namespace Molia

/-! ## Ages -/

namespace StoredRecord

/-- The test of `get` on a record that is not from the cache. -/
def served (now : UInt64) (r : StoredRecord) : Bool :=
  !r.expired now && decide (r.kind ≠ kindTombstone)

theorem served_eq_true_iff {now : UInt64} {r : StoredRecord} :
    r.served now = true ↔ r.expired now = false ∧ r.kind ≠ kindTombstone := by
  rw [served, Bool.and_eq_true, decide_eq_true_iff, Bool.not_eq_true']

theorem not_expired_of_le {r : StoredRecord} {t t' : UInt64} (h : t ≤ t')
    (hlive : r.expired t' = false) : r.expired t = false := by
  rw [expired_eq_false_iff] at hlive ⊢
  exact (UInt64.le_iff_toNat_le.mp h).trans hlive

theorem not_expired_zero (r : StoredRecord) : r.expired 0 = false := by
  rw [expired_eq_false_iff]
  exact Nat.zero_le _

end StoredRecord

theorem ProviderEntry.live_of_le {e : ProviderEntry} {t t' : UInt64} (h : t ≤ t')
    (hlive : e.live t' = true) : e.live t = true := by
  have hle := UInt64.le_iff_toNat_le.mp h
  rw [live, decide_eq_true_iff] at hlive ⊢
  omega

theorem ProviderEntry.live_self (e : ProviderEntry) : e.live e.storedUnix = true := by
  rw [live, decide_eq_true_iff, Nat.sub_self]
  exact Nat.zero_le _

/-! ## The garbage collector -/

namespace Store

/-- A read as two filters, one after the other. -/
theorem get_eq_or (s : Store) (now : UInt64) (k : Key) :
    s.get now k = ((s.records.lookup k).filter (·.served now)).or
      ((s.cache.lookup k).filter fun c ↦ !c.expired now) := by
  rw [get]
  rcases s.records.lookup k with _ | r
  · rfl
  · by_cases h : r.expired now = false ∧ r.kind ≠ kindTombstone
    · have hserved := StoredRecord.served_eq_true_iff.mpr h
      simp only [Option.filter_some, hserved, if_true, if_pos h, Option.some_or]
    · have hserved : r.served now = false :=
        Bool.eq_false_iff.mpr fun ht ↦ h (StoredRecord.served_eq_true_iff.mp ht)
      simp only [Option.filter_some, hserved, Bool.false_eq_true, if_false, if_neg h,
        Option.none_or]

/-- The entries of a key, expired ones included. -/
def providersOf (s : Store) (k : Key) : List ProviderEntry := (s.providers.lookup k).getD []

theorem liveProviders_eq (s : Store) (now : UInt64) (k : Key) (n : ℕ) :
    s.liveProviders now k n = ((s.providersOf k).filter fun e ↦ e.live now).take n := by
  rw [liveProviders, providersOf]
  rcases s.providers.lookup k with _ | l
  · exact List.take_nil.symm
  · rfl

theorem providersOf_gc (s : Store) (now : UInt64) (k : Key) :
    (s.gc now).providersOf k = (s.providersOf k).filter fun e ↦ e.live now := by
  rw [providersOf, gc, HashMap.lookup_mapValues, providersOf]
  rcases s.providers.lookup k with _ | l
  · rfl
  · rfl

theorem filter_filter_of_imp {α : Type*} {p q : α → Bool} (h : ∀ a, q a = true → p a = true)
    (a : α) : (p a && q a) = q a := by
  cases hq : q a with
  | false => exact Bool.and_false _
  | true => rw [h a hq, Bool.and_true]

end Store

/-- **Garbage collection is invisible to reads.** Every record and every list of providers that is
read at the time of the collection or later is the same with and without it. -/
theorem reads_gc (s : Store) {t t' : UInt64} (h : t ≤ t') (k : Key) (n : ℕ) :
    (s.gc t).get t' k = s.get t' k ∧ (s.gc t).liveProviders t' k n = s.liveProviders t' k n := by
  constructor
  · have hlive : ∀ r : StoredRecord, (!r.expired t') = true → (!r.expired t) = true := by
      intro r hr
      rw [Bool.not_eq_true'] at hr ⊢
      exact StoredRecord.not_expired_of_le h hr
    have hserved : ∀ r : StoredRecord, r.served t' = true → (!r.expired t) = true := by
      intro r hr
      refine hlive r ?_
      rw [(StoredRecord.served_eq_true_iff.mp hr).1]
      rfl
    rw [Store.get_eq_or, Store.get_eq_or, Store.gc, HashMap.lookup_retain, HashMap.lookup_retain,
      Option.filter_filter, Option.filter_filter]
    simp only [Store.filter_filter_of_imp hlive, Store.filter_filter_of_imp hserved]
  · rw [Store.liveProviders_eq, Store.liveProviders_eq, Store.providersOf_gc, List.filter_filter]
    have hlive : ∀ e : ProviderEntry, (e.live t' && e.live t) = e.live t' := by
      intro e
      rw [Bool.and_comm]
      exact Store.filter_filter_of_imp (fun e ↦ ProviderEntry.live_of_le h) e
    simp only [hlive]

/-- A record of second 50 with that kind and lifetime. -/
private def datedRecord (n : UInt8) (kind : UInt32) (ttlSecs : UInt64) : StoredRecord where
  key := ⟨Bytes32.fill n⟩
  value := [n]
  sequence := 0
  ttlSecs := ttlSecs
  notBeforeUnix := 0
  ownerPubkey := []
  signature := []
  kind := kind
  ns := []
  salt := []
  storedUnix := 50
  cache := false

private def datedCopy (n : UInt8) (ttlSecs : UInt64) : StoredRecord :=
  { datedRecord n kindImmutable ttlSecs with cache := true }

private def datedProvider (n : UInt8) (ttlSecs : UInt64) : ProviderEntry :=
  ⟨⟨Bytes32.fill n⟩, [n], 50, ttlSecs⟩

/-- Records under the keys 1, 2 and 3: one that lives on, one that has expired by second 100 and a
tombstone. The cache has a copy under each of the keys 2 and 3 and expired ones under 1 and 4. One
of the three providers has expired by second 100 and one expires before second 200. -/
private def mixedStore : Store where
  records := [datedRecord 1 kindImmutable 500, datedRecord 2 kindImmutable 10,
    datedRecord 3 kindTombstone 500].foldl (fun m r ↦ m.insert r.key r) ∅
  providers := AList.singleton ⟨Bytes32.fill 1⟩
    [datedProvider 7 10, datedProvider 8 100, datedProvider 9 500]
  cache := [datedCopy 1 10, datedCopy 2 500, datedCopy 3 500, datedCopy 4 10].foldl
    (fun m r ↦ m.insert r.key r) ∅
  dir := none
  pendingWal := []

/-- A collection at second 100, which removes entries of all three maps, and reads at second 200. -/
theorem reads_gc_later :
    [1, 2, 3, 4].map (fun n ↦ (mixedStore.gc 100).get 200 ⟨Bytes32.fill n⟩)
        = [some (datedRecord 1 kindImmutable 500), some (datedCopy 2 500), some (datedCopy 3 500),
          none] ∧
      (mixedStore.gc 100).liveProviders 200 ⟨Bytes32.fill 1⟩ 5 = [datedProvider 9 500] := by
  have hle : (100 : UInt64) ≤ 200 := by decide
  have hreads (n : UInt8) := reads_gc mixedStore hle ⟨Bytes32.fill n⟩ 5
  simp only [hreads]
  decide +kernel

/-! ## Providers -/

section

variable {now : UInt64} {p : NodeId} {m : Bytes}

theorem updateProvider_eq_none_iff {l : List ProviderEntry} :
    Store.updateProvider now p m l = none ↔ ∀ e ∈ l, e.peerId ≠ p := by
  induction l with
  | nil => exact iff_of_true rfl (List.forall_mem_nil _)
  | cons e l ih =>
    rw [Store.updateProvider, List.forall_mem_cons]
    by_cases he : e.peerId = p
    · rw [if_pos he]
      exact iff_of_false (Option.some_ne_none _) fun h ↦ h.1 he
    · rw [if_neg he, Option.map_eq_none_iff, ih]
      exact (and_iff_right he).symm

/-- A provider that is already listed keeps its place and gets the new metadata and time. -/
theorem updateProvider_eq_some {l l' : List ProviderEntry}
    (h : Store.updateProvider now p m l = some l') :
    l'.length = l.length ∧ ∃ e ∈ l', e.peerId = p ∧ e.metadata = m ∧ e.storedUnix = now := by
  induction l generalizing l' with
  | nil => cases h
  | cons e l ih =>
    rw [Store.updateProvider] at h
    split_ifs at h with he
    · obtain rfl := Option.some.inj h
      exact ⟨rfl, _, List.mem_cons_self, he, rfl, rfl⟩
    · obtain ⟨l'', hl'', rfl⟩ := Option.map_eq_some_iff.mp h
      obtain ⟨hlen, e', he', hfields⟩ := ih hl''
      exact ⟨by rw [List.length_cons, List.length_cons, hlen], e', List.mem_cons_of_mem _ he',
        hfields⟩

end

namespace Store

/-- The list of a key after an announcement. -/
def announced (now : UInt64) (p : NodeId) (m : Bytes) (l : List ProviderEntry) :
    List ProviderEntry :=
  (updateProvider now p m l).getD
    (if l.length < 64 then l ++ [⟨p, m, now, mutableTtlSecs⟩] else l)

theorem providersOf_announceProvider (s : Store) (now : UInt64) (key : Key) (p : NodeId) (m : Bytes)
    (k : Key) : (s.announceProvider now key p m).providersOf k
      = if k = key then announced now p m (s.providersOf key) else s.providersOf k := by
  rw [providersOf, announceProvider, HashMap.lookup_insert_of]
  by_cases hk : k = key
  · rw [if_pos hk, if_pos hk, Option.getD_some, announced, providersOf]
    rcases updateProvider now p m ((s.providers.lookup key).getD []) with _ | l
    · rfl
    · rfl
  · rw [if_neg hk, if_neg hk, providersOf]

theorem length_announced_le {now : UInt64} {p : NodeId} {m : Bytes} {l : List ProviderEntry}
    (h : l.length ≤ 64) : (announced now p m l).length ≤ 64 := by
  rw [announced]
  rcases hupdate : updateProvider now p m l with _ | l'
  · rw [Option.getD_none]
    split_ifs with hroom
    · rw [List.length_append, List.length_singleton]
      exact hroom
    · exact h
  · rw [Option.getD_some, (updateProvider_eq_some hupdate).1]
    exact h

theorem exists_mem_announced {now : UInt64} {p : NodeId} {m : Bytes} {l : List ProviderEntry}
    (h : (∃ e ∈ l, e.peerId = p) ∨ l.length < 64) :
    ∃ e ∈ announced now p m l, e.peerId = p ∧ e.metadata = m ∧ e.storedUnix = now := by
  rw [announced]
  rcases hupdate : updateProvider now p m l with _ | l'
  · have hnew := updateProvider_eq_none_iff.mp hupdate
    have hroom : l.length < 64 := h.resolve_left fun ⟨e, he, hp⟩ ↦ hnew e he hp
    rw [Option.getD_none, if_pos hroom]
    exact ⟨⟨p, m, now, mutableTtlSecs⟩, List.mem_append_right _ List.mem_cons_self, rfl, rfl, rfl⟩
  · rw [Option.getD_some]
    exact (updateProvider_eq_some hupdate).2

theorem announced_of_full {now : UInt64} {p : NodeId} {m : Bytes} {l : List ProviderEntry}
    (hnew : ∀ e ∈ l, e.peerId ≠ p) (hfull : ¬l.length < 64) : announced now p m l = l := by
  rw [announced, updateProvider_eq_none_iff.mpr hnew, Option.getD_none, if_neg hfull]

end Store

section

variable [Crates]

theorem Store.providersOf_keep (s : Store) (o : Option StoredRecord) (k : Key) :
    (s.keep o).providersOf k = s.providersOf k := by
  rw [providersOf, providers_keep, providersOf]

theorem StoreOp.providersOf_exec_cases (s : Store) (op : StoreOp) (k : Key) :
    (op.exec s).providersOf k = s.providersOf k ∨
      (∃ now p m, (op.exec s).providersOf k = Store.announced now p m (s.providersOf k)) ∨
      ∃ now, (op.exec s).providersOf k = (s.providersOf k).filter fun e ↦ e.live now := by
  cases op with
  | putImmutableTtl now value ttlSecs =>
    left
    rw [exec_put s (putImmutableTtl now value ttlSecs) trivial]
    exact Store.providersOf_keep s _ k
  | putRecord r probe =>
    left
    rw [exec_put s (putRecord r probe) trivial]
    exact Store.providersOf_keep s _ k
  | cacheHit now r checked =>
    left
    rw [exec, Store.cacheHit]
    split_ifs
    · rfl
    · rfl
  | announceProvider now key p m =>
    rw [exec, Store.providersOf_announceProvider]
    by_cases hk : k = key
    · rw [if_pos hk, hk]
      exact Or.inr (Or.inl ⟨now, p, m, rfl⟩)
    · rw [if_neg hk]
      exact Or.inl rfl
  | gc now => exact Or.inr (Or.inr ⟨now, Store.providersOf_gc s now k⟩)
  | flushWal => exact Or.inl rfl

theorem StoreRun.length_providersOf_le (run : StoreRun) (k : Key) :
    (run.final.providersOf k).length ≤ 64 := by
  refine Runs.along_true.invariant (I := fun s : Store ↦ (s.providersOf k).length ≤ 64) ?_ ?_
  · intro s op h _
    rcases op.providersOf_exec_cases s k with heq | ⟨now, p, m, heq⟩ | ⟨now, heq⟩
    · rw [heq]
      exact h
    · rw [heq]
      exact Store.length_announced_le h
    · rw [heq]
      exact (List.length_filter_le _ _).trans h
  · rw [Store.providersOf, run.start.providers_store]
    exact Nat.zero_le 64

namespace Store

/-- A read of up to `n` providers lists `p` with the metadata. -/
def Lists (s : Store) (now : UInt64) (k : Key) (p : NodeId) (m : Bytes) (n : ℕ) : Prop :=
  ∃ e ∈ s.liveProviders now k n, e.peerId = p ∧ e.metadata = m

/-- The other providers of a key that have not expired. -/
def liveOthers (s : Store) (now : UInt64) (k : Key) (p : NodeId) : List ProviderEntry :=
  (s.providersOf k).filter fun e ↦ decide (e.peerId ≠ p) && e.live now

omit [Crates] in
theorem lists_announceProvider {s : Store} {now : UInt64} {k : Key} {p : NodeId} (m : Bytes) {n : ℕ}
    (hlen : (s.providersOf k).length ≤ 64) (hn : 64 ≤ n)
    (h : (∃ e ∈ s.providersOf k, e.peerId = p) ∨ (s.providersOf k).length < 64) :
    (s.announceProvider now k p m).Lists now k p m n := by
  obtain ⟨e, he, hp, hm, hnow⟩ : ∃ e ∈ announced now p m (s.providersOf k),
      e.peerId = p ∧ e.metadata = m ∧ e.storedUnix = now := exists_mem_announced h
  have hlive : e.live now = true := hnow ▸ e.live_self
  refine ⟨e, ?_, hp, hm⟩
  rw [liveProviders_eq, providersOf_announceProvider, if_pos rfl, List.take_of_length_le]
  · exact List.mem_filter.mpr ⟨he, hlive⟩
  · exact ((List.length_filter_le _ _).trans (length_announced_le hlen)).trans hn

end Store

/-- **Admission of providers.** After an announcement the provider is listed, or 64 others are
alive, exactly if it was listed before, or there is room, or all that fill the list are alive. What
stands in the way of a new provider is a full list with an expired entry. -/
theorem provider_admitted_iff (run : StoreRun) (now : UInt64) (k : Key) (p : NodeId) (m : Bytes)
    {n : ℕ} (hn : 64 ≤ n) :
    (run.final.announceProvider now k p m).Lists now k p m n ∨
        64 ≤ (run.final.liveOthers now k p).length ↔
      (∃ e ∈ run.final.providersOf k, e.peerId = p) ∨ (run.final.providersOf k).length < 64 ∨
        ∀ e ∈ run.final.providersOf k, e.live now = true := by
  have hle := run.length_providersOf_le k
  by_cases h : (∃ e ∈ run.final.providersOf k, e.peerId = p) ∨
      (run.final.providersOf k).length < 64
  · exact iff_of_true (Or.inl (Store.lists_announceProvider m hle hn h))
      (h.imp_right Or.inl)
  · -- the list is full and stays as it is
    rw [← or_assoc, or_iff_right h]
    rw [not_or] at h
    have hnew : ∀ e ∈ run.final.providersOf k, e.peerId ≠ p := fun e he hp ↦ h.1 ⟨e, he, hp⟩
    have hunlisted : ¬(run.final.announceProvider now k p m).Lists now k p m n := by
      rintro ⟨e, he, hp, -⟩
      rw [Store.liveProviders_eq, Store.providersOf_announceProvider, if_pos rfl,
        Store.announced_of_full hnew h.2] at he
      exact hnew e (List.mem_of_mem_filter (List.mem_of_mem_take he)) hp
    have hothers : run.final.liveOthers now k p
        = (run.final.providersOf k).filter fun e ↦ e.live now := by
      refine List.filter_congr fun e he ↦ ?_
      rw [decide_eq_true (hnew e he), Bool.true_and]
    rw [or_iff_right hunlisted, hothers, ← List.length_filter_eq_length_iff]
    have hfilter := List.length_filter_le (fun e ↦ e.live now) (run.final.providersOf k)
    omega

end

/-- The operation is an announcement or a collection. -/
def StoreOp.OfProviders [Crates] : StoreOp → Prop
  | announceProvider _ _ _ _ | gc _ => True
  | _ => False

section

open Sample

attribute [local instance] wireCrates

private def announcedKey : Key := ⟨Bytes32.fill 1⟩

/-- 64 peers announce themselves at time zero. -/
private def crowdedRun : StoreRun where
  start := .new
  ops := (List.range 64).map fun i ↦
    .announceProvider 0 announcedKey ⟨Bytes32.fill (UInt8.ofNat i)⟩ []

private theorem providersOf_crowded :
    crowdedRun.final.providersOf announcedKey = (List.range 64).map fun i ↦
      ⟨⟨Bytes32.fill (UInt8.ofNat i)⟩, [], 0, mutableTtlSecs⟩ := by
  decide +kernel

/-- One of the 64 may announce again. -/
theorem provider_admitted_iff_listed :
    (crowdedRun.final.announceProvider 5 announcedKey ⟨Bytes32.fill 3⟩ [7]).Lists 5 announcedKey
        ⟨Bytes32.fill 3⟩ [7] 64 ∨
      64 ≤ (crowdedRun.final.liveOthers 5 announcedKey ⟨Bytes32.fill 3⟩).length := by
  refine (provider_admitted_iff crowdedRun 5 announcedKey _ [7] (le_refl 64)).mpr (Or.inl ?_)
  rw [providersOf_crowded]
  exact ⟨_, List.mem_map_of_mem (List.mem_range.mpr (show 3 < 64 by decide)), rfl⟩

/-- All 64 have expired, and no collection has run. A new provider is turned away. -/
theorem provider_admitted_fails :
    ¬∀ (_ : Crates) (run : StoreRun) (now : UInt64) (k : Key) (p : NodeId) (m : Bytes) (n : ℕ),
      run.start = .new → (∀ op ∈ run.ops, op.OfProviders) → 64 ≤ n →
        (run.final.announceProvider now k p m).Lists now k p m n ∨
          64 ≤ (run.final.liveOthers now k p).length := by
  intro h
  have hops : ∀ op ∈ crowdedRun.ops, op.OfProviders := by
    intro op hop
    obtain ⟨i, -, rfl⟩ := List.mem_map.mp hop
    trivial
  rcases h wireCrates crowdedRun 100000 announcedKey ⟨Bytes32.fill 64⟩ [] 64 rfl hops (le_refl 64)
    with ⟨e, he, -⟩ | hothers
  · have hnone : (crowdedRun.final.announceProvider 100000 announcedKey ⟨Bytes32.fill 64⟩
        []).liveProviders 100000 announcedKey 64 = [] := by
      rw [Store.liveProviders_eq, Store.providersOf_announceProvider, if_pos rfl,
        providersOf_crowded]
      decide +kernel
    rw [hnone] at he
    cases he
  · rw [Store.liveOthers, providersOf_crowded] at hothers
    revert hothers
    decide +kernel

end

/-! ## Storing again -/

section

variable [Crates]

namespace Store

/-- A read returns the value at every time up to `t`. -/
def ServesUntil (s : Store) (k : Key) (value : Bytes) (t : UInt64) : Prop :=
  ∀ now ≤ t, (s.get now k).map StoredRecord.value = some value

/-- Behind a record that is stored under `k`, the cache holds the value until `t`. -/
def CachedUntil (s : Store) (k : Key) (value : Bytes) (t : UInt64) : Prop :=
  ∃ c, s.cache.lookup k = some c ∧ c.expired t = false ∧ c.value = value

omit [Crates] in
theorem servesUntil_of_lookup {s : Store} {k : Key} {r : StoredRecord} {t : UInt64}
    (h : s.records.lookup k = some r) (hkind : r.kind ≠ kindTombstone)
    (hlive : r.expired t = false) : s.ServesUntil k r.value t := by
  intro now hnow
  rw [get_of_lookup h (StoredRecord.not_expired_of_le hnow hlive) hkind]
  rfl

omit [Crates] in
/-- What is served in the place of `q`. -/
theorem get_of_not_served {s : Store} {k : Key} {q : StoredRecord} {now : UInt64}
    (h : s.records.lookup k = some q) (hserved : q.served now = false) :
    s.get now k = (s.cache.lookup k).filter fun c ↦ !c.expired now := by
  rw [get_eq_or, h, Option.filter_some, hserved]
  rfl

omit [Crates] in
/-- A record keeps the value in view until `t` if it has this value, and if either it lives so long
itself or the cache takes over from it. -/
theorem servesUntil_iff_of_lookup {s : Store} {k : Key} {q : StoredRecord} {value : Bytes}
    {t : UInt64} (h : s.records.lookup k = some q) :
    s.ServesUntil k value t ↔ (q.kind ≠ kindTombstone → q.value = value) ∧
      (q.kind ≠ kindTombstone ∧ q.expired t = false ∨ s.CachedUntil k value t) := by
  constructor
  · intro hserves
    constructor
    · -- at the beginning of time nothing has expired
      intro hkind
      have hzero := hserves 0 (UInt64.le_iff_toNat_le.mpr (Nat.zero_le _))
      rw [get_of_lookup h q.not_expired_zero hkind] at hzero
      exact Option.some.inj hzero
    · by_cases hserved : q.served t = true
      · obtain ⟨hlive, hkind⟩ := StoredRecord.served_eq_true_iff.mp hserved
        exact Or.inl ⟨hkind, hlive⟩
      · have hend := hserves t (UInt64.le_refl t)
        rw [get_of_not_served h (Bool.eq_false_iff.mpr hserved), Option.map_eq_some_iff] at hend
        obtain ⟨c, hc, hvalue⟩ := hend
        obtain ⟨hlookup, hlive⟩ := Option.filter_eq_some_iff.mp hc
        exact Or.inr ⟨c, hlookup, by simpa using hlive, hvalue⟩
  · rintro ⟨hvalue, hlast⟩ now hnow
    by_cases hserved : q.served now = true
    · obtain ⟨hlive, hkind⟩ := StoredRecord.served_eq_true_iff.mp hserved
      rw [get_of_lookup h hlive hkind, Option.map_some, hvalue hkind]
    · rcases hlast with ⟨hkind, hlive⟩ | ⟨c, hlookup, hlive, hc⟩
      · exact absurd (StoredRecord.served_eq_true_iff.mpr
          ⟨StoredRecord.not_expired_of_le hnow hlive, hkind⟩) hserved
      · rw [get_of_not_served h (Bool.eq_false_iff.mpr hserved), hlookup, Option.filter_some,
          StoredRecord.not_expired_of_le hnow hlive, ← hc]
        rfl

omit [Crates] in
theorem servesUntil_congr {s s' : Store} {k : Key} (hrec : s'.records.lookup k = s.records.lookup k)
    (hcache : s'.cache.lookup k = s.cache.lookup k) (value : Bytes) (t : UInt64) :
    s'.ServesUntil k value t ↔ s.ServesUntil k value t := by
  have hget : ∀ now, s'.get now k = s.get now k := by
    intro now
    rw [get_eq_or, get_eq_or, hrec, hcache]
  simp only [ServesUntil, hget]

end Store

/-- **Storing again.** A value that is served until `t` is still served until `t` after a put
exactly if the record that the call stores under the key, if there is one, carries the value and
lives until `t`, or the cache serves the value once that record has expired. Neither is asked of the
caller. -/
theorem servesUntil_put_iff {s : Store} {op : StoreOp} {k : Key} {value : Bytes} {t : UInt64}
    (hop : op.IsPut) (h : s.ServesUntil k value t) :
    (op.exec s).ServesUntil k value t ↔ ∀ q, op.inserted s = some q → q.key = k →
      (q.kind ≠ kindTombstone → q.value = value) ∧
        (q.kind ≠ kindTombstone ∧ q.expired t = false ∨ s.CachedUntil k value t) := by
  have hgc : op.NoGc := by
    cases op with
    | gc now => cases hop
    | _ => trivial
  have hcache : (op.exec s).cache.lookup k = s.cache.lookup k := by
    rw [op.exec_put s hop, Store.cache_keep]
  have hlookup := StoreOp.records_exec s hgc
  rcases hins : op.inserted s with _ | q
  · rw [hins, Option.elim_none] at hlookup
    refine iff_of_true ((Store.servesUntil_congr (by rw [hlookup]) hcache _ _).mpr h) ?_
    intro q hq
    cases hq
  rw [hins, Option.elim_some] at hlookup
  simp only [Option.some.injEq, forall_eq']
  by_cases hk : q.key = k
  · have hheld : (op.exec s).records.lookup k = some q := by
      rw [hlookup, HashMap.lookup_insert_of, if_pos hk.symm]
    have hcached : (op.exec s).CachedUntil k value t ↔ s.CachedUntil k value t := by
      rw [Store.CachedUntil, hcache, Store.CachedUntil]
    rw [Store.servesUntil_iff_of_lookup hheld, hcached]
    exact (imp_iff_right hk).symm
  · have hsame : (op.exec s).records.lookup k = s.records.lookup k := by
      rw [hlookup, HashMap.lookup_insert_of, if_neg (Ne.symm hk)]
    exact iff_of_true ((Store.servesUntil_congr hsame hcache _ _).mpr h) fun hkey ↦ absurd hkey hk

end

section

open Sample

attribute [local instance] wireCrates

/-- A value of one byte is stored at time zero for a minute. -/
private def minuteRun : StoreRun := ⟨.new, [.putImmutableTtl 0 [1] 60]⟩

private def minuteRecord : StoredRecord := Store.immutableRecord 0 [1] 60

private theorem servesUntil_minute : minuteRun.final.ServesUntil minuteRecord.key [1] 60 :=
  Store.servesUntil_of_lookup (r := minuteRecord) (by decide +kernel) (by decide) (by decide)

/-- The value is stored again for longer. -/
theorem servesUntil_put_iff_longer :
    ((StoreOp.putImmutableTtl 5 [1] 100).exec minuteRun.final).ServesUntil minuteRecord.key [1]
      60 := by
  have hput : (StoreOp.putImmutableTtl 5 [1] 100).IsPut := trivial
  refine (servesUntil_put_iff hput servesUntil_minute).mpr fun q hq _ ↦ ?_
  obtain rfl : Store.immutableRecord 5 [1] 100 = q := Option.some.inj hq
  exact ⟨fun _ ↦ rfl, Or.inl ⟨by decide, by decide⟩⟩

/-- The value is stored again with a time to live of zero, and is gone after a second. -/
theorem servesUntil_put_fails :
    ¬∀ (_ : Crates) (run : StoreRun) (op : StoreOp) (k : Key) (r : StoredRecord) (t : UInt64),
      run.final.records.lookup k = some r → r.kind = kindImmutable →
      run.final.ServesUntil k r.value t → op.IsPut →
        (op.exec run.final).ServesUntil k r.value t := by
  intro h
  have hserves := h wireCrates minuteRun (.putImmutableTtl 0 [1] 0) minuteRecord.key minuteRecord 60
    (by decide +kernel) rfl servesUntil_minute trivial 60 (UInt64.le_refl 60)
  revert hserves
  decide +kernel

end

/-! ## Sizes -/

section

variable [Crates]

/-- **Sizes.** A put and a STORE request of the same immutable value agree exactly if the value has
at most `64 * 1024` or more than `64 * 1200` bytes. -/
theorem admission_agrees_iff (s s' : Store) (now now' : UInt64) (value : Bytes)
    (ttlSecs ttlSecs' : UInt64) (probe : Bool) :
    ((∃ key, (s.putImmutableTtl now value ttlSecs).1 = .ok key) ↔
        (s'.putRecord (Store.immutableRecord now' value ttlSecs') probe).1 = .ok ()) ↔
      value.length ≤ 64 * 1024 ∨ 64 * 1200 < value.length := by
  have hlocal : (∃ key, (s.putImmutableTtl now value ttlSecs).1 = .ok key) ↔
      value.length ≤ 64 * 1200 := by
    rw [Store.putImmutableTtl]
    split_ifs with hbig
    · have hlarge : 64 * 1200 < value.length := hbig
      refine iff_of_false ?_ (not_le.mpr hlarge)
      rintro ⟨key, hkey⟩
      cases hkey
    · exact iff_of_true ⟨_, rfl⟩ (not_lt.mp hbig)
  have hremote : (s'.putRecord (Store.immutableRecord now' value ttlSecs') probe).1 = .ok () ↔
      value.length ≤ 64 * 1024 := by
    rw [Store.putRecord_fst, Store.validate_eq_ok_iff]
    exact and_iff_left (Or.inl ⟨rfl, rfl⟩)
  rw [hlocal, hremote]
  omega

end

/-- There are values of every length, and one of 70000 bytes is stored here and nowhere else. -/
theorem admission_agrees_fails :
    ¬∀ (_ : Crates) (s s' : Store) (now : UInt64) (value : Bytes) (ttlSecs : UInt64) (probe : Bool),
      (∃ key, (s.putImmutableTtl now value ttlSecs).1 = .ok key) ↔
        (s'.putRecord (Store.immutableRecord now value ttlSecs) probe).1 = .ok () := by
  intro h
  obtain ⟨value, hlen⟩ : ∃ value : Bytes, value.length = 70000 :=
    ⟨List.replicate 70000 0, List.length_replicate⟩
  have hsmall : ¬value.length > pmtuFloor * 64 := by
    rw [hlen]
    decide
  let _ : Crates := Sample.crates
  have hlocal : (Store.new.putImmutableTtl 0 value 60).1 = .ok (hashValue value) := by
    rw [Store.putImmutableTtl, if_neg hsmall]
  have hremote := (h Sample.crates Store.new Store.new 0 value 60 false).mp ⟨_, hlocal⟩
  rw [Store.putRecord_fst, Store.validate_eq_ok_iff] at hremote
  have hfits : value.length + 0 ≤ 64 * 1024 := hremote.1
  omega

end Molia
