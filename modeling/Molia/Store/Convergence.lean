import Mathlib.Data.List.MinMax
import Molia.Store.Run

/-!
# Convergence of replicas

Among authentic mutable records of one key, `putRecord` keeps the one with the largest sequence. As
long as the slot holds nothing but such records, a delivery is one step of `List.argmax`, so the
slot ends with the maximum whatever the order and the repetitions of the deliveries.
-/

namespace Molia

section

variable [Crates]

/-- A record that `putRecord` can file as a version of the slot `k`. -/
structure StoredRecord.IsVersion (k : Key) (r : StoredRecord) : Prop where
  key : r.key = k
  kind : r.kind = kindMutable
  authentic : r.authentic = true
  fits : r.Fits

namespace Store

/-- The arrival of a record together with the flag it is put with. -/
def deliver (s : Store) (d : StoredRecord × Bool) : Store := (s.putRecord d.1 d.2).2

/-- The deliveries that carry a record for `k`. -/
def deliveriesFor (k : Key) (ds : List (StoredRecord × Bool)) : List (StoredRecord × Bool) :=
  ds.filter fun d ↦ d.1.key = k

/-- The newer of the two records, the one already held if they are equally new. -/
def newest (held : Option StoredRecord) (r : StoredRecord) : Option StoredRecord :=
  List.argAux (fun b c : StoredRecord ↦ c.sequence.toNat < b.sequence.toNat) held r

omit [Crates] in
theorem foldl_newest (l : List StoredRecord) :
    l.foldl newest none = l.argmax (fun r ↦ r.sequence.toNat) := rfl

theorem lookup_deliver_of_ne {s : Store} {k : Key} {d : StoredRecord × Bool} (h : d.1.key ≠ k) :
    (s.deliver d).records.lookup k = s.records.lookup k := by
  obtain ⟨r, probe⟩ := d
  have hput : s.deliver (r, probe) = (StoreOp.putRecord r probe).exec s := rfl
  have hgc : (StoreOp.putRecord r probe).NoGc := trivial
  rw [hput, StoreOp.lookup_exec_of_inserted hgc]
  cases hins : (StoreOp.putRecord r probe).inserted s with
  | none => rfl
  | some q =>
    obtain ⟨-, -, -, rfl⟩ := StoreOp.inserted_putRecord_eq_some.mp hins
    exact if_neg (Ne.symm h)

theorem inserted_version_iff {s : Store} {k : Key} {r q : StoredRecord} (hr : r.IsVersion k)
    (hs : ∀ old, s.records.lookup k = some old → old.IsVersion k) :
    (StoreOp.putRecord r false).inserted s = some q ↔
      (∀ old, s.records.lookup k = some old → old.sequence < r.sequence) ∧ r = q := by
  rw [StoreOp.inserted_putRecord_eq_some]
  constructor
  · rintro ⟨-, hacc, -, hq⟩
    refine ⟨fun old hold ↦ ?_, hq⟩
    rcases hacc with ⟨hk, -⟩ | ⟨-, -, hseq⟩ | ⟨hk, -⟩ | hk
    · exact absurd (hr.kind ▸ hk) (by decide)
    · refine (hseq old (by rw [hr.key, hold])).resolve_left fun hk ↦ ?_
      exact absurd ((hs old hold).kind ▸ hk) (by decide)
    · exact absurd (hr.kind ▸ hk) (by decide)
    · exact absurd (hr.kind ▸ hk) (by decide)
  · rintro ⟨hseq, hq⟩
    have henv : r.envelopeOk = true := by
      rw [← StoredRecord.authentic_of_signed (Or.inl hr.kind)]
      exact hr.authentic
    refine ⟨hr.fits, Or.inr (Or.inl ⟨hr.kind, henv, fun old hold ↦ ?_⟩), Or.inr rfl, hq⟩
    exact Or.inr (hseq old (hr.key ▸ hold))

theorem lookup_deliver {s : Store} {k : Key} {r : StoredRecord} (hr : r.IsVersion k)
    (hs : ∀ old, s.records.lookup k = some old → old.IsVersion k) :
    (s.deliver (r, false)).records.lookup k = newest (s.records.lookup k) r := by
  have hput : s.deliver (r, false) = (StoreOp.putRecord r false).exec s := rfl
  have hgc : (StoreOp.putRecord r false).NoGc := trivial
  rw [hput, StoreOp.lookup_exec_of_inserted hgc]
  cases hold : s.records.lookup k with
  | none =>
    have hsome := (inserted_version_iff hr hs).mpr ⟨fun old h ↦ by simp [hold] at h, rfl⟩
    simp [hsome, newest, List.argAux, hr.key]
  | some old =>
    by_cases hlt : old.sequence < r.sequence
    · have hsome := (inserted_version_iff hr hs).mpr
        ⟨fun old' h ↦ by rw [hold, Option.some.injEq] at h; exact h ▸ hlt, rfl⟩
      have hlt' : old.sequence.toNat < r.sequence.toNat := hlt
      simp [hsome, newest, List.argAux, hr.key, hlt']
    · have hnone : (StoreOp.putRecord r false).inserted s = none := by
        rw [Option.eq_none_iff_forall_ne_some]
        intro q hq
        exact hlt (((inserted_version_iff hr hs).mp hq).1 old hold)
      have hlt' : ¬old.sequence.toNat < r.sequence.toNat := hlt
      simp [hnone, newest, List.argAux, hlt']

omit [Crates] in
theorem newest_eq_some {held : Option StoredRecord} {r q : StoredRecord}
    (h : newest held r = some q) : q = r ∨ held = some q := by
  cases held with
  | none => exact Or.inl (Option.some.inj h).symm
  | some old =>
    simp only [newest, List.argAux] at h
    split_ifs at h
    · exact Or.inl (Option.some.inj h).symm
    · exact Or.inr h

/-- A whole sequence of deliveries keeps the newest of the versions delivered for the slot. -/
theorem lookup_foldl_deliver {k : Key} (ds : List (StoredRecord × Bool)) {s : Store}
    (hds : ∀ d ∈ deliveriesFor k ds, d.1.IsVersion k ∧ d.2 = false)
    (hs : ∀ old, s.records.lookup k = some old → old.IsVersion k) :
    (ds.foldl deliver s).records.lookup k
      = ((deliveriesFor k ds).map Prod.fst).foldl newest (s.records.lookup k) := by
  -- The slot holds a version all along, which is what makes each delivery a step of the maximum.
  induction ds generalizing s with
  | nil => rfl
  | cons d ds ih =>
    have htail : ∀ e ∈ deliveriesFor k ds, e.1.IsVersion k ∧ e.2 = false := fun e he ↦
      hds e (List.mem_filter.mpr
        ⟨List.mem_cons_of_mem _ (List.mem_filter.mp he).1, (List.mem_filter.mp he).2⟩)
    rw [List.foldl_cons]
    by_cases hk : d.1.key = k
    · have hcons : deliveriesFor k (d :: ds) = d :: deliveriesFor k ds :=
        List.filter_cons_of_pos (by simpa using hk)
      obtain ⟨hver, hflag⟩ := hds d (by rw [hcons]; exact List.mem_cons_self)
      have hstep : (s.deliver d).records.lookup k = newest (s.records.lookup k) d.1 := by
        obtain ⟨r, probe⟩ := d
        obtain rfl : probe = false := hflag
        exact lookup_deliver hver hs
      rw [ih htail ?_, hstep, hcons, List.map_cons, List.foldl_cons]
      intro old hold
      rw [hstep] at hold
      rcases newest_eq_some hold with rfl | hold
      · exact hver
      · exact hs old hold
    · have hcons : deliveriesFor k (d :: ds) = deliveriesFor k ds :=
        List.filter_cons_of_neg (by simpa using hk)
      have hstep := lookup_deliver_of_ne (s := s) hk
      rw [ih htail (by rw [hstep]; exact hs), hstep, hcons]

/-- The deliveries for `k` are the versions `L` in some order, each put and not probed; deliveries
for other keys are arbitrary. -/
def Delivers (k : Key) (L : List StoredRecord) (ds : List (StoredRecord × Bool)) : Prop :=
  (deliveriesFor k ds).Perm (L.map fun r ↦ (r, false))

theorem lookup_of_delivers {k : Key} {L : List StoredRecord} (hne : L ≠ [])
    (hL : ∀ r ∈ L, r.IsVersion k) {s : Store} (hs : s.records.lookup k = none)
    {ds : List (StoredRecord × Bool)} (hds : Delivers k L ds) :
    ∃ m ∈ L, (∀ r ∈ L, r.sequence ≤ m.sequence) ∧
      (ds.foldl deliver s).records.lookup k = some m := by
  have hperm : ((deliveriesFor k ds).map Prod.fst).Perm L := by
    have h := hds.map Prod.fst
    rwa [List.map_map, show Prod.fst ∘ (fun r : StoredRecord ↦ (r, false)) = id from rfl,
      List.map_id] at h
  have hmem : ∀ d ∈ deliveriesFor k ds, d.1.IsVersion k ∧ d.2 = false := by
    intro d hd
    obtain ⟨r, hr, rfl⟩ := List.mem_map.mp (hds.mem_iff.mp hd)
    exact ⟨hL r hr, rfl⟩
  have hfold := lookup_foldl_deliver ds hmem (s := s) (by simp [hs])
  rw [hs, foldl_newest] at hfold
  have hnonempty : (deliveriesFor k ds).map Prod.fst ≠ [] := fun hnil ↦
    hne (hnil ▸ hperm).nil_eq.symm
  obtain ⟨m, hm⟩ := Option.ne_none_iff_exists'.mp
    (mt (List.argmax_eq_none (f := fun r : StoredRecord ↦ r.sequence.toNat)).mp hnonempty)
  refine ⟨m, hperm.mem_iff.mp (List.argmax_mem hm), fun r hr ↦ ?_, hfold.trans hm⟩
  rw [UInt64.le_iff_toNat_le]
  exact List.le_of_mem_argmax (f := fun r : StoredRecord ↦ r.sequence.toNat)
    (hperm.mem_iff.mpr hr) hm

end Store

/-- Delivering versions of `k` with pairwise distinct contents per sequence to a store with an empty
slot, in any order, with repetitions and among deliveries for other keys, ends with the version of
the largest sequence; two replicas that receive the same set of versions hold the same record. -/
theorem replicas_converge (k : Key) (L : List StoredRecord) (hne : L ≠ [])
    (hL : ∀ r ∈ L, r.IsVersion k)
    (huniq : ∀ a ∈ L, ∀ b ∈ L, a.sequence = b.sequence → a = b)
    (s : Store) (hs : s.records.lookup k = none) (ds : List (StoredRecord × Bool))
    (hds : Store.Delivers k L ds) :
    (∃ m ∈ L, (∀ r ∈ L, r.sequence ≤ m.sequence) ∧
      (ds.foldl Store.deliver s).records.lookup k = some m) ∧
    ∀ (L' : List StoredRecord) (s' : Store) (ds' : List (StoredRecord × Bool)),
      (∀ r, r ∈ L' ↔ r ∈ L) → s'.records.lookup k = none → Store.Delivers k L' ds' →
      (ds'.foldl Store.deliver s').records.lookup k
        = (ds.foldl Store.deliver s).records.lookup k := by
  obtain ⟨m, hm, hmax, hlook⟩ := Store.lookup_of_delivers hne hL hs hds
  refine ⟨⟨m, hm, hmax, hlook⟩, fun L' s' ds' hset hs' hds' ↦ ?_⟩
  have hne' : L' ≠ [] := List.ne_nil_of_mem ((hset m).mpr hm)
  obtain ⟨m', hm', hmax', hlook'⟩ := Store.lookup_of_delivers hne'
    (fun r hr ↦ hL r ((hset r).mp hr)) hs' hds'
  have hseq : m'.sequence = m.sequence :=
    UInt64.le_antisymm (hmax m' ((hset m').mp hm')) (hmax' m ((hset m).mpr hm))
  rw [hlook', hlook, huniq m' ((hset m').mp hm') m hm hseq]

end

section

open Sample

attribute [local instance] Sample.crates

/-- Two versions delivered in the wrong order to an empty store. -/
theorem replicas_converge_two_versions :
    ∃ m ∈ [recordOne, recordTwo], (∀ r ∈ [recordOne, recordTwo], r.sequence ≤ m.sequence) ∧
      ([(recordTwo, false), (recordOne, false)].foldl Store.deliver .new).records.lookup slotKey
        = some m := by
  refine (replicas_converge slotKey [recordOne, recordTwo] (by simp) ?_ ?_ .new (by decide)
    [(recordTwo, false), (recordOne, false)] ?_).1
  · rw [List.forall_mem_cons, List.forall_mem_singleton]
    exact ⟨⟨rfl, rfl, by decide +kernel, by decide⟩, ⟨rfl, rfl, by decide +kernel, by decide⟩⟩
  · decide
  · exact List.Perm.swap _ _ _

end

end Molia
