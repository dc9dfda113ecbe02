import Mathlib.Algebra.Order.Ring.Nat
import Mathlib.Data.List.Induction
import Molia.Net.TableOps

/-!
# Smoothed round trip times

An answer moves the round trip time on record by an eighth of the way to the sample,
`(7 * old + sample) / 8`. Over the integers the result lies between the two. The source computes in
32 bits, where the sum is up to eight times as large as the result: it fits as long as the sample is
not too large, and wraps if it is.

What is stored is a quotient by 8, so it is always below `2 ^ 29` (`srtt_lt`), and a sample of up to
`2 ^ 29` is safe whatever came before. A larger one may wrap, and the time on record then drops
below everything that was measured. `smoothing_iff` says for which runs the times are what they
should be.
-/

namespace Molia

/-! ## The computation -/

def checkedMul (a b : UInt32) : Option UInt32 :=
  if a.toNat * b.toNat < 2 ^ 32 then some (a * b) else none

def checkedAdd (a b : UInt32) : Option UInt32 :=
  if a.toNat + b.toNat < 2 ^ 32 then some (a + b) else none

/-- The smoothed round trip time with every operation checked. -/
def ewmaChecked (old sample : UInt32) : Option UInt32 := do
  let scaled ← checkedMul old 7
  let sum ← checkedAdd scaled sample
  return sum / 8

/-- The sum fits in 32 bits. -/
def SumFits (old sample : UInt32) : Prop := old.toNat * 7 + sample.toNat < 2 ^ 32

instance (old sample : UInt32) : Decidable (SumFits old sample) :=
  inferInstanceAs (Decidable (_ < _))

theorem toNat_mul_seven {old sample : UInt32} (h : SumFits old sample) :
    (old * 7).toNat = old.toNat * 7 := by
  have hlt : old.toNat * 7 < 2 ^ 32 := lt_of_le_of_lt (Nat.le_add_right _ _) h
  rw [UInt32.toNat_mul]
  exact Nat.mod_eq_of_lt hlt

theorem toNat_ewma {old sample : UInt32} (h : SumFits old sample) :
    (ewma old sample).toNat = (old.toNat * 7 + sample.toNat) / 8 := by
  rw [ewma, UInt32.toNat_div, UInt32.toNat_add, toNat_mul_seven h, Nat.mod_eq_of_lt h]
  rfl

/-- Whether it wraps or not, the result is a quotient by 8. -/
theorem toNat_ewma_lt (old sample : UInt32) : (ewma old sample).toNat < 2 ^ 29 := by
  rw [ewma, UInt32.toNat_div]
  exact Nat.div_lt_of_lt_mul (old * 7 + sample).toNat_lt

theorem ewmaChecked_eq_some_iff {old sample : UInt32} :
    ewmaChecked old sample = some (ewma old sample) ↔ SumFits old sample := by
  constructor
  · intro h
    obtain ⟨scaled, hscaled, h⟩ := Option.bind_eq_some_iff.mp h
    obtain ⟨sum, hsum, -⟩ := Option.bind_eq_some_iff.mp h
    obtain ⟨hmul, hscaled⟩ := Option.ite_none_right_eq_some.mp hscaled
    obtain ⟨hadd, -⟩ := Option.ite_none_right_eq_some.mp hsum
    rw [← Option.some.inj hscaled, UInt32.toNat_mul, Nat.mod_eq_of_lt hmul] at hadd
    exact hadd
  · intro h
    have hscaled := toNat_mul_seven h
    have hmul : old.toNat * (7 : UInt32).toNat < 2 ^ 32 :=
      lt_of_le_of_lt (Nat.le_add_right _ sample.toNat) h
    have hadd : (old * 7).toNat + sample.toNat < 2 ^ 32 := by
      rw [hscaled]
      exact h
    rw [ewmaChecked, checkedMul, if_pos hmul, Option.bind_eq_bind, Option.bind_some, checkedAdd,
      if_pos hadd]
    rfl

/-! ## Bounds -/

/-- The least of the initial time and the samples. -/
def lowest (samples : List UInt32) : ℕ := (samples.map UInt32.toNat).foldl min 200000

/-- The greatest of the initial time and the samples. -/
def highest (samples : List UInt32) : ℕ := (samples.map UInt32.toNat).foldl max 200000

/-- The time lies between the least and the greatest. -/
def Spans (samples : List UInt32) (x : ℕ) : Prop := lowest samples ≤ x ∧ x ≤ highest samples

theorem lowest_concat (samples : List UInt32) (x : UInt32) :
    lowest (samples ++ [x]) = min (lowest samples) x.toNat := by
  rw [lowest, List.map_append, List.foldl_append]
  rfl

theorem highest_concat (samples : List UInt32) (x : UInt32) :
    highest (samples ++ [x]) = max (highest samples) x.toNat := by
  rw [highest, List.map_append, List.foldl_append]
  rfl

theorem spans_initial (samples : List UInt32) : Spans samples 200000 := by
  induction samples using List.reverseRecOn with
  | nil => exact ⟨le_rfl, le_rfl⟩
  | append_singleton samples x ih =>
    rw [Spans, lowest_concat, highest_concat]
    exact ⟨(min_le_left _ _).trans ih.1, ih.2.trans (le_max_left _ _)⟩

theorem Spans.concat {samples : List UInt32} {x : ℕ} (h : Spans samples x) (sample : UInt32) :
    Spans (samples ++ [sample]) x := by
  rw [Spans, lowest_concat, highest_concat]
  exact ⟨(min_le_left _ _).trans h.1, h.2.trans (le_max_left _ _)⟩

theorem Spans.ewma {samples : List UInt32} {old sample : UInt32} (h : Spans samples old.toNat)
    (hfits : SumFits old sample) :
    Spans (samples ++ [sample]) (Molia.ewma old sample).toNat := by
  obtain ⟨hlow, hhigh⟩ := h
  rw [Spans, lowest_concat, highest_concat, toNat_ewma hfits]
  omega

/-! ## One operation -/

namespace RoutingTable

variable {t : RoutingTable} {op : TableOp}

/-- Nobody who waits has been measured. -/
def Unsampled (t : RoutingTable) : Prop := ∀ i, ∀ e ∈ t.replacement i, e.srttUs = 200000

/-- Where the time of an entry comes from after an operation. -/
inductive Stems (t : RoutingTable) (op : TableOp) (e' : PeerEntry) : Prop where
  | kept {i : ℕ} {e : PeerEntry} (he : e ∈ t.buckets i) (hid : e'.id = e.id)
      (hsrtt : e'.srttUs = e.srttUs)
  | fresh (hsrtt : e'.srttUs = 200000)
  | answered {now : ℕ} {sample : UInt32} {e : PeerEntry} (hop : op = .touchOk now e'.id sample)
      (he : t.get e'.id = some e) (hsrtt : e'.srttUs = ewma e.srttUs sample)

theorem eq_or_find_of_mem_updateFirst {id : NodeId} {f : PeerEntry → PeerEntry}
    {b : List PeerEntry} {e' : PeerEntry} (h : e' ∈ updateFirst id f b) :
    e' ∈ b ∨ ∃ e, b.find? (fun e ↦ e.id = id) = some e ∧ e' = f e := by
  induction b with
  | nil => cases h
  | cons first b ih =>
    rw [updateFirst] at h
    split_ifs at h with hfirst
    · rcases List.mem_cons.mp h with rfl | hrest
      · exact Or.inr ⟨first, List.find?_cons_of_pos (decide_eq_true hfirst), rfl⟩
      · exact Or.inl (List.mem_cons_of_mem _ hrest)
    · rcases List.mem_cons.mp h with rfl | hrest
      · exact Or.inl List.mem_cons_self
      · rw [List.find?_cons_of_neg (by simpa using hfirst)]
        exact (ih hrest).imp_left (List.mem_cons_of_mem _)

theorem forall_stems_buckets (t : RoutingTable) (op : TableOp) (i : ℕ) :
    ∀ e ∈ t.buckets i, Stems t op e := fun _ he ↦ .kept he rfl rfl

theorem Inserted.stems {now : ℕ} {info : PeerInfo} {t' : RoutingTable}
    (h : Inserted t now info t') (i : ℕ) : ∀ e' ∈ t'.buckets i, Stems t op e' := by
  have hbuckets := forall_stems_buckets t op
  cases h with
  | keep => exact hbuckets i
  | refresh hself hok he =>
    refine forall_setBucket (p := fun _ b ↦ ∀ e' ∈ b, Stems t op e') (fun e' he' ↦ ?_) hbuckets i
    rcases List.mem_append.mp he' with hold | hnew
    · exact hbuckets _ e' (List.mem_of_mem_eraseP hold)
    · rw [List.mem_singleton.mp hnew]
      exact .kept (mem_bucketOf_of_get he) (id_of_get he).symm rfl
  | enter hself hok hnew hroom =>
    refine forall_setBucket (p := fun _ b ↦ ∀ e' ∈ b, Stems t op e') (fun e' he' ↦ ?_) hbuckets i
    rcases List.mem_append.mp he' with hold | hnew
    · exact hbuckets _ e' hold
    · rw [List.mem_singleton.mp hnew]
      exact .fresh rfl
  | wait hself hok hnew hroom => exact hbuckets i

theorem stems_evictAndReplace (hwait : t.Unsampled) (dead : NodeId) (i : ℕ) :
    ∀ e' ∈ (t.evictAndReplace dead).buckets i, Stems t op e' := by
  have hbuckets := forall_stems_buckets t op
  rw [evictAndReplace_eq]
  refine forall_setBucket (p := fun _ b ↦ ∀ e' ∈ b, Stems t op e') (fun e' he' ↦ ?_) hbuckets i
  rcases List.mem_append.mp he' with hold | hnew
  · exact hbuckets _ e' (List.mem_of_mem_filter hold)
  · have hlast := (Option.filter_eq_some_iff.mp (Option.mem_toList.mp hnew)).1
    exact .fresh (hwait _ e' (List.mem_of_getLast? hlast))

/-- **One operation.** An entry has the time that an entry of the peer had, the initial time, or the
mean of the time that `get` found and the sample of the answer. -/
theorem stems_apply (hwait : t.Unsampled) (op : TableOp) (i : ℕ) :
    ∀ e' ∈ (t.apply op).buckets i, Stems t op e' := by
  have hbuckets := forall_stems_buckets t op
  cases op with
  | insert now info => exact (inserted t now info).stems i
  | evictAndReplace dead => exact stems_evictAndReplace hwait dead i
  | touchOk now id sample =>
    refine forall_setBucket (p := fun _ b ↦ ∀ e' ∈ b, Stems t _ e') (fun e' he' ↦ ?_) hbuckets i
    rcases eq_or_find_of_mem_updateFirst he' with hold | ⟨e, he, rfl⟩
    · exact hbuckets _ e' hold
    · have hget : t.get id = some e := he
      have hid : e.id = id := id_of_get hget
      exact .answered (congrArg (TableOp.touchOk now · sample) hid.symm)
        ((congrArg t.get hid).trans hget) rfl
  | markFail id =>
    rw [apply]
    rcases he : t.get id with _ | e
    · rw [markFail_of_get_none he]
      exact hbuckets i
    · by_cases hthree : saturatingSucc e.failCount ≥ 3
      · rw [markFail_of_three he hthree]
        exact stems_evictAndReplace hwait id i
      · rw [markFail_of_few he hthree]
        refine forall_setBucket (p := fun _ b ↦ ∀ e' ∈ b, Stems t _ e') (fun e' he' ↦ ?_) hbuckets i
        rcases mem_updateFirst he' with hold | ⟨e, he, rfl⟩
        · exact hbuckets _ e' hold
        · exact .kept he rfl rfl

theorem unsampled_new (selfId : NodeId) : (new selfId).Unsampled := by
  intro i e he
  cases he

theorem Unsampled.evictAndReplace (h : t.Unsampled) (dead : NodeId) :
    (t.evictAndReplace dead).Unsampled := by
  rw [evictAndReplace_eq]
  exact forall_setReplacement (p := fun _ b ↦ ∀ e ∈ b, e.srttUs = 200000)
    (fun e he ↦ h _ e (List.dropLast_subset _ he)) h

theorem Unsampled.apply (h : t.Unsampled) (op : TableOp) : (t.apply op).Unsampled := by
  rcases hdead : t.evicts op with _ | dead
  · have hedit := edit_apply hdead
    generalize t.apply op = t' at hedit ⊢
    cases hedit with
    | keep => exact h
    | refresh hself hok he => exact h
    | enter hself hok hnew hroom => exact h
    | rewrite hid haddr => exact h
    | wait hself hok hnew hroom =>
      refine forall_setReplacement (p := fun _ b ↦ ∀ e ∈ b, e.srttUs = 200000) (fun e he ↦ ?_) h
      rcases List.mem_append.mp he with hold | hnew
      · exact h _ e hold
      · rw [List.mem_singleton.mp hnew]
        rfl
  · rw [apply_of_evicts hdead]
    exact h.evictAndReplace dead

/-! ## Runs -/

/-- The samples that an operation applies to a peer: that of an answer, if the peer has an entry. -/
def sampled (id : NodeId) (t : RoutingTable) : TableOp → List UInt32
  | .touchOk _ id' sample => if id' = id ∧ (t.get id).isSome then [sample] else []
  | _ => []

/-- The samples applied to a peer in a run. -/
def samples (id : NodeId) : RoutingTable → List TableOp → List UInt32
  | _, [] => []
  | t, op :: ops => sampled id t op ++ samples id (t.apply op) ops

theorem samples_concat (id : NodeId) (t : RoutingTable) (ops : List TableOp) (op : TableOp) :
    samples id t (ops ++ [op]) = samples id t ops ++ sampled id (ops.foldl apply t) op := by
  induction ops generalizing t with
  | nil => exact List.append_nil _
  | cons first ops ih =>
    rw [List.cons_append, samples, ih, samples, List.append_assoc]
    rfl

theorem sampled_cases (id : NodeId) (t : RoutingTable) (op : TableOp) :
    sampled id t op = [] ∨ ∃ sample, sampled id t op = [sample] := by
  cases op with
  | touchOk now id' sample =>
    rw [sampled]
    split_ifs
    · exact Or.inr ⟨sample, rfl⟩
    · exact Or.inl rfl
  | insert now info => exact Or.inl rfl
  | markFail id => exact Or.inl rfl
  | evictAndReplace id => exact Or.inl rfl

theorem spans_sampled {xs : List UInt32} {x : ℕ} (h : Spans xs x) (id : NodeId)
    (t : RoutingTable) (op : TableOp) : Spans (xs ++ sampled id t op) x := by
  rcases sampled_cases id t op with hnone | ⟨sample, hone⟩
  · rw [hnone, List.append_nil]
    exact h
  · rw [hone]
    exact h.concat sample

/-- The table of a node after a run of operations. -/
def after (selfId : NodeId) (ops : List TableOp) : RoutingTable := ops.foldl apply (new selfId)

theorem after_concat (selfId : NodeId) (ops : List TableOp) (op : TableOp) :
    after selfId (ops ++ [op]) = (after selfId ops).apply op := List.foldl_append

theorem unsampled_after (selfId : NodeId) (ops : List TableOp) : (after selfId ops).Unsampled :=
  Runs.along_true.invariant (fun _ op h _ ↦ h.apply op) (unsampled_new selfId)

/-- **Stored times are small.** -/
theorem srtt_lt (selfId : NodeId) (ops : List TableOp) (i : ℕ) :
    ∀ e ∈ (after selfId ops).buckets i, e.srttUs.toNat < 2 ^ 29 := by
  induction ops using List.reverseRecOn generalizing i with
  | nil =>
    intro e he
    cases he
  | append_singleton ops op ih =>
    intro e' he'
    rw [after_concat] at he'
    cases stems_apply (unsampled_after selfId ops) op i e' he' with
    | kept he hid hsrtt =>
      rw [hsrtt]
      exact ih _ _ he
    | fresh hsrtt =>
      rw [hsrtt]
      decide
    | answered hop he hsrtt =>
      rw [hsrtt]
      exact toNat_ewma_lt _ _

/-- Every answer of the run has a sample that fits with the time on record. -/
def SamplesFit (selfId : NodeId) (ops : List TableOp) : Prop :=
  ∀ pre now id sample post e, ops = pre ++ .touchOk now id sample :: post →
    (after selfId pre).get id = some e → e.srttUs.toNat * 7 + sample.toNat < 2 ^ 32

theorem SamplesFit.init {selfId : NodeId} {ops : List TableOp} {op : TableOp}
    (h : SamplesFit selfId (ops ++ [op])) : SamplesFit selfId ops := by
  intro pre now id sample post e hops
  refine h pre now id sample (post ++ [op]) e ?_
  rw [hops, List.append_assoc, List.cons_append]

theorem SamplesFit.mono {selfId : NodeId} {ops pre : List TableOp}
    (h : SamplesFit selfId ops) (hpre : pre <+: ops) : SamplesFit selfId pre := by
  obtain ⟨post, rfl⟩ := hpre
  induction post using List.reverseRecOn with
  | nil =>
    rw [List.append_nil] at h
    exact h
  | append_singleton post op ih =>
    rw [← List.append_assoc] at h
    exact ih h.init

/-- Where every sample fits, the time of an entry is spanned by the samples applied to its peer. -/
theorem spans_after {selfId : NodeId} {ops : List TableOp} (hfit : SamplesFit selfId ops) (i : ℕ) :
    ∀ e ∈ (after selfId ops).buckets i,
      Spans (samples e.id (new selfId) ops) e.srttUs.toNat := by
  induction ops using List.reverseRecOn generalizing i with
  | nil =>
    intro e he
    cases he
  | append_singleton ops op ih =>
    intro e' he'
    rw [after_concat] at he'
    rw [samples_concat]
    cases stems_apply (unsampled_after selfId ops) op i e' he' with
    | kept he hid hsrtt =>
      rw [hid, hsrtt]
      exact spans_sampled (ih hfit.init _ _ he) _ _ _
    | fresh hsrtt =>
      rw [hsrtt]
      exact spans_sampled (spans_initial _) _ _ _
    | answered hop he hsrtt =>
      rename_i now sample e
      have hfits : SumFits e.srttUs sample :=
        hfit ops now e'.id sample [] e (by rw [hop]) he
      have hspans := ih hfit.init _ e (mem_bucketOf_of_get he)
      rw [id_of_get he] at hspans
      have hsampled : sampled e'.id (ops.foldl apply (new selfId)) op = [sample] := by
        have hsome : ((ops.foldl apply (new selfId)).get e'.id).isSome = true := by
          rw [Option.isSome_iff_exists]
          exact ⟨e, he⟩
        rw [hop]
        exact if_pos ⟨rfl, hsome⟩
      rw [hsrtt, hsampled]
      exact hspans.ewma hfits

/-! ## Timeouts -/

/-- The timeout for a round trip time. -/
def timeoutFor (srtt : ℕ) : ℕ := max 50000 (min 600000 (2 * srtt))

theorem timeoutFor_mono {a b : ℕ} (h : a ≤ b) : timeoutFor a ≤ timeoutFor b := by
  rw [timeoutFor, timeoutFor]
  omega

theorem toNat_clamp (x lo hi : UInt32) (h : lo ≤ hi) :
    (clamp x lo hi).toNat = max lo.toNat (min hi.toNat x.toNat) := by
  rw [UInt32.le_iff_toNat_le] at h
  rw [clamp]
  split_ifs with hlow hhigh
  · rw [UInt32.lt_iff_toNat_lt] at hlow
    omega
  · have hhigh' : hi.toNat < x.toNat := UInt32.lt_iff_toNat_lt.mp hhigh
    omega
  · rw [UInt32.lt_iff_toNat_lt, not_lt] at hlow
    have hhigh' : x.toNat ≤ hi.toNat := not_lt.mp fun hlt ↦ hhigh (UInt32.lt_iff_toNat_lt.mpr hlt)
    omega

theorem min_saturatingMul (x : UInt32) :
    min 600000 (saturatingMul x 2).toNat = min 600000 (2 * x.toNat) := by
  have htwo : (2 : UInt32).toNat = 2 := rfl
  rw [saturatingMul, htwo]
  split_ifs with hfit
  · rw [UInt32.toNat_mul, htwo, Nat.mod_eq_of_lt (by omega), Nat.mul_comm]
  · have hmax : (0xFFFFFFFF : UInt32).toNat = 0xFFFFFFFF := rfl
    rw [hmax]
    omega

theorem toNat_timeoutUs (t : RoutingTable) (id : NodeId) :
    (t.timeoutUs id).toNat
      = timeoutFor (((t.get id).map fun e ↦ e.srttUs.toNat).getD 200000) := by
  have hsrtt : (((t.get id).map PeerEntry.srttUs).getD 200000).toNat
      = ((t.get id).map fun e ↦ e.srttUs.toNat).getD 200000 := by
    rcases t.get id with _ | e
    · rfl
    · rfl
  rw [timeoutUs, toNat_clamp _ _ _ (by decide)]
  change max 50000 (min 600000 (saturatingMul _ 2).toNat) = _
  rw [min_saturatingMul, hsrtt, timeoutFor]

/-! ## When the times are right -/

/-- The times of a run are what they should be: no operation of the computation fails, the time of
every entry is spanned by the samples applied to its peer, and so is every timeout. -/
structure Smooth (selfId : NodeId) (ops : List TableOp) : Prop where
  computes : ∀ pre now id sample post e, ops = pre ++ .touchOk now id sample :: post →
    (after selfId pre).get id = some e →
    ewmaChecked e.srttUs sample = some (ewma e.srttUs sample)
  spans : ∀ pre, pre <+: ops → ∀ i, ∀ e ∈ (after selfId pre).buckets i,
    lowest (samples e.id (new selfId) pre) ≤ e.srttUs.toNat ∧
      e.srttUs.toNat ≤ highest (samples e.id (new selfId) pre)
  timeouts : ∀ pre, pre <+: ops → ∀ id,
    timeoutFor (lowest (samples id (new selfId) pre)) ≤ ((after selfId pre).timeoutUs id).toNat ∧
      ((after selfId pre).timeoutUs id).toNat ≤ timeoutFor (highest (samples id (new selfId) pre))

theorem smooth_of_samplesFit {selfId : NodeId} {ops : List TableOp}
    (hfit : SamplesFit selfId ops) : Smooth selfId ops where
  computes pre now id sample post e hops he :=
    ewmaChecked_eq_some_iff.mpr (hfit pre now id sample post e hops he)
  spans pre hpre i e he := spans_after (hfit.mono hpre) i e he
  timeouts pre hpre id := by
    have hspans : Spans (samples id (new selfId) pre)
        ((((after selfId pre).get id).map fun e ↦ e.srttUs.toNat).getD 200000) := by
      rcases he : (after selfId pre).get id with _ | e
      · exact spans_initial _
      · have hbucket := spans_after (hfit.mono hpre) _ e (mem_bucketOf_of_get he)
        rw [id_of_get he] at hbucket
        exact hbucket
    rw [toNat_timeoutUs]
    exact ⟨timeoutFor_mono hspans.1, timeoutFor_mono hspans.2⟩

theorem samplesFit_of_samples_le {selfId : NodeId} {ops : List TableOp}
    (h : ∀ now id sample, .touchOk now id sample ∈ ops → sample.toNat ≤ 2 ^ 29) :
    SamplesFit selfId ops := by
  intro pre now id sample post e hops he
  have hold := srtt_lt selfId pre _ e (mem_bucketOf_of_get he)
  have hsample := h now id sample (by rw [hops]; exact List.mem_append_cons_self)
  omega

/-- **When smoothing is right.** The times of a run are what they should be if and only if the sum
of every answer fits in 32 bits. This is so, whatever was measured before, if no sample exceeds
`2 ^ 29`. -/
theorem smoothing_iff (selfId : NodeId) (ops : List TableOp) :
    (Smooth selfId ops ↔ ∀ pre now id sample post e,
      ops = pre ++ .touchOk now id sample :: post → (after selfId pre).get id = some e →
      e.srttUs.toNat * 7 + sample.toNat < 2 ^ 32) ∧
    ((∀ now id sample, .touchOk now id sample ∈ ops → sample.toNat ≤ 2 ^ 29) →
      Smooth selfId ops) := by
  refine ⟨⟨?_, smooth_of_samplesFit⟩, fun h ↦ smooth_of_samplesFit (samplesFit_of_samples_le h)⟩
  intro h pre now id sample post e hops he
  exact ewmaChecked_eq_some_iff.mp (h.computes pre now id sample post e hops he)

/-- A peer that answers once, with the largest sample. -/
private def lateAnswer : List TableOp :=
  [.insert 0 (PeerInfo.new ⟨Bytes32.fill 1⟩ (.ofV4 10 0 0 1 9000)),
    .touchOk 1 ⟨Bytes32.fill 1⟩ 0xFFFFFFFF]

/-- The time on record drops from 200000 to 174999. -/
theorem smoothing_fails : ¬∀ (selfId : NodeId) (ops : List TableOp), Smooth selfId ops := by
  intro hall
  have hsrtt : ((after NodeId.zero lateAnswer).get ⟨Bytes32.fill 1⟩).map PeerEntry.srttUs
      = some 174999 := by decide +kernel
  obtain ⟨e, he, hvalue⟩ := Option.map_eq_some_iff.mp hsrtt
  have hlow := ((hall NodeId.zero lateAnswer).spans lateAnswer (List.prefix_refl _) _ e
    (mem_bucketOf_of_get he)).1
  rw [id_of_get he, hvalue] at hlow
  revert hlow
  decide +kernel

end RoutingTable

end Molia
