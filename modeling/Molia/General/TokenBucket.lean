import Mathlib.Algebra.BigOperators.Group.List.Basic
import Mathlib.Algebra.Order.Field.Basic
import Mathlib.Algebra.Order.Group.MinMax
import Mathlib.Data.List.Infix
import Mathlib.Tactic.Linarith
import Molia.General.Runs

/-!
# Token buckets

A bucket holds at most `cap` tokens and gains `rate` tokens per unit of time. A request is granted
if the bucket holds its cost, which is then taken out; a request that is not granted costs nothing.

What is granted in a window of time is at most the capacity and what the bucket gains in it
(`granted_le`). Conversely, a full bucket grants all requests if and only if no window asks for more
than that (`allGranted_full_iff`).

A system may draw from a bucket at some of its steps. What it lets through in a window is bounded in
the same way (`count_le`), and it lets everything through if and only if the steps that draw conform
(`along_grants_iff`).
-/

namespace TokenBuckets

variable {E K : Type*} [Field K] [LinearOrder K]

/-- The tokens that were left when the bucket was last asked. -/
structure Level (K : Type*) where
  tokens : K
  last : K

/-- The numbers of a bucket, and when requests are made and what they cost. -/
structure Limit (E K : Type*) [Field K] [LinearOrder K] where
  cap : K
  rate : K
  time : E → K
  cost : E → K
  cap_nonneg : 0 ≤ cap
  rate_nonneg : 0 ≤ rate
  cost_nonneg : ∀ r, 0 ≤ cost r

namespace Limit

/-- The tokens at time `t`. -/
def refilled (l : Limit E K) (b : Level K) (t : K) : K :=
  min (b.tokens + (t - b.last) * l.rate) l.cap

/-- The bucket holds the cost of the request. -/
def Grants (l : Limit E K) (b : Level K) (r : E) : Prop := l.cost r ≤ l.refilled b (l.time r)

instance (l : Limit E K) (b : Level K) (r : E) : Decidable (l.Grants b r) :=
  inferInstanceAs (Decidable (_ ≤ _))

/-- The tokens that a request takes out. -/
def taken (l : Limit E K) (b : Level K) (r : E) : K := if l.Grants b r then l.cost r else 0

def take (l : Limit E K) (b : Level K) (r : E) : Level K where
  tokens := l.refilled b (l.time r) - l.taken b r
  last := l.time r

/-- The tokens that a sequence of requests takes out. -/
def granted (l : Limit E K) : Level K → List E → K
  | _, [] => 0
  | b, r :: rs => l.taken b r + l.granted (l.take b r) rs

/-- All requests are granted. -/
def AllGranted (l : Limit E K) : Level K → List E → Prop := Runs.Along l.take l.Grants

/-- No request comes before the one that was made last. -/
def InOrder (l : Limit E K) : Level K → List E → Prop :=
  Runs.Along l.take fun b r ↦ b.last ≤ l.time r

/-- A full bucket. -/
def full (l : Limit E K) (t : K) : Level K := ⟨l.cap, t⟩

variable {l : Limit E K} {b : Level K} {r : E} {rs : List E}

theorem inOrder_of_pairwise (hlast : ∀ r ∈ rs, b.last ≤ l.time r)
    (hrs : rs.Pairwise fun r r' ↦ l.time r ≤ l.time r') : l.InOrder b rs := by
  induction rs generalizing b with
  | nil => trivial
  | cons r rs ih =>
    obtain ⟨hfirst, hrest⟩ := List.pairwise_cons.mp hrs
    exact ⟨hlast r List.mem_cons_self, ih hfirst hrest⟩

theorem taken_nonneg (l : Limit E K) (b : Level K) (r : E) : 0 ≤ l.taken b r := by
  rw [taken]
  split_ifs
  · exact l.cost_nonneg r
  · exact le_refl 0

theorem taken_add_tokens (l : Limit E K) (b : Level K) (r : E) :
    l.taken b r + (l.take b r).tokens = l.refilled b (l.time r) :=
  add_sub_cancel _ _

/-! ## What a window grants -/

variable [IsStrictOrderedRing K]

/-- It does not matter since when a bucket has been full. -/
theorem refilled_full {t t' : K} (h : t ≤ t') : l.refilled (l.full t) t' = l.cap :=
  min_eq_right (le_add_of_nonneg_right (mul_nonneg (sub_nonneg.mpr h) l.rate_nonneg))

theorem take_full {t : K} (h : t ≤ l.time r) : l.take (l.full t) r = l.take (l.full (l.time r)) r ∧
    (l.Grants (l.full t) r ↔ l.Grants (l.full (l.time r)) r) := by
  have heq : l.refilled (l.full t) (l.time r) = l.refilled (l.full (l.time r)) (l.time r) :=
    (refilled_full h).trans (refilled_full (le_refl _)).symm
  have hgrants : l.Grants (l.full t) r ↔ l.Grants (l.full (l.time r)) r := by
    rw [Grants, heq, Grants]
  refine ⟨?_, hgrants⟩
  rw [take, take, taken, taken, heq]
  simp only [hgrants]

theorem tokens_take_nonneg (hb : 0 ≤ b.tokens) (ht : b.last ≤ l.time r) :
    0 ≤ (l.take b r).tokens := by
  change 0 ≤ l.refilled b (l.time r) - l.taken b r
  rw [taken]
  split_ifs with hgrants
  · exact sub_nonneg.mpr hgrants
  · rw [sub_zero]
    exact le_min (add_nonneg hb (mul_nonneg (sub_nonneg.mpr ht) l.rate_nonneg)) l.cap_nonneg

theorem granted_le_of_le {t : K} (hb : 0 ≤ b.tokens) (hlast : b.last ≤ t)
    (horder : l.InOrder b rs) (htime : ∀ r ∈ rs, l.time r ≤ t) :
    l.granted b rs ≤ b.tokens + (t - b.last) * l.rate := by
  induction rs generalizing b with
  | nil => exact add_nonneg hb (mul_nonneg (sub_nonneg.mpr hlast) l.rate_nonneg)
  | cons r rs ih =>
    obtain ⟨hfirst, hrest⟩ := List.forall_mem_cons.mp htime
    have hle : l.granted (l.take b r) rs ≤ (l.take b r).tokens + (t - l.time r) * l.rate :=
      ih (tokens_take_nonneg hb horder.1) hfirst horder.2 hrest
    have htaken := l.taken_add_tokens b r
    have hmin : l.refilled b (l.time r) ≤ b.tokens + (l.time r - b.last) * l.rate :=
      min_le_left _ _
    rw [granted]
    linarith

/-- **The bound of a window.** Between two times no more is granted than the capacity and what the
bucket gains. -/
theorem granted_le {t t' : K} (hb : 0 ≤ b.tokens) (horder : l.InOrder b rs) (hle : t ≤ t')
    (htime : ∀ r ∈ rs, t ≤ l.time r ∧ l.time r ≤ t') :
    l.granted b rs ≤ l.cap + (t' - t) * l.rate := by
  rcases rs with _ | ⟨r, rs⟩
  · exact add_nonneg l.cap_nonneg (mul_nonneg (sub_nonneg.mpr hle) l.rate_nonneg)
  · obtain ⟨⟨hfrom, hto⟩, hrest⟩ := List.forall_mem_cons.mp htime
    have hgranted : l.granted (l.take b r) rs ≤ (l.take b r).tokens + (t' - l.time r) * l.rate :=
      granted_le_of_le (tokens_take_nonneg hb horder.1) hto horder.2 fun r hr ↦ (hrest r hr).2
    have htaken := l.taken_add_tokens b r
    have hmin : l.refilled b (l.time r) ≤ l.cap := min_le_right _ _
    have hgain : (t' - l.time r) * l.rate ≤ (t' - t) * l.rate :=
      mul_le_mul_of_nonneg_right (sub_le_sub_left hfrom t') l.rate_nonneg
    rw [granted]
    linarith

/-! ## When everything is granted -/

/-- No first part of the requests costs more than `budget` and the gain since `t`. -/
def Within (l : Limit E K) : K → K → List E → Prop
  | _, _, [] => True
  | budget, t, r :: rs =>
    l.cost r ≤ budget + (l.time r - t) * l.rate ∧ l.Within (budget - l.cost r) t rs

/-- No window of the requests costs more than the capacity and the gain. -/
def Conforms (l : Limit E K) (rs : List E) : Prop :=
  ∀ win, win <:+: rs → (h : win ≠ []) →
    (win.map l.cost).sum ≤ l.cap + (l.time (win.getLast h) - l.time (win.head h)) * l.rate

theorem within_min {budget budget' t : K} : l.Within (min budget budget') t rs ↔
    l.Within budget t rs ∧ l.Within budget' t rs := by
  induction rs generalizing budget budget' with
  | nil => exact (and_self_iff).symm
  | cons r rs ih =>
    rw [Within, Within, Within, ← min_sub_sub_right, ih, ← min_add_add_right, le_min_iff]
    exact and_and_and_comm

omit [IsStrictOrderedRing K] in
theorem within_shift {budget t t' : K} :
    l.Within (budget + (t' - t) * l.rate) t' rs ↔ l.Within budget t rs := by
  induction rs generalizing budget with
  | nil => exact Iff.rfl
  | cons r rs ih =>
    have hbudget : budget + (t' - t) * l.rate - l.cost r
        = budget - l.cost r + (t' - t) * l.rate := add_sub_right_comm _ _ _
    have hgain : budget + (t' - t) * l.rate + (l.time r - t') * l.rate
        = budget + (l.time r - t) * l.rate := by
      rw [add_assoc, ← add_mul, add_comm (t' - t), sub_add_sub_cancel]
    rw [Within, Within, hbudget, hgain, ih]

theorem within_iff {budget t : K} : l.Within budget t rs ↔ ∀ win, win <+: rs → (h : win ≠ []) →
    (win.map l.cost).sum ≤ budget + (l.time (win.getLast h) - t) * l.rate := by
  induction rs generalizing budget with
  | nil => exact iff_of_true trivial fun win hwin h ↦ absurd (List.prefix_nil.mp hwin) h
  | cons r rs ih =>
    rw [Within, ih]
    constructor
    · rintro ⟨hr, hrest⟩ win hwin h
      obtain rfl | ⟨win', rfl, hwin'⟩ := List.prefix_cons_iff.mp hwin
      · exact absurd rfl h
      · rcases eq_or_ne win' [] with rfl | hne
        · simpa using hr
        · have hle := hrest win' hwin' hne
          rw [List.map_cons, List.sum_cons, List.getLast_cons hne]
          linarith
    · intro hall
      refine ⟨by simpa using hall [r] (List.prefix_iff_eq_append.mpr rfl) (List.cons_ne_nil r []),
        fun win hwin h ↦ ?_⟩
      have hle := hall (r :: win) (List.prefix_cons_inj r |>.mpr hwin) (List.cons_ne_nil r win)
      rw [List.map_cons, List.sum_cons, List.getLast_cons h] at hle
      linarith

theorem conforms_cons :
    l.Conforms (r :: rs) ↔ l.Within l.cap (l.time r) (r :: rs) ∧ l.Conforms rs := by
  rw [within_iff]
  constructor
  · intro hall
    refine ⟨fun win hwin h ↦ ?_, fun win hwin ↦ hall win (List.infix_cons hwin)⟩
    have hle := hall win hwin.isInfix h
    obtain ⟨win', rfl⟩ : ∃ win', win = r :: win' := by
      obtain rfl | ⟨win', rfl, -⟩ := List.prefix_cons_iff.mp hwin
      · exact absurd rfl h
      · exact ⟨win', rfl⟩
    exact hle
  · rintro ⟨hfirst, hrest⟩ win hwin h
    rcases List.infix_cons_iff.mp hwin with hpre | hlater
    · have hle := hfirst win hpre h
      obtain rfl | ⟨win', rfl, -⟩ := List.prefix_cons_iff.mp hpre
      · exact absurd rfl h
      · exact hle
    · exact hrest win hlater h

/-- **All requests are granted** if and only if no first part costs more than the tokens at the
start and the gain, and no window more than the capacity and the gain. -/
theorem allGranted_iff : l.AllGranted b rs ↔ l.Within b.tokens b.last rs ∧ l.Conforms rs := by
  induction rs generalizing b with
  | nil =>
    refine iff_of_true trivial ⟨trivial, fun win hwin h ↦ ?_⟩
    exact absurd (List.infix_nil.mp hwin) h
  | cons r rs ih =>
    have hstep : l.AllGranted b (r :: rs) ↔ l.Grants b r ∧ l.AllGranted (l.take b r) rs := Iff.rfl
    have hgrants : l.Grants b r ↔
        l.cost r ≤ b.tokens + (l.time r - b.last) * l.rate ∧ l.cost r ≤ l.cap := le_min_iff
    have hcap : l.cap + (l.time r - l.time r) * l.rate = l.cap := by
      rw [sub_self, zero_mul, add_zero]
    have hsplit : l.Grants b r → (l.Within (l.take b r).tokens (l.time r) rs ↔
        l.Within (b.tokens - l.cost r) b.last rs ∧
          l.Within (l.cap - l.cost r) (l.time r) rs) := by
      intro hg
      have htokens : (l.take b r).tokens
          = min (b.tokens - l.cost r + (l.time r - b.last) * l.rate) (l.cap - l.cost r) := by
        change l.refilled b (l.time r) - l.taken b r = _
        rw [taken, if_pos hg, refilled, ← min_sub_sub_right, add_sub_right_comm]
      rw [htokens, within_min, within_shift]
    rw [hstep, ih, Within, conforms_cons, Within, hcap]
    change _ ∧ l.Within (l.take b r).tokens (l.time r) rs ∧ _ ↔ _
    constructor
    · rintro ⟨hg, hrest, hconf⟩
      obtain ⟨hfirst, hfull⟩ := (hsplit hg).mp hrest
      obtain ⟨hnow, hle⟩ := hgrants.mp hg
      exact ⟨⟨hnow, hfirst⟩, ⟨hle, hfull⟩, hconf⟩
    · rintro ⟨⟨hnow, hfirst⟩, ⟨hle, hfull⟩, hconf⟩
      have hg := hgrants.mpr ⟨hnow, hle⟩
      exact ⟨hg, (hsplit hg).mpr ⟨hfirst, hfull⟩, hconf⟩

theorem allGranted_full_iff {t : K} (ht : ∀ r ∈ rs, t ≤ l.time r) :
    l.AllGranted (l.full t) rs ↔ l.Conforms rs := by
  rw [allGranted_iff, and_iff_right_iff_imp]
  intro hconf
  rw [within_iff]
  intro win hwin h
  have hfirst : t ≤ l.time (win.head h) := ht _ (hwin.subset (List.head_mem h))
  have hgain : (l.time (win.getLast h) - l.time (win.head h)) * l.rate
      ≤ (l.time (win.getLast h) - t) * l.rate :=
    mul_le_mul_of_nonneg_right (sub_le_sub_left hfirst _) l.rate_nonneg
  calc (win.map l.cost).sum
      ≤ l.cap + (l.time (win.getLast h) - l.time (win.head h)) * l.rate :=
        hconf win hwin.isInfix h
    _ ≤ l.cap + (l.time (win.getLast h) - t) * l.rate := add_le_add_right hgain l.cap

/-! ## Systems that draw from a bucket -/

section System

variable {S : Type*} {step : S → E → S} {draws : S → E → Prop} [∀ s e, Decidable (draws s e)]
  {level : S → Level K} {s : S} {es : List E}

/-- A step that draws from the bucket takes its cost, and the others leave the bucket alone. -/
def Draws (l : Limit E K) (step : S → E → S) (draws : S → E → Prop) [∀ s e, Decidable (draws s e)]
    (level : S → Level K) (s : S) (e : E) : Prop :=
  level (step s e) = if draws s e then l.take (level s) e else level s

omit [IsStrictOrderedRing K] in
theorem along_grants_iff (h : Runs.Along step (l.Draws step draws level) s es) :
    Runs.Along step (fun s e ↦ draws s e → l.Grants (level s) e) s es ↔
      l.AllGranted (level s) (Runs.select step draws s es) := by
  induction es generalizing s with
  | nil => exact Iff.rfl
  | cons e es ih =>
    obtain ⟨hlevel, hrest⟩ := h
    rw [Draws] at hlevel
    rw [Runs.Along, ih hrest, hlevel, Runs.select]
    by_cases hdraws : draws s e
    · rw [if_pos hdraws, if_pos hdraws, forall_prop_of_true hdraws]
      rfl
    · rw [if_neg hdraws, if_neg hdraws, forall_prop_of_false hdraws, true_and]

theorem count_le_granted {Q : S → E → Prop} [∀ s e, Decidable (Q s e)]
    (h : Runs.Along step (l.Draws step draws level) s es)
    (hQ : Runs.Along step
      (fun s e ↦ Q s e → draws s e ∧ l.Grants (level s) e ∧ l.cost e = 1) s es) :
    (Runs.count step Q s es : K) ≤ l.granted (level s) (Runs.select step draws s es) := by
  induction es generalizing s with
  | nil => exact (Nat.cast_zero).le
  | cons e es ih =>
    obtain ⟨hlevel, hrest⟩ := h
    have hle := ih hrest hQ.2
    rw [Draws] at hlevel
    rw [hlevel] at hle
    rw [Runs.count, Runs.select, Nat.cast_add]
    by_cases hdraws : draws s e
    · rw [if_pos hdraws] at hle ⊢
      refine add_le_add ?_ hle
      by_cases hq : Q s e
      · obtain ⟨-, hgrants, hcost⟩ := hQ.1 hq
        rw [if_pos hq, taken, if_pos hgrants, hcost, Nat.cast_one]
      · rw [if_neg hq, Nat.cast_zero]
        exact l.taken_nonneg _ e
    · have hq : ¬Q s e := fun hq ↦ hdraws (hQ.1 hq).1
      rw [if_neg hdraws] at hle ⊢
      rwa [if_neg hq, Nat.cast_zero, zero_add]

/-- **The bound of a window of a run.** -/
theorem count_le {Q : S → E → Prop} [∀ s e, Decidable (Q s e)] {t t' : K}
    (h : Runs.Along step (l.Draws step draws level) s es)
    (hQ : Runs.Along step
      (fun s e ↦ Q s e → draws s e ∧ l.Grants (level s) e ∧ l.cost e = 1) s es)
    (hb : 0 ≤ (level s).tokens) (hlast : ∀ e ∈ es, (level s).last ≤ l.time e)
    (hes : es.Pairwise fun e e' ↦ l.time e ≤ l.time e') (hle : t ≤ t')
    (htime : ∀ e ∈ es, t ≤ l.time e ∧ l.time e ≤ t') :
    (Runs.count step Q s es : K) ≤ l.cap + (t' - t) * l.rate := by
  have hsub : (Runs.select step draws s es).Sublist es := Runs.select_sublist
  have horder : l.InOrder (level s) (Runs.select step draws s es) :=
    inOrder_of_pairwise (fun e he ↦ hlast e (hsub.subset he)) (hes.sublist hsub)
  calc (Runs.count step Q s es : K)
      ≤ l.granted (level s) (Runs.select step draws s es) := count_le_granted h hQ
    _ ≤ l.cap + (t' - t) * l.rate :=
        granted_le hb horder hle fun e he ↦ htime e (hsub.subset he)

end System

end Limit

end TokenBuckets
