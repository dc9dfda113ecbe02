import Mathlib.Data.List.Perm.Subperm
import Mathlib.Data.List.ReduceOption
import Mathlib.Logic.Function.Iterate

/-!
# Numbers from a counter

Requests are told apart by numbers from a counter. Some calls of the counter are for a request that
is put on file until it is settled, others are for something else. The counter wraps around, so the
number of a request comes back in the end; what keeps two requests on file apart is that the counter
has not gone all the way round since the older one was made.

A list of draws is the calls of the counter in their order, each with the entry it is for, if any.
`Books` ties such a list to what has happened between two states: the counter has been called that
often, every entry has the number of its call, and what is on file now was on file before or is
among the new entries, and not more often than it was made. The calls are counted without wrapping,
so every entry has a place of its own; `Books.nodup` turns places into numbers.
-/

namespace Tickets

variable {ι α σ β : Type*} {succ : ι → ι} {num : α → ι}

/-- The draws between two states, each of which is a counter and what is on file. -/
structure Books (succ : ι → ι) (num : α → ι) (draws : List (Option α)) (a b : ι × List α) :
    Prop where
  counter : b.1 = succ^[draws.length] a.1
  numbered : ∀ j x, draws[j]? = some (some x) → num x = succ^[j] a.1
  filed : b.2.Subperm (a.2 ++ draws.reduceOption)

namespace Books

variable {draws draws' : List (Option α)} {a b c : ι × List α} {i i' : ι} {l l' : List α}

theorem of_subperm (h : l'.Subperm l) : Books succ num [] (i, l) (i, l') where
  counter := rfl
  numbered j x hx := by cases hx
  filed := by
    rw [List.reduceOption_nil, List.append_nil]
    exact h

theorem refl (a : ι × List α) : Books succ num [] a a := of_subperm (List.Subperm.refl _)

/-- A call for nothing on file. -/
theorem draw (i : ι) (l : List α) : Books succ num [none] (i, l) (succ i, l) where
  counter := rfl
  numbered j x hx := by
    cases j with
    | zero => cases hx
    | succ j => cases hx
  filed := by
    rw [List.reduceOption_cons_of_none, List.reduceOption_nil, List.append_nil]

/-- A call for an entry, which may be put on file. -/
theorem file {x : α} (hx : num x = i) (h : l'.Subperm (l ++ [x])) :
    Books succ num [some x] (i, l) (succ i, l') where
  counter := rfl
  numbered j y hy := by
    cases j with
    | zero =>
      cases hy
      exact hx
    | succ j => cases hy
  filed := h

theorem trans (h : Books succ num draws a b) (h' : Books succ num draws' b c) :
    Books succ num (draws ++ draws') a c where
  counter := by
    rw [h'.counter, h.counter, ← Function.iterate_add_apply, List.length_append, Nat.add_comm]
  numbered j x hx := by
    by_cases hj : j < draws.length
    · rw [List.getElem?_append_left hj] at hx
      exact h.numbered j x hx
    · have hj : draws.length ≤ j := Nat.le_of_not_lt hj
      rw [List.getElem?_append_right hj] at hx
      rw [h'.numbered _ x hx, h.counter, ← Function.iterate_add_apply, Nat.sub_add_cancel hj]
  filed := by
    rw [List.reduceOption_append, ← List.append_assoc]
    exact h'.filed.trans (h.filed.append (List.Subperm.refl _))

/-- Entries are settled at the end. -/
theorem settle (h : Books succ num draws a (i, l)) (hl : l'.Subperm l) :
    Books succ num draws a (i, l') where
  counter := h.counter
  numbered := h.numbered
  filed := hl.trans h.filed

theorem replicate (i : ι) (l : List α) (k : ℕ) :
    Books succ num (List.replicate k none) (i, l) (succ^[k] i, l) := by
  induction k generalizing i with
  | zero => exact refl _
  | succ k ih => exact (draw i l).trans (ih (succ i))

theorem frame (h : Books succ num draws (i, l) (i', l')) (rest : List α) :
    Books succ num draws (i, l ++ rest) (i', l' ++ rest) where
  counter := h.counter
  numbered := h.numbered
  filed := by
    have hperm : (l ++ draws.reduceOption ++ rest).Perm (l ++ rest ++ draws.reduceOption) := by
      rw [List.append_assoc, List.append_assoc]
      exact List.perm_append_comm.append_left l
    exact (h.filed.append (List.Subperm.refl rest)).trans hperm.subperm

end Books

/-! ## Loops -/

/-- The draws of a loop, from those of each turn. -/
def along (f : σ → β → σ) (draws : σ → β → List (Option α)) : σ → List β → List (Option α)
  | _, [] => []
  | s, x :: xs => draws s x ++ along f draws (f s x) xs

theorem Books.along (view : σ → ι × List α) {f : σ → β → σ} {draws : σ → β → List (Option α)}
    (h : ∀ s x, Books succ num (draws s x) (view s) (view (f s x))) (s : σ) (xs : List β) :
    Books succ num (Tickets.along f draws s xs) (view s) (view (xs.foldl f s)) := by
  induction xs generalizing s with
  | nil => exact .refl _
  | cons x xs ih => exact (h s x).trans (ih (f s x))

/-! ## Places -/

/-- The entries with their places among all calls, counted from `k`. -/
def issuedFrom : ℕ → List (Option α) → List (ℕ × α)
  | _, [] => []
  | k, none :: draws => issuedFrom (k + 1) draws
  | k, some x :: draws => (k, x) :: issuedFrom (k + 1) draws

def issued (draws : List (Option α)) : List (ℕ × α) := issuedFrom 0 draws

theorem map_snd_issuedFrom (k : ℕ) (draws : List (Option α)) :
    (issuedFrom k draws).map Prod.snd = draws.reduceOption := by
  induction draws generalizing k with
  | nil => rfl
  | cons d draws ih =>
    rcases d with _ | x
    · rw [issuedFrom, ih, List.reduceOption_cons_of_none]
    · rw [issuedFrom, List.map_cons, ih, List.reduceOption_cons_of_some]

theorem getElem?_of_mem_issuedFrom {k : ℕ} {draws : List (Option α)} {s : ℕ × α}
    (h : s ∈ issuedFrom k draws) : ∃ j, s.1 = k + j ∧ draws[j]? = some (some s.2) := by
  induction draws generalizing k with
  | nil => cases h
  | cons d draws ih =>
    have hlater : s ∈ issuedFrom (k + 1) draws →
        ∃ j, s.1 = k + j ∧ (d :: draws)[j]? = some (some s.2) := by
      intro hs
      obtain ⟨j, hj, hget⟩ := ih hs
      exact ⟨j + 1, by omega, hget⟩
    rcases d with _ | x
    · exact hlater h
    · rcases List.mem_cons.mp h with rfl | hs
      · exact ⟨0, rfl, rfl⟩
      · exact hlater hs

theorem getElem?_of_mem_issued {draws : List (Option α)} {s : ℕ × α} (h : s ∈ issued draws) :
    draws[s.1]? = some (some s.2) := by
  obtain ⟨j, hj, hget⟩ := getElem?_of_mem_issuedFrom h
  rw [hj, Nat.zero_add]
  exact hget

theorem pairwise_issuedFrom (k : ℕ) (draws : List (Option α)) :
    (issuedFrom k draws).Pairwise fun s t ↦ s.1 < t.1 := by
  induction draws generalizing k with
  | nil => exact List.Pairwise.nil
  | cons d draws ih =>
    rcases d with _ | x
    · exact ih (k + 1)
    · refine List.pairwise_cons.mpr ⟨fun t ht ↦ ?_, ih (k + 1)⟩
      obtain ⟨j, hj, -⟩ := getElem?_of_mem_issuedFrom ht
      dsimp only
      omega

/-! ## Entries on file -/

/-- What is on file, with the places at which it was made. -/
structure Outstanding (draws : List (Option α)) (filed : List α) (out : List (ℕ × α)) : Prop where
  sublist : out.Sublist (issued draws)
  perm : (out.map Prod.snd).Perm filed

theorem Books.exists_outstanding {draws : List (Option α)} {i : ι} {b : ι × List α}
    (h : Books succ num draws (i, []) b) : ∃ out, Outstanding draws b.2 out := by
  have hfiled : b.2.Subperm ((issued draws).map Prod.snd) := by
    rw [issued, map_snd_issuedFrom]
    exact h.filed
  obtain ⟨l, hperm, hsub⟩ := hfiled
  obtain ⟨out, hout, rfl⟩ := List.sublist_map_iff.mp hsub
  exact ⟨out, hout, hperm⟩

/-- **Numbers on file are different**, if the counter has not gone all the way round since any of
them was drawn. -/
theorem Books.nodup {draws : List (Option α)} {i : ι} {b : ι × List α} {out : List (ℕ × α)}
    {period : ℕ} (h : Books succ num draws (i, []) b) (hout : Outstanding draws b.2 out)
    (hperiod : ∀ j k, j < k → k < j + period → succ^[j] i ≠ succ^[k] i)
    (hfew : ∀ s ∈ out, draws.length ≤ s.1 + period) : (b.2.map num).Nodup := by
  have hnum : ∀ s ∈ out, s.1 < draws.length ∧ num s.2 = succ^[s.1] i := by
    intro s hs
    have hget := getElem?_of_mem_issued (hout.sublist.subset hs)
    exact ⟨(List.getElem?_eq_some_iff.mp hget).1, h.numbered _ _ hget⟩
  have hplaces : out.Pairwise fun s t ↦ s.1 < t.1 :=
    (pairwise_issuedFrom 0 draws).sublist hout.sublist
  have hout' : ((out.map Prod.snd).map num).Nodup := by
    rw [List.map_map]
    refine List.pairwise_map.mpr (hplaces.imp_of_mem fun {s t} hs ht hlt ↦ ?_)
    obtain ⟨-, hsnum⟩ := hnum s hs
    obtain ⟨htlt, htnum⟩ := hnum t ht
    have hrecent := hfew s hs
    rw [Function.comp, Function.comp, hsnum, htnum]
    exact hperiod _ _ hlt (by omega)
  exact (hout.perm.map num).nodup_iff.mp hout'

end Tickets
