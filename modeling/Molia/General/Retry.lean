import Mathlib.Data.List.Dedup
import Mathlib.Data.List.Induction
import Mathlib.Data.List.Perm.Subperm
import Mathlib.Data.Nat.Notation

/-!
# Requests with one retry

A party is asked, and asked once more if the first request times out. The life of such an exchange
is a small automaton over three events: a request is sent, it times out, or an answer of the party
arrives. Answers may also arrive when nothing is outstanding.

What a history of events says is read off the automaton: there are at most two requests, the second
comes after the first has timed out, and an exchange that is closed was answered or timed out twice.
A history of many exchanges is a list of events with keys; the events of one key are a history of
one exchange, and the facts carry over.
-/

namespace Retry

inductive Event where
  | sent
  | timedOut
  | answered
deriving DecidableEq

/-- How far an exchange has come: not begun, waiting for the first answer, to be asked once more,
waiting for the second answer, or closed. -/
inductive Phase where
  | fresh
  | asked
  | due
  | askedAgain
  | closed
deriving DecidableEq

/-- The automaton. An answer that was not asked for changes nothing. -/
def Phase.next : Phase → Event → Option Phase
  | .fresh, .sent => some .asked
  | .asked, .timedOut => some .due
  | .asked, .answered => some .closed
  | .due, .sent => some .askedAgain
  | .askedAgain, .timedOut => some .closed
  | .askedAgain, .answered => some .closed
  | .fresh, .answered => some .fresh
  | .due, .answered => some .due
  | .closed, .answered => some .closed
  | _, _ => none

/-- The phase after a history, if the automaton accepts it. -/
def run (ph : Phase) (es : List Event) : Option Phase := es.foldlM Phase.next ph

variable {ph ph' : Phase} {es es' : List Event} {e : Event}

theorem run_nil (ph : Phase) : run ph [] = some ph := rfl

theorem run_singleton (ph : Phase) (e : Event) : run ph [e] = ph.next e := by
  rw [run, List.foldlM_cons]
  exact bind_pure (ph.next e)

theorem run_cons_eq_some :
    run ph (e :: es) = some ph' ↔ ∃ mid, ph.next e = some mid ∧ run mid es = some ph' := by
  rw [run, List.foldlM_cons]
  exact Option.bind_eq_some_iff

theorem run_append (ph : Phase) (es es' : List Event) :
    run ph (es ++ es') = (run ph es).bind fun ph' ↦ run ph' es' := List.foldlM_append

theorem run_append_eq_some :
    run ph (es ++ es') = some ph' ↔ ∃ mid, run ph es = some mid ∧ run mid es' = some ph' := by
  rw [run_append, Option.bind_eq_some_iff]

/-! ## What a history says -/

/-- Something was sent, and answered later. -/
def AnsweredAfter (es : List Event) : Prop := ∃ a b, es = a ++ .sent :: b ∧ .answered ∈ b

theorem AnsweredAfter.append (h : AnsweredAfter es) (es' : List Event) :
    AnsweredAfter (es ++ es') := by
  obtain ⟨a, b, rfl, hb⟩ := h
  exact ⟨a, b ++ es', by rw [List.append_assoc, List.cons_append], List.mem_append_left _ hb⟩

theorem answeredAfter_of_mem (h : .sent ∈ es) : AnsweredAfter (es ++ [.answered]) := by
  obtain ⟨a, b, rfl⟩ := List.append_of_mem h
  exact ⟨a, b ++ [.answered], by rw [List.append_assoc, List.cons_append],
    List.mem_append_right _ (List.mem_singleton_self _)⟩

/-- What a phase says about the history that led to it. -/
def Phase.Explains (es : List Event) : Phase → Prop
  | .fresh => es.count .sent = 0 ∧ es.count .timedOut = 0
  | .asked => es.count .sent = 1 ∧ es.count .timedOut = 0
  | .due => es.count .sent = 1 ∧ es.count .timedOut = 1
  | .askedAgain => es.count .sent = 2 ∧ es.count .timedOut = 1
  | .closed => (es.count .sent = 1 ∨ es.count .sent = 2) ∧
      (AnsweredAfter es ∨ es.count .timedOut = 2)

theorem count_concat (es : List Event) (e e' : Event) :
    (es ++ [e]).count e' = es.count e' + if e = e' then 1 else 0 := by
  rw [List.count_append, List.count_singleton]
  simp only [beq_iff_eq]

theorem Phase.Explains.next (h : ph.Explains es) (hnext : ph.next e = some ph') :
    ph'.Explains (es ++ [e]) := by
  have hmem : 0 < es.count .sent → .sent ∈ es := List.count_pos_iff.mp
  cases ph <;> cases e <;> cases hnext <;>
    simp only [Explains, count_concat, reduceCtorEq, if_true, if_false] at h ⊢
  case asked.answered.refl => exact ⟨by omega, .inl (answeredAfter_of_mem (hmem (by omega)))⟩
  case askedAgain.answered.refl => exact ⟨by omega, .inl (answeredAfter_of_mem (hmem (by omega)))⟩
  case closed.answered.refl => exact ⟨h.1, h.2.imp (fun h ↦ h.append _) id⟩
  all_goals omega

theorem explains_of_run (h : run .fresh es = some ph) : ph.Explains es := by
  -- the last event is the one that led to the phase
  induction es using List.reverseRecOn generalizing ph with
  | nil =>
    obtain rfl : Phase.fresh = ph := Option.some.inj h
    exact ⟨rfl, rfl⟩
  | append_singleton es e ih =>
    obtain ⟨mid, hmid, hlast⟩ := run_append_eq_some.mp h
    rw [run_singleton] at hlast
    exact (ih hmid).next hlast

theorem count_sent_le (h : run .fresh es = some ph) : es.count .sent ≤ 2 := by
  have hex := explains_of_run h
  cases ph <;> simp only [Phase.Explains] at hex <;> omega

/-- A phase in which nothing is sent. -/
def Phase.Busy (ph : Phase) : Prop := ph.next .sent = none

theorem busy_of_next_sent (h : ph.next .sent = some ph') : ph'.Busy := by
  cases ph <;> cases h <;> rfl

theorem Phase.Busy.next (h : ph.Busy) (he : e ≠ .timedOut) (hnext : ph.next e = some ph') :
    ph'.Busy := by
  cases ph <;> cases e <;> cases hnext <;> first | contradiction | rfl

theorem Phase.Busy.run (h : ph.Busy) (hes : .timedOut ∉ es) (hrun : run ph es = some ph') :
    ph'.Busy := by
  induction es using List.reverseRecOn generalizing ph' with
  | nil =>
    obtain rfl : ph = ph' := Option.some.inj hrun
    exact h
  | append_singleton es e ih =>
    obtain ⟨mid, hmid, hlast⟩ := run_append_eq_some.mp hrun
    rw [run_singleton] at hlast
    rw [List.mem_append, List.mem_singleton, not_or] at hes
    exact (ih hes.1 hmid).next (Ne.symm hes.2) hlast

theorem timedOut_mem_between {a b c : List Event}
    (h : run ph (a ++ .sent :: (b ++ .sent :: c)) = some ph') : .timedOut ∈ b := by
  obtain ⟨before, -, h⟩ := run_append_eq_some.mp h
  obtain ⟨first, hfirst, h⟩ := run_cons_eq_some.mp h
  obtain ⟨between, hbetween, h⟩ := run_append_eq_some.mp h
  obtain ⟨second, hsecond, -⟩ := run_cons_eq_some.mp h
  by_contra hb
  have hbusy := (busy_of_next_sent hfirst).run hb hbetween
  rw [hbusy] at hsecond
  contradiction

/-! ## Many exchanges -/

section Keyed

variable {K : Type*} [DecidableEq K] {k : K} {h h' : List (K × Event)}

/-- The events of one key. -/
def eventsOf (k : K) (h : List (K × Event)) : List Event :=
  h.filterMap fun p ↦ if p.1 = k then some p.2 else none

theorem eventsOf_append (k : K) (h h' : List (K × Event)) :
    eventsOf k (h ++ h') = eventsOf k h ++ eventsOf k h' := List.filterMap_append

theorem mem_eventsOf : e ∈ eventsOf k h ↔ (k, e) ∈ h := by
  simp only [eventsOf, List.mem_filterMap, Option.ite_none_right_eq_some, Option.some.injEq]
  constructor
  · rintro ⟨p, hp, rfl, rfl⟩
    exact hp
  · intro hp
    exact ⟨(k, e), hp, rfl, rfl⟩

theorem eventsOf_cons_self (k : K) (e : Event) (h : List (K × Event)) :
    eventsOf k ((k, e) :: h) = e :: eventsOf k h := by
  simp only [eventsOf, List.filterMap_cons, if_true]

theorem eventsOf_cons_ne {p : K × Event} (hp : p.1 ≠ k) : eventsOf k (p :: h) = eventsOf k h := by
  simp only [eventsOf, List.filterMap_cons, if_neg hp]

theorem eventsOf_map {ks : List K} (hks : ks.Nodup) (e : Event) :
    eventsOf k (ks.map fun k ↦ (k, e)) = if k ∈ ks then [e] else [] := by
  induction ks with
  | nil => rfl
  | cons k' ks ih =>
    obtain ⟨hk', hks⟩ := List.nodup_cons.mp hks
    rw [List.map_cons]
    by_cases hk : k' = k
    · subst hk
      rw [eventsOf_cons_self, ih hks, if_neg hk', if_pos List.mem_cons_self]
    · rw [eventsOf_cons_ne hk, ih hks]
      simp only [List.mem_cons, Ne.symm hk, false_or]

theorem count_eventsOf (k : K) (e : Event) (h : List (K × Event)) :
    (eventsOf k h).count e = h.count (k, e) := by
  induction h with
  | nil => rfl
  | cons p h ih =>
    obtain ⟨k', e'⟩ := p
    by_cases hk : k' = k
    · subst hk
      rw [eventsOf_cons_self, List.count_cons, List.count_cons, ih]
      simp only [beq_iff_eq, Prod.mk.injEq, true_and]
    · rw [eventsOf_cons_ne hk, List.count_cons_of_ne (fun h ↦ hk (congrArg Prod.fst h)), ih]

theorem exists_of_eventsOf_eq {a b : List Event} (heq : eventsOf k h = a ++ e :: b) :
    ∃ a' b', h = a' ++ (k, e) :: b' ∧ eventsOf k b' = b := by
  obtain ⟨a', rest, rfl, -, hrest⟩ := List.filterMap_eq_append_iff.mp heq
  obtain ⟨skipped, p, b', rfl, -, hp, hb⟩ := List.filterMap_eq_cons_iff.mp hrest
  obtain ⟨rfl, rfl⟩ : p.1 = k ∧ p.2 = e := by simpa using hp
  exact ⟨a' ++ skipped, b', by rw [List.append_assoc], hb⟩

/-- The exchange of a key is over: it was answered after a request, or timed out twice. -/
def Settled (k : K) (h : List (K × Event)) : Prop :=
  (k, .sent) ∈ h ∧
    ((∃ a b, h = a ++ (k, .sent) :: b ∧ (k, .answered) ∈ b) ∨ h.count (k, .timedOut) = 2)

theorem settled_of_run (hrun : run .fresh (eventsOf k h) = some .closed) : Settled k h := by
  obtain ⟨hsent, hover⟩ := explains_of_run hrun
  refine ⟨mem_eventsOf.mp (List.count_pos_iff.mp (by omega)), ?_⟩
  rcases hover with ⟨a, b, heq, hb⟩ | htwice
  · obtain ⟨a', b', rfl, rfl⟩ := exists_of_eventsOf_eq heq
    exact .inl ⟨a', b', rfl, mem_eventsOf.mp hb⟩
  · exact .inr (by rw [← count_eventsOf, htwice])

theorem timedOut_mem_of_run {a b c : List (K × Event)}
    (hrun : run ph (eventsOf k (a ++ (k, .sent) :: (b ++ (k, .sent) :: c))) = some ph') :
    (k, .timedOut) ∈ b := by
  simp only [eventsOf_append, eventsOf_cons_self] at hrun
  exact mem_eventsOf.mp (timedOut_mem_between hrun)

/-- The keys of the requests of a history, one for each request. -/
def requests (h : List (K × Event)) : List K :=
  h.filterMap fun p ↦ if p.2 = .sent then some p.1 else none

omit [DecidableEq K] in
theorem mem_requests : k ∈ requests h ↔ (k, .sent) ∈ h := by
  simp only [requests, List.mem_filterMap, Option.ite_none_right_eq_some, Option.some.injEq]
  constructor
  · rintro ⟨⟨k', e'⟩, hp, rfl, rfl⟩
    exact hp
  · intro hp
    exact ⟨(k, .sent), hp, rfl, rfl⟩

theorem count_requests (k : K) (h : List (K × Event)) :
    (requests h).count k = h.count (k, .sent) := by
  induction h with
  | nil => rfl
  | cons p h ih =>
    obtain ⟨k', e'⟩ := p
    by_cases he : e' = .sent
    · subst he
      have hcons : requests ((k', .sent) :: h) = k' :: requests h := by
        simp only [requests, List.filterMap_cons, if_true]
      rw [hcons, List.count_cons, List.count_cons, ih]
      simp only [beq_iff_eq, Prod.mk.injEq, and_true]
    · have hcons : requests ((k', e') :: h) = requests h := by
        simp only [requests, List.filterMap_cons, if_neg he]
      rw [hcons, ih, List.count_cons_of_ne (fun h ↦ he (congrArg Prod.snd h))]

/-- Two requests for each key at most, so twice as many as there are keys. -/
theorem length_requests_le {ks : List K} (hmem : ∀ k, (k, .sent) ∈ h → k ∈ ks)
    (hcount : ∀ k, h.count (k, .sent) ≤ 2) : (requests h).length ≤ 2 * ks.dedup.length := by
  have hsub : (requests h).Subperm (ks.dedup ++ ks.dedup) := by
    rw [List.subperm_ext_iff]
    intro k hk
    have hone : ks.dedup.count k = 1 :=
      List.count_eq_one_of_mem (List.nodup_dedup ks)
        (List.mem_dedup.mpr (hmem k (mem_requests.mp hk)))
    rw [count_requests, List.count_append, hone]
    exact hcount k
  calc (requests h).length ≤ (ks.dedup ++ ks.dedup).length := hsub.length_le
    _ = 2 * ks.dedup.length := by rw [List.length_append, Nat.two_mul]

end Keyed

end Retry
