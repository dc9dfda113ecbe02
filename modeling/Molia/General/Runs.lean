import Mathlib.Data.Nat.Notation
import Mathlib.Logic.Basic

/-!
# Runs of a transition system

A deterministic system is a step function on states and inputs, and a run is a list of inputs
folded over a state. What the environment may do is a condition on the state before a step and its
input; `Along` says that every step of a run meets it. The rules below turn a fact about one step
into a fact about every state a run reaches.

A property may also be asked of every state of a run, the first one included: that is `Throughout`.
Where the property is lost only by steps of one kind, it holds throughout a run exactly if the run
avoids them (`throughout_iff_along`).

A system that may stop by itself is a partial function on states. `Walk` says that it goes on for so
many steps.
-/

namespace Runs

variable {S E : Type*} {step : S → E → S} {P Q : S → E → Prop} {s : S} {es es' : List E}

/-- Every step of the run meets the condition, in the state it starts from. -/
def Along (step : S → E → S) (P : S → E → Prop) : S → List E → Prop
  | _, [] => True
  | s, e :: es => P s e ∧ Along step P (step s e) es

instance Along.decidable [∀ s e, Decidable (P s e)] : ∀ s es, Decidable (Along step P s es)
  | _, [] => isTrue trivial
  | s, e :: es =>
    have := Along.decidable (step s e) es
    inferInstanceAs (Decidable (P s e ∧ _))

theorem along_append :
    Along step P s (es ++ es') ↔ Along step P s es ∧ Along step P (es.foldl step s) es' := by
  induction es generalizing s with
  | nil => simp [Along]
  | cons e es ih => simp [Along, ih, and_assoc]

theorem along_iff_forall {p : E → Prop} : Along step (fun _ e ↦ p e) s es ↔ ∀ e ∈ es, p e := by
  induction es generalizing s with
  | nil => exact iff_of_true trivial (List.forall_mem_nil p)
  | cons e es ih => rw [Along, ih, List.forall_mem_cons]

theorem along_of_forall {p : E → Prop} (h : ∀ e ∈ es, p e) : Along step (fun _ e ↦ p e) s es :=
  along_iff_forall.mpr h

theorem along_true : Along step (fun _ _ ↦ True) s es := along_of_forall fun _ _ ↦ trivial

namespace Along

theorem mono (h : Along step P s es) (hPQ : ∀ s e, P s e → Q s e) : Along step Q s es := by
  induction es generalizing s with
  | nil => trivial
  | cons e es ih => exact ⟨hPQ s e h.1, ih h.2⟩

theorem congr {W : S → E → Prop} (h : Along step W s es) (hPQ : ∀ s e, W s e → (P s e ↔ Q s e)) :
    Along step P s es ↔ Along step Q s es := by
  induction es generalizing s with
  | nil => exact Iff.rfl
  | cons e es ih => exact and_congr (hPQ s e h.1) (ih h.2)

/-- **The invariant rule.** -/
theorem invariant {I : S → Prop} (h : Along step P s es)
    (hstep : ∀ s e, I s → P s e → I (step s e)) (hs : I s) : I (es.foldl step s) := by
  induction es generalizing s with
  | nil => exact hs
  | cons e es ih => exact ih h.2 (hstep s e hs h.1)

/-- A reflexive and transitive relation that holds across a step holds across a run. -/
theorem relation {R : S → S → Prop} (h : Along step P s es) (hrefl : ∀ s, R s s)
    (htrans : ∀ a b c, R a b → R b c → R a c) (hstep : ∀ s e, P s e → R s (step s e)) :
    R s (es.foldl step s) := by
  induction es generalizing s with
  | nil => exact hrefl s
  | cons e es ih => exact htrans _ _ _ (hstep s e h.1) (ih h.2)

end Along

theorem along_forall {ι : Sort*} {P : ι → S → E → Prop} :
    Along step (fun s e ↦ ∀ i, P i s e) s es ↔ ∀ i, Along step (P i) s es := by
  induction es generalizing s with
  | nil => exact iff_of_true trivial fun _ ↦ trivial
  | cons e es ih => simp only [Along, ih, forall_and]

theorem along_and :
    Along step (fun s e ↦ P s e ∧ Q s e) s es ↔ Along step P s es ∧ Along step Q s es := by
  induction es generalizing s with
  | nil => exact iff_of_true trivial ⟨trivial, trivial⟩
  | cons e es ih => simp only [Along, ih, and_and_and_comm]

/-- How many steps of the run meet the condition. -/
def count (step : S → E → S) (P : S → E → Prop) [∀ s e, Decidable (P s e)] : S → List E → ℕ
  | _, [] => 0
  | s, e :: es => (if P s e then 1 else 0) + count step P (step s e) es

/-- The inputs of the steps that meet the condition. -/
def select (step : S → E → S) (P : S → E → Prop) [∀ s e, Decidable (P s e)] : S → List E → List E
  | _, [] => []
  | s, e :: es => if P s e then e :: select step P (step s e) es else select step P (step s e) es

theorem select_sublist [∀ s e, Decidable (P s e)] : (select step P s es).Sublist es := by
  induction es generalizing s with
  | nil => exact List.Sublist.slnil
  | cons e es ih =>
    rw [select]
    split
    · exact ih.cons_cons e
    · exact ih.cons e

/-- If the condition does not depend on the state where it matters, the inputs can be selected
beforehand. -/
theorem select_eq_filter [∀ s e, Decidable (P s e)] {p : E → Bool}
    (h : Along step (fun s e ↦ P s e ↔ p e = true) s es) : select step P s es = es.filter p := by
  induction es generalizing s with
  | nil => rfl
  | cons e es ih =>
    rw [select, List.filter_cons, ih h.2]
    simp only [h.1]

theorem along_congr {I : S → Prop} (hstep : ∀ s e, I s → I (step s e))
    (h : ∀ s e, I s → (P s e ↔ Q s e)) (hs : I s) : Along step P s es ↔ Along step Q s es := by
  induction es generalizing s with
  | nil => exact Iff.rfl
  | cons e es ih => exact and_congr (h s e hs) (ih (hstep s e hs))

/-- Every state of the run has the property. -/
def Throughout (step : S → E → S) (Q : S → Prop) : S → List E → Prop
  | s, [] => Q s
  | s, e :: es => Q s ∧ Throughout step Q (step s e) es

instance Throughout.decidable {Q : S → Prop} [DecidablePred Q] :
    ∀ s es, Decidable (Throughout step Q s es)
  | s, [] => inferInstanceAs (Decidable (Q s))
  | s, e :: es =>
    have := Throughout.decidable (Q := Q) (step s e) es
    inferInstanceAs (Decidable (Q s ∧ _))

theorem Throughout.start {Q : S → Prop} (h : Throughout step Q s es) : Q s := by
  cases es with
  | nil => exact h
  | cons e es => exact h.1

theorem Throughout.finish {Q : S → Prop} (h : Throughout step Q s es) : Q (es.foldl step s) := by
  induction es generalizing s with
  | nil => exact h
  | cons e es ih => exact ih h.2

theorem Throughout.mono {Q Q' : S → Prop} (h : Throughout step Q s es) (hQ : ∀ s, Q s → Q' s) :
    Throughout step Q' s es := by
  induction es generalizing s with
  | nil => exact hQ s h
  | cons e es ih => exact ⟨hQ s h.1, ih h.2⟩

theorem throughout_append_cons {Q : S → Prop} {e : E} : Throughout step Q s (es ++ e :: es') ↔
    Throughout step Q s es ∧ Throughout step Q (step (es.foldl step s) e) es' := by
  induction es generalizing s with
  | nil => exact Iff.rfl
  | cons e' es ih => rw [List.cons_append, Throughout, ih, Throughout, List.foldl_cons, and_assoc]

theorem throughout_concat {Q : S → Prop} {e : E} : Throughout step Q s (es ++ [e]) ↔
    Throughout step Q s es ∧ Q ((es ++ [e]).foldl step s) := by
  rw [throughout_append_cons, List.foldl_append]
  rfl

theorem throughout_iff_finish {Q : S → Prop} (hback : ∀ s e, Q (step s e) → Q s) :
    Throughout step Q s es ↔ Q (es.foldl step s) := by
  induction es generalizing s with
  | nil => exact Iff.rfl
  | cons e es ih =>
    rw [Throughout, ih, List.foldl_cons, and_iff_right_iff_imp]
    intro hlast
    exact hback s e (ih.mpr hlast).start

theorem throughout_iff_forall_take {Q : S → Prop} :
    Throughout step Q s es ↔ ∀ n ≤ es.length, Q ((es.take n).foldl step s) := by
  induction es generalizing s with
  | nil => simp [Throughout]
  | cons e es ih =>
    rw [Throughout, ih]
    constructor
    · rintro ⟨hs, hrest⟩ n hn
      cases n with
      | zero => exact hs
      | succ n => exact hrest n (Nat.le_of_succ_le_succ hn)
    · exact fun h ↦ ⟨h 0 (Nat.zero_le _), fun n hn ↦ h (n + 1) (Nat.succ_le_succ hn)⟩

theorem foldl_between {a b : ℕ} (hab : a ≤ b) :
    ((es.take b).drop a).foldl step ((es.take a).foldl step s) = (es.take b).foldl step s := by
  have htake : es.take a = (es.take b).take a := by rw [List.take_take, Nat.min_eq_left hab]
  rw [htake, ← List.foldl_append, List.take_append_drop]

theorem throughout_between_iff {Q : S → Prop} {a b : ℕ} (hab : a ≤ b) (hb : b ≤ es.length) :
    Throughout step Q ((es.take a).foldl step s) ((es.take b).drop a) ↔
      ∀ n, a ≤ n → n ≤ b → Q ((es.take n).foldl step s) := by
  have hlen : ((es.take b).drop a).length = b - a := by
    rw [List.length_drop, List.length_take, Nat.min_eq_left hb]
  have hstate (n : ℕ) (hn : n ≤ b - a) :
      (((es.take b).drop a).take n).foldl step ((es.take a).foldl step s)
        = (es.take (a + n)).foldl step s := by
    have hle : a + n ≤ b := by omega
    rw [List.take_drop, List.take_take, Nat.min_eq_left hle]
    exact foldl_between (Nat.le_add_right a n)
  rw [throughout_iff_forall_take, hlen]
  constructor
  · intro h n han hnb
    have hn := h (n - a) (Nat.sub_le_sub_right hnb a)
    rw [hstate _ (Nat.sub_le_sub_right hnb a), Nat.add_sub_cancel' han] at hn
    exact hn
  · intro h n hn
    rw [hstate n hn]
    exact h (a + n) (Nat.le_add_right a n) (by omega)

theorem between_eq {a j b : ℕ} {e : E} (haj : a ≤ j) (hjb : j < b) (he : es[j]? = some e) :
    (es.take b).drop a = (es.take j).drop a ++ e :: (es.take b).drop (j + 1) := by
  have hlen : j < (es.take b).length := by
    rw [List.length_take]
    exact Nat.lt_min.mpr ⟨hjb, (List.getElem?_eq_some_iff.mp he).1⟩
  have hget : (es.take b)[j] = e := by
    rw [List.getElem_take]
    exact (List.getElem?_eq_some_iff.mp he).2
  rw [← List.take_append_drop (j - a) ((es.take b).drop a), List.take_drop, List.drop_drop,
    Nat.add_sub_cancel' haj, List.take_take, Nat.min_eq_left (Nat.le_of_lt hjb),
    List.drop_eq_getElem_cons hlen, hget]

/-- **The rule for a property that some steps break.** Under an invariant `I` that implies the
property `Q`, a step keeps `I` if it meets `P`, and breaks `Q` if it does not. -/
theorem throughout_iff_along {I Q : S → Prop} {W : S → E → Prop} (hrun : Along step W s es)
    (hQ : ∀ s, I s → Q s) (hkeep : ∀ s e, I s → W s e → P s e → I (step s e))
    (hneed : ∀ s e, I s → W s e → Q (step s e) → P s e) (hs : I s) :
    Throughout step Q s es ↔ Along step P s es := by
  induction es generalizing s with
  | nil => exact iff_of_true (hQ s hs) trivial
  | cons e es ih =>
    constructor
    · rintro ⟨-, hrest⟩
      have hP := hneed s e hs hrun.1 hrest.start
      exact ⟨hP, (ih hrun.2 (hkeep s e hs hrun.1 hP)).mp hrest⟩
    · rintro ⟨hP, hrest⟩
      exact ⟨hQ s hs, (ih hrun.2 (hkeep s e hs hrun.1 hP)).mpr hrest⟩

/-! ## Partial functions -/

section

variable {α : Type*} {next : α → Option α} {a : α}

/-- So many steps can be taken, each to the successor. -/
def Walk (next : α → Option α) : ℕ → α → Prop
  | 0, _ => True
  | k + 1, a => ∃ b, next a = some b ∧ Walk next k b

theorem walk_of_loop (h : next a = some a) (k : ℕ) : Walk next k a := by
  induction k with
  | zero => trivial
  | succ k ih => exact ⟨a, h, ih⟩

theorem not_walk_two_iff : ¬Walk next 2 a ↔ ∀ b, next a = some b → next b = none := by
  constructor
  · intro h b hb
    rcases hc : next b with _ | c
    · rfl
    · exact absurd ⟨b, hb, c, hc, trivial⟩ h
  · rintro h ⟨b, hb, c, hc, -⟩
    rw [h b hb] at hc
    cases hc

end

/-! ## Runs that show something -/

section Traces

variable {L : Type*} {label : E → List L} {ls ls' : List L} {s' s'' : S}

/-- Some run leads from one state to the other, and what is seen of its inputs is the given list. -/
def Traces (step : S → E → S) (label : E → List L) (s : S) (ls : List L) (s' : S) : Prop :=
  ∃ es : List E, es.flatMap label = ls ∧ es.foldl step s = s'

namespace Traces

theorem refl (s : S) : Traces step label s [] s := ⟨[], rfl, rfl⟩

theorem trans (h : Traces step label s ls s') (h' : Traces step label s' ls' s'') :
    Traces step label s (ls ++ ls') s'' := by
  obtain ⟨es, hes, rfl⟩ := h
  obtain ⟨es', hes', rfl⟩ := h'
  exact ⟨es ++ es', by rw [List.flatMap_append, hes, hes'], List.foldl_append⟩

theorem single (s : S) (e : E) : Traces step label s (label e) (step s e) :=
  ⟨[e], List.flatMap_singleton label e, rfl⟩

/-- Nothing is seen of the second part. -/
theorem silent (h : Traces step label s ls s') (h' : Traces step label s' [] s'') :
    Traces step label s ls s'' := by
  have hboth := h.trans h'
  rwa [List.append_nil] at hboth

end Traces

end Traces

end Runs
