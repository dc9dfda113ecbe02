import Mathlib.Data.List.Basic
import Mathlib.Logic.Function.Basic

/-!
# Logs of overwrites

A log is replayed over a map, entry by entry. An entry overwrites one key, with a value or with
nothing, or it says nothing about the map at all: `effect` tells which. The value of a key after a
replay is the one the last entry about that key gives it (`replay_apply`), and the value it had
before if no entry is about it.

Some rules follow. Replaying a log a second time changes nothing (`replay_replay`), which is why a
snapshot may already hold the effect of the entries that are replayed over it. Over a map that the
log was not made for, a replay changes nothing exactly if the map agrees with the last writes
(`replay_eq_self_iff`), and it comes out as over another map exactly if the two agree where the log
is silent (`replay_eq_replay_iff`). An entry without effect may stand anywhere in the log
(`replay_insert_inert`), which is why two maps can share one log.
-/

namespace Overwrites

variable {K V F : Type*} [DecidableEq K]

/-- One entry. -/
def apply (effect : F → Option (K × Option V)) (m : K → Option V) (f : F) : K → Option V :=
  match effect f with
  | none => m
  | some (k, v) => Function.update m k v

def replay (effect : F → Option (K × Option V)) (m : K → Option V) (fs : List F) : K → Option V :=
  fs.foldl (apply effect) m

/-- The value the last entry about `k` gives it, if there is such an entry. -/
def lastWrite (effect : F → Option (K × Option V)) (k : K) : List F → Option (Option V)
  | [] => none
  | f :: fs =>
    lastWrite effect k fs <|> (effect f).bind fun e ↦ if e.1 = k then some e.2 else none

variable {effect : F → Option (K × Option V)}

theorem apply_apply (m : K → Option V) (f : F) (k : K) :
    apply effect m f k
      = ((effect f).bind fun e ↦ if e.1 = k then some e.2 else none).getD (m k) := by
  rw [apply]
  rcases effect f with _ | ⟨k', v⟩
  · rfl
  · simp only [Option.bind_some, Function.update_apply]
    by_cases h : k' = k
    · rw [if_pos h, if_pos h.symm, Option.getD_some]
    · rw [if_neg h, if_neg (Ne.symm h), Option.getD_none]

/-- **The last write decides.** -/
theorem replay_apply (m : K → Option V) (fs : List F) (k : K) :
    replay effect m fs k = (lastWrite effect k fs).getD (m k) := by
  induction fs generalizing m with
  | nil => rfl
  | cons f fs ih =>
    have hcons : replay effect m (f :: fs) k = replay effect (apply effect m f) fs k := rfl
    rw [hcons, ih, apply_apply, lastWrite]
    rcases lastWrite effect k fs with _ | v
    · rfl
    · rfl

theorem replay_append (m : K → Option V) (fs gs : List F) :
    replay effect m (fs ++ gs) = replay effect (replay effect m fs) gs := List.foldl_append

theorem replay_singleton (m : K → Option V) (f : F) :
    replay effect m [f] = apply effect m f := rfl

theorem replay_replay (m : K → Option V) (fs : List F) :
    replay effect (replay effect m fs) fs = replay effect m fs := by
  funext k
  rw [replay_apply, replay_apply]
  rcases lastWrite effect k fs with _ | v
  · rfl
  · rfl

theorem replay_eq_self_iff {m : K → Option V} {fs : List F} :
    replay effect m fs = m ↔ ∀ k v, lastWrite effect k fs = some v → m k = v := by
  rw [funext_iff]
  refine forall_congr' fun k ↦ ?_
  rw [replay_apply]
  rcases lastWrite effect k fs with _ | v
  · simp
  · simp [eq_comm]

theorem replay_eq_replay_iff {m m' : K → Option V} {fs : List F} :
    replay effect m fs = replay effect m' fs ↔
      ∀ k, lastWrite effect k fs = none → m k = m' k := by
  rw [funext_iff]
  refine forall_congr' fun k ↦ ?_
  rw [replay_apply, replay_apply]
  rcases lastWrite effect k fs with _ | v
  · simp
  · simp

theorem replay_of_inert (m : K → Option V) {fs : List F} (h : ∀ f ∈ fs, effect f = none) :
    replay effect m fs = m := by
  induction fs generalizing m with
  | nil => rfl
  | cons f fs ih =>
    rw [List.forall_mem_cons] at h
    have hcons : replay effect m (f :: fs) = replay effect (apply effect m f) fs := rfl
    rw [hcons, ih _ h.2, apply, h.1]

theorem replay_insert_inert (m : K → Option V) {f : F} (h : effect f = none) (fs gs : List F) :
    replay effect m (fs ++ [f] ++ gs) = replay effect m (fs ++ gs) := by
  have hf : ∀ g ∈ [f], effect g = none := by
    intro g hg
    rw [List.mem_singleton.mp hg]
    exact h
  rw [replay_append, replay_append, replay_of_inert _ hf, ← replay_append]

theorem lastWrite_eq_none {k : K} {fs : List F} (h : ∀ f ∈ fs, ∀ v, effect f ≠ some (k, v)) :
    lastWrite effect k fs = none := by
  induction fs with
  | nil => rfl
  | cons f fs ih =>
    rw [List.forall_mem_cons] at h
    rw [lastWrite, ih h.2]
    rcases hf : effect f with _ | ⟨k', v⟩
    · rfl
    · have hne : k' ≠ k := by
        rintro rfl
        exact h.1 v hf
      simp [hne]

theorem replay_map_of_nodup {A : Type*} {key : A → K} {value : A → Option V} {entry : A → F}
    {l : List A} (heffect : ∀ a ∈ l, effect (entry a) = some (key a, value a))
    (hnodup : (l.map key).Nodup) {a : A} (ha : a ∈ l) (m : K → Option V) :
    replay effect m (l.map entry) (key a) = value a := by
  rw [replay_apply]
  induction l with
  | nil => exact absurd ha List.not_mem_nil
  | cons b l ih =>
    rw [List.forall_mem_cons] at heffect
    rw [List.map_cons, List.nodup_cons] at hnodup
    rw [List.map_cons, lastWrite, heffect.1, Option.bind_some]
    rcases List.mem_cons.mp ha with rfl | ha
    · have hlater : ∀ f ∈ l.map entry, ∀ v, effect f ≠ some (key a, v) := by
        intro f hf v heq
        obtain ⟨b, hb, rfl⟩ := List.mem_map.mp hf
        rw [heffect.2 b hb] at heq
        have hkey : key b = key a := congrArg Prod.fst (Option.some.inj heq)
        exact hnodup.1 (hkey ▸ List.mem_map_of_mem hb)
      rw [lastWrite_eq_none hlater, if_pos rfl]
      rfl
    · have hne : key b ≠ key a := fun heq ↦ hnodup.1 (heq ▸ List.mem_map_of_mem ha)
      have hrec := ih heffect.2 hnodup.2 ha
      rw [if_neg hne]
      rcases hlast : lastWrite effect (key a) (l.map entry) with _ | v
      · rw [hlast] at hrec
        exact hrec
      · rw [hlast] at hrec
        exact hrec

end Overwrites
