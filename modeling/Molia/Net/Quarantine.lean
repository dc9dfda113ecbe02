import Mathlib.Data.List.Induction
import Molia.Net.Admission

/-!
# The limits of quarantine

A peer in quarantine should be served from a small bucket, and any other peer from a large one. The
level of quarantine follows the score of the peer, but the bucket is made once, at the first request
of the peer, and keeps the capacity it was made with (`capOf_exec`). So the limits apply to the
requests of a peer if and only if all of them come at the same standing: a peer that is quarantined
after its first request keeps the large bucket, and one that has recovered keeps the small one.
-/

namespace Molia

/-- A call on the scores and budgets of peers. -/
inductive SybilCall where
  | reward (id : NodeId)
  | penalize (id : NodeId)
  | allowPeer (now : ℕ) (id : NodeId) (cost : ℚ)

/-- The call is a request of the peer. -/
def SybilCall.Asks (id : NodeId) : SybilCall → Prop
  | .allowPeer _ id' _ => id' = id
  | _ => False

instance (id : NodeId) : DecidablePred (SybilCall.Asks id)
  | .reward _ => isFalse fun h ↦ h
  | .penalize _ => isFalse fun h ↦ h
  | .allowPeer _ id' _ => inferInstanceAs (Decidable (id' = id))

namespace Sybil

def exec (s : Sybil) : SybilCall → Sybil
  | .reward id => s.reward id
  | .penalize id => s.penalize id
  | .allowPeer now id cost => (s.allowPeer now id cost).2

/-- The state after the given calls. -/
def run (calls : List SybilCall) : Sybil := calls.foldl exec new

def quarantine (s : Sybil) (id : NodeId) : UInt8 :=
  ((s.scores.lookup id).map Score.quarantine).getD 0

/-- The capacity for a level of quarantine. -/
def capFor (q : UInt8) : ℚ := if q > 0 then 4 else 40

/-- The bucket that `allow_peer` draws from. -/
def bucketFor (s : Sybil) (now : ℕ) (id : NodeId) : TokenBucket :=
  (s.peerBuckets.lookup id).getD
    (TokenBucket.new now (capFor (s.quarantine id)) (capFor (s.quarantine id) / 2))

theorem allowPeer_eq (s : Sybil) (now : ℕ) (id : NodeId) (cost : ℚ) :
    s.allowPeer now id cost =
      (((s.bucketFor now id).take now cost).1,
        { s with
          peerBuckets := s.peerBuckets.insert id ((s.bucketFor now id).take now cost).2 }) := by
  rw [allowPeer]
  rfl

/-! ## The capacity of a bucket -/

theorem cap_take (b : TokenBucket) (now : ℕ) (n : ℚ) : (b.take now n).2.cap = b.cap := by
  rw [TokenBucket.take]
  split_ifs
  · rfl
  · rfl

/-- The capacity of the bucket of a peer, if it has one. -/
def capOf (s : Sybil) (id : NodeId) : Option ℚ := (s.peerBuckets.lookup id).map TokenBucket.cap

theorem cap_bucketFor (s : Sybil) (now : ℕ) (id : NodeId) :
    (s.bucketFor now id).cap = (s.capOf id).getD (capFor (s.quarantine id)) := by
  rw [bucketFor, capOf]
  cases s.peerBuckets.lookup id with
  | none => rfl
  | some b => rfl

/-- A request of the peer makes its bucket if it has none; nothing else does, and nothing changes
the capacity. -/
theorem capOf_exec (s : Sybil) (call : SybilCall) (id : NodeId) :
    (s.exec call).capOf id =
      if call.Asks id then some ((s.capOf id).getD (capFor (s.quarantine id)))
      else s.capOf id := by
  cases call with
  | reward _ => rfl
  | penalize _ => rfl
  | allowPeer now id' cost =>
    have hbuckets : (s.exec (.allowPeer now id' cost)).peerBuckets
        = s.peerBuckets.insert id' ((s.bucketFor now id').take now cost).2 := by
      rw [exec, allowPeer_eq]
    rw [capOf, hbuckets, HashMap.lookup_insert_of]
    by_cases hid : id' = id
    · have hasks : (SybilCall.allowPeer now id' cost).Asks id := hid
      rw [if_pos hid.symm, if_pos hasks, Option.map_some, cap_take, hid, cap_bucketFor]
    · have hother : ¬(SybilCall.allowPeer now id' cost).Asks id := hid
      rw [if_neg (Ne.symm hid), if_neg hother]
      rfl

theorem capOf_foldl {s : Sybil} {id : NodeId} {c : ℚ} (h : s.capOf id = some c)
    (calls : List SybilCall) : (calls.foldl exec s).capOf id = some c := by
  induction calls generalizing s with
  | nil => exact h
  | cons call calls ih =>
    apply ih
    rw [capOf_exec, h, Option.getD_some, ite_self]

theorem run_append (pre post : List SybilCall) : run (pre ++ post) = post.foldl exec (run pre) :=
  List.foldl_append

/-- The bucket that a request draws from stays, with its capacity. -/
theorem capOf_run_of_request (pre : List SybilCall) (now : ℕ) (id : NodeId) (cost : ℚ)
    (mid : List SybilCall) :
    (run (pre ++ .allowPeer now id cost :: mid)).capOf id
      = some ((run pre).bucketFor now id).cap := by
  have hcap : ((run pre).exec (.allowPeer now id cost)).capOf id
      = some ((run pre).bucketFor now id).cap := by
    rw [capOf_exec, cap_bucketFor]
    exact if_pos rfl
  rw [run_append]
  exact capOf_foldl hcap mid

theorem exists_of_capOf_run {calls : List SybilCall} {id : NodeId} {c : ℚ}
    (h : (run calls).capOf id = some c) :
    ∃ pre call mid, calls = pre ++ call :: mid ∧ call.Asks id ∧
      c = capFor ((run pre).quarantine id) := by
  -- on the last call: it made the bucket, or the bucket was there before
  induction calls using List.reverseRecOn with
  | nil => cases h
  | append_singleton calls last ih =>
    have hbefore : (run calls).capOf id = some c → ∃ pre call mid,
        calls ++ [last] = pre ++ call :: mid ∧ call.Asks id ∧
          c = capFor ((run pre).quarantine id) := by
      intro hc
      obtain ⟨pre, call, mid, rfl, hasks, hcap⟩ := ih hc
      exact ⟨pre, call, mid ++ [last], by rw [List.append_assoc, List.cons_append], hasks, hcap⟩
    rw [run_append] at h
    change ((run calls).exec last).capOf id = some c at h
    rw [capOf_exec] at h
    split_ifs at h with hasks
    · rcases hc : (run calls).capOf id with _ | c'
      · rw [hc, Option.getD_none] at h
        exact ⟨calls, last, [], rfl, hasks, (Option.some.inj h).symm⟩
      · rw [hc, Option.getD_some] at h
        exact hbefore (hc.trans h)
    · exact hbefore h

/-! ## The limits -/

theorem capFor_inj {q q' : UInt8} : capFor q = capFor q' ↔ (0 < q ↔ 0 < q') := by
  rw [capFor, capFor]
  split_ifs with h h' h'
  · simp [h, h']
  · simp [h, h']
  · simp [h, h']
  · simp [h, h']

/-- **When the limits apply.** Every request in a run draws from a bucket of the capacity for the
level of quarantine of the peer if and only if any two requests of one peer come at the same
standing, both in quarantine or both not. -/
theorem quarantine_limits_iff (calls : List SybilCall) :
    (∀ pre now id cost post, calls = pre ++ .allowPeer now id cost :: post →
      ((run pre).bucketFor now id).cap = if (run pre).quarantine id > 0 then 4 else 40) ↔
    ∀ pre now id cost mid now' cost' post,
      calls = pre ++ .allowPeer now id cost :: (mid ++ .allowPeer now' id cost' :: post) →
      (0 < (run pre).quarantine id ↔
        0 < (run (pre ++ .allowPeer now id cost :: mid)).quarantine id) := by
  constructor
  · intro hlimits pre now id cost mid now' cost' post hcalls
    have hfirst := hlimits pre now id cost _ hcalls
    have hsecond := hlimits (pre ++ .allowPeer now id cost :: mid) now' id cost' post
      (by rw [hcalls, List.append_assoc, List.cons_append])
    rw [cap_bucketFor, capOf_run_of_request, Option.getD_some, hfirst] at hsecond
    exact capFor_inj.mp hsecond
  · intro hsteady pre now id cost post hcalls
    rw [cap_bucketFor]
    rcases hc : (run pre).capOf id with _ | c
    · rfl
    · obtain ⟨pre', call, mid, rfl, hasks, hcap⟩ := exists_of_capOf_run hc
      rw [Option.getD_some, hcap]
      cases call with
      | reward _ => cases hasks
      | penalize _ => cases hasks
      | allowPeer now' id' cost' =>
        cases hasks
        refine capFor_inj.mpr (hsteady pre' now' id cost' mid now cost post ?_)
        rw [hcalls, List.append_assoc, List.cons_append]

/-- A request, and three failures after it. -/
private def downfall : List SybilCall :=
  [.allowPeer 0 NodeId.zero 1, .penalize NodeId.zero, .penalize NodeId.zero,
    .penalize NodeId.zero]

/-- The next request comes in quarantine and draws from the large bucket. -/
theorem quarantine_limits_fail :
    ¬∀ (calls : List SybilCall) (pre : List SybilCall) (now : ℕ) (id : NodeId) (cost : ℚ)
      (post : List SybilCall), calls = pre ++ .allowPeer now id cost :: post →
      ((run pre).bucketFor now id).cap = if (run pre).quarantine id > 0 then 4 else 40 := by
  intro hall
  have hcap := hall (downfall ++ [.allowPeer 0 NodeId.zero 1]) downfall 0 NodeId.zero 1 [] rfl
  revert hcap
  decide +kernel

end Sybil

end Molia
