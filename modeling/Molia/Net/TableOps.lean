import Molia.General.Runs
import Molia.Net.Routing

/-!
# Operations on the routing table

A node changes its table through four operations only. `Reaches W t t'` says that `t'` comes from
`t` by operations that each meet the condition `W` in the table they are applied to; what such
operations keep is kept from `t` to `t'`.

What an operation does to the lists of the table is said once. It evicts a peer (`evicts`), and then
the table is the one `evictAndReplace` leaves (`evictAndReplace_eq`); or it makes one of five edits
(`edit_apply`).
-/

namespace Molia

inductive TableOp where
  | insert (now : ℕ) (info : PeerInfo)
  | touchOk (now : ℕ) (id : NodeId) (rttUs : UInt32)
  | markFail (id : NodeId)
  | evictAndReplace (id : NodeId)
deriving DecidableEq

namespace RoutingTable

/-- The table after an operation. -/
def apply (t : RoutingTable) : TableOp → RoutingTable
  | .insert now info => (t.insert now info).2
  | .touchOk now id rttUs => t.touchOk now id rttUs
  | .markFail id => t.markFail id
  | .evictAndReplace id => t.evictAndReplace id

/-- The second table comes from the first by operations that each meet the condition. -/
def Reaches (W : RoutingTable → TableOp → Prop) (t t' : RoutingTable) : Prop :=
  ∃ ops, Runs.Along apply W t ops ∧ ops.foldl apply t = t'

/-- **The rule.** A property kept by the operations that meet the condition. -/
theorem Reaches.invariant {W : RoutingTable → TableOp → Prop} {t t' : RoutingTable}
    {I : RoutingTable → Prop} (h : Reaches W t t') (hop : ∀ t op, I t → W t op → I (t.apply op))
    (ht : I t) : I t' := by
  obtain ⟨ops, hops, rfl⟩ := h
  exact hops.invariant hop ht

/-! ## Evictions -/

variable (t : RoutingTable)

/-- The bucket in which a peer belongs. -/
def bucketOf (id : NodeId) : List PeerEntry := t.buckets (bucketIndex t.selfId id)

/-- The entries that wait for a place in that bucket. -/
def waiting (id : NodeId) : List PeerEntry := t.replacement (bucketIndex t.selfId id)

/-- What is left of the bucket of a peer when the peer is evicted. -/
def kept (dead : NodeId) : List PeerEntry := (t.bucketOf dead).filter fun e ↦ e.id ≠ dead

/-- The entry that takes the place of an evicted peer. -/
def promoted (dead : NodeId) : Option PeerEntry :=
  (t.waiting dead).getLast?.filter fun _ ↦ (t.kept dead).length < kMax

/-- The peer that an operation evicts. The third failure of a peer in a row evicts it. -/
def evicts : TableOp → Option NodeId
  | .evictAndReplace dead => some dead
  | .markFail id => (t.get id).bind fun e ↦ if saturatingSucc e.failCount ≥ 3 then some id else none
  | _ => none

variable {t}

theorem id_of_get {x : NodeId} {e : PeerEntry} (h : t.get x = some e) : e.id = x := by
  have hdecide := List.find?_some h
  exact of_decide_eq_true hdecide

theorem mem_bucketOf_of_get {x : NodeId} {e : PeerEntry} (h : t.get x = some e) :
    e ∈ t.bucketOf x :=
  List.mem_of_find?_eq_some h

theorem forall_setBucket {p : ℕ → List PeerEntry → Prop} {i : ℕ} {b : List PeerEntry} (hb : p i b)
    (h : ∀ j, p j (t.buckets j)) (j : ℕ) : p j ((t.setBucket i b).buckets j) :=
  Function.forall_update_iff t.buckets p |>.mpr ⟨hb, fun j _ ↦ h j⟩ j

theorem forall_setReplacement {p : ℕ → List PeerEntry → Prop} {i : ℕ} {b : List PeerEntry}
    (hb : p i b) (h : ∀ j, p j (t.replacement j)) (j : ℕ) :
    p j ((t.setReplacement i b).replacement j) :=
  Function.forall_update_iff t.replacement p |>.mpr ⟨hb, fun j _ ↦ h j⟩ j

theorem buckets_setBucket_self (t : RoutingTable) (i : ℕ) (b : List PeerEntry) :
    (t.setBucket i b).buckets i = b := Function.update_self _ _ _

theorem replacement_setBucket (t : RoutingTable) (i : ℕ) (b : List PeerEntry) :
    (t.setBucket i b).replacement = t.replacement := rfl

theorem setReplacement_setBucket (t : RoutingTable) (i j : ℕ) (b b' : List PeerEntry) :
    (t.setBucket i b).setReplacement j b' = (t.setReplacement j b').setBucket i b := rfl

theorem setBucket_setBucket (t : RoutingTable) (i : ℕ) (b b' : List PeerEntry) :
    (t.setBucket i b).setBucket i b' = t.setBucket i b' := by
  rw [setBucket, setBucket, setBucket, Function.update_idem]

theorem setReplacement_of_eq {i : ℕ} {b : List PeerEntry} (h : t.replacement i = b) :
    t.setReplacement i b = t := by
  rw [setReplacement, ← h, Function.update_eq_self]

/-- **Evictions.** The last of the waiting entries is taken off, and goes to the end of the bucket
if there is room for it. -/
theorem evictAndReplace_eq (t : RoutingTable) (dead : NodeId) :
    t.evictAndReplace dead =
      (t.setReplacement (bucketIndex t.selfId dead) (t.waiting dead).dropLast).setBucket
        (bucketIndex t.selfId dead) (t.kept dead ++ (t.promoted dead).toList) := by
  have hfilter : (t.buckets (bucketIndex t.selfId dead)).filter (fun e ↦ e.id ≠ dead)
      = t.kept dead := rfl
  have hwaiting : t.replacement (bucketIndex t.selfId dead) = t.waiting dead := rfl
  rw [evictAndReplace, promoted, hfilter]
  simp only [replacement_setBucket, buckets_setBucket_self, hwaiting]
  rcases hlast : (t.waiting dead).getLast? with _ | e
  · rw [List.getLast?_eq_none_iff] at hlast
    rw [hlast, List.dropLast_nil, setReplacement_of_eq (hwaiting.trans hlast), Option.filter_none,
      Option.toList_none, List.append_nil]
  · dsimp only
    rw [setReplacement_setBucket, setBucket_setBucket, tryPush, Option.filter_some]
    by_cases hroom : (t.kept dead).length < kMax
    · rw [if_pos hroom, decide_eq_true hroom, if_pos rfl, Option.toList_some]
    · rw [if_neg hroom, decide_eq_false hroom, if_neg Bool.false_ne_true, Option.toList_none,
        List.append_nil]

/-- It does not matter what the bucket said about the evicted peer. -/
theorem evictAndReplace_setBucket {dead : NodeId} {b : List PeerEntry}
    (h : (b.filter fun e ↦ e.id ≠ dead) = t.kept dead) :
    (t.setBucket (bucketIndex t.selfId dead) b).evictAndReplace dead = t.evictAndReplace dead := by
  have hkept : (t.setBucket (bucketIndex t.selfId dead) b).kept dead = t.kept dead := by
    rw [kept, bucketOf]
    exact (congrArg _ (buckets_setBucket_self _ _ _)).trans h
  have hpromoted : (t.setBucket (bucketIndex t.selfId dead) b).promoted dead
      = t.promoted dead := by
    rw [promoted, promoted, hkept]
    rfl
  rw [evictAndReplace_eq, evictAndReplace_eq, hkept, hpromoted]
  exact setBucket_setBucket (t.setReplacement _ (t.waiting dead).dropLast) _ _ _

theorem mem_updateFirst {id : NodeId} {f : PeerEntry → PeerEntry} {b : List PeerEntry}
    {e : PeerEntry} (h : e ∈ updateFirst id f b) : e ∈ b ∨ ∃ e' ∈ b, e = f e' := by
  induction b with
  | nil => cases h
  | cons first b ih =>
    rw [updateFirst] at h
    split_ifs at h
    · rcases List.mem_cons.mp h with rfl | hrest
      · exact Or.inr ⟨first, List.mem_cons_self, rfl⟩
      · exact Or.inl (List.mem_cons_of_mem _ hrest)
    · rcases List.mem_cons.mp h with rfl | hrest
      · exact Or.inl List.mem_cons_self
      · rcases ih hrest with hold | ⟨e', he', rfl⟩
        · exact Or.inl (List.mem_cons_of_mem _ hold)
        · exact Or.inr ⟨e', List.mem_cons_of_mem _ he', rfl⟩

theorem filter_updateFirst_self {id : NodeId} {f : PeerEntry → PeerEntry}
    (hf : ∀ e, (f e).id = e.id) (b : List PeerEntry) :
    ((updateFirst id f b).filter fun e ↦ e.id ≠ id) = b.filter fun e ↦ e.id ≠ id := by
  induction b with
  | nil => rfl
  | cons e b ih =>
    by_cases he : e.id = id
    · simp [updateFirst, he, hf]
    · simp only [updateFirst, if_neg he, List.filter_cons, ih]

/-- The entry with another failure count. -/
def counted (n : UInt32) (e : PeerEntry) : PeerEntry := { e with failCount := n }

theorem markFail_of_get_none {id : NodeId} (h : t.get id = none) : t.markFail id = t := by
  rw [markFail, h]

theorem markFail_of_few {id : NodeId} {e : PeerEntry} (he : t.get id = some e)
    (hfew : ¬saturatingSucc e.failCount ≥ 3) :
    t.markFail id = t.setBucket (bucketIndex t.selfId id)
      (updateFirst id (counted (saturatingSucc e.failCount)) (t.bucketOf id)) := by
  rw [markFail, he]
  exact if_neg hfew

theorem markFail_of_three {id : NodeId} {e : PeerEntry} (he : t.get id = some e)
    (hthree : saturatingSucc e.failCount ≥ 3) : t.markFail id = t.evictAndReplace id := by
  rw [markFail, he]
  simp only [if_pos hthree]
  refine evictAndReplace_setBucket (filter_updateFirst_self ?_ _)
  exact fun _ ↦ rfl

theorem apply_of_evicts {op : TableOp} {dead : NodeId} (h : t.evicts op = some dead) :
    t.apply op = t.evictAndReplace dead := by
  cases op with
  | insert now info => cases h
  | touchOk now id rttUs => cases h
  | evictAndReplace id =>
    obtain rfl := Option.some.inj h
    rfl
  | markFail id =>
    obtain ⟨e, he, hfails⟩ := Option.bind_eq_some_iff.mp h
    split_ifs at hfails with hthree
    obtain rfl := Option.some.inj hfails
    exact markFail_of_three he hthree

/-! ## Edits -/

/-- The entry of a known peer after an insertion. -/
def reentered (now : ℕ) (info : PeerInfo) (e : PeerEntry) : PeerEntry :=
  { e with info, lastSeen := now, failCount := 0 }

/-- What an operation can do to a table without evicting a peer. -/
inductive Edit (t : RoutingTable) : RoutingTable → Prop where
  | keep : Edit t t
  /-- A known peer is entered again, at the end of its bucket. -/
  | refresh {now : ℕ} {info : PeerInfo} {e : PeerEntry} (hself : info.id ≠ t.selfId)
      (hok : t.prefixOk info = true) (he : t.get info.id = some e) :
      Edit t (t.setBucket (bucketIndex t.selfId info.id)
        ((t.bucketOf info.id).eraseP (fun e ↦ e.id = info.id) ++ [reentered now info e]))
  /-- A new peer is entered into a bucket with room for it. -/
  | enter {now : ℕ} {info : PeerInfo} (hself : info.id ≠ t.selfId) (hok : t.prefixOk info = true)
      (hnew : t.get info.id = none) (hroom : (t.bucketOf info.id).length < min t.k kMax) :
      Edit t (t.setBucket (bucketIndex t.selfId info.id)
        (t.bucketOf info.id ++ [freshEntry now info]))
  /-- A new peer has to wait. -/
  | wait {now : ℕ} {info : PeerInfo} (hself : info.id ≠ t.selfId) (hok : t.prefixOk info = true)
      (hnew : t.get info.id = none) (hroom : (t.waiting info.id).length < 8) :
      Edit t (t.setReplacement (bucketIndex t.selfId info.id)
        (t.waiting info.id ++ [freshEntry now info]))
  /-- An entry is rewritten, but not its id or its address. -/
  | rewrite {id : NodeId} {f : PeerEntry → PeerEntry} (hid : ∀ e, (f e).id = e.id)
      (haddr : ∀ e, (f e).info.primaryAddr = e.info.primaryAddr) :
      Edit t (t.setBucket (bucketIndex t.selfId id) (updateFirst id f (t.bucketOf id)))

/-- What an insertion can do to a table. -/
inductive Inserted (t : RoutingTable) (now : ℕ) (info : PeerInfo) : RoutingTable → Prop where
  | keep : Inserted t now info t
  | refresh {e : PeerEntry} (hself : info.id ≠ t.selfId) (hok : t.prefixOk info = true)
      (he : t.get info.id = some e) :
      Inserted t now info (t.setBucket (bucketIndex t.selfId info.id)
        ((t.bucketOf info.id).eraseP (fun e ↦ e.id = info.id) ++ [reentered now info e]))
  | enter (hself : info.id ≠ t.selfId) (hok : t.prefixOk info = true)
      (hnew : t.get info.id = none) (hroom : (t.bucketOf info.id).length < min t.k kMax) :
      Inserted t now info (t.setBucket (bucketIndex t.selfId info.id)
        (t.bucketOf info.id ++ [freshEntry now info]))
  | wait (hself : info.id ≠ t.selfId) (hok : t.prefixOk info = true)
      (hnew : t.get info.id = none) (hroom : (t.waiting info.id).length < 8) :
      Inserted t now info (t.setReplacement (bucketIndex t.selfId info.id)
        (t.waiting info.id ++ [freshEntry now info]))

theorem inserted (t : RoutingTable) (now : ℕ) (info : PeerInfo) :
    Inserted t now info (t.insert now info).2 := by
  rw [insert]
  by_cases hself : info.id = t.selfId
  · rw [if_pos hself]
    exact .keep
  rw [if_neg hself]
  by_cases hok : t.prefixOk info = false
  · rw [if_pos hok]
    exact .keep
  rw [if_neg hok]
  rw [Bool.not_eq_false] at hok
  dsimp only
  split
  · rename_i e he
    exact .refresh hself hok he
  · rename_i hnew
    split_ifs with hroom hwait
    · exact .enter hself hok hnew hroom
    · exact .wait hself hok hnew hwait
    · exact .keep

theorem Inserted.edit {now : ℕ} {info : PeerInfo} {t' : RoutingTable}
    (h : Inserted t now info t') : Edit t t' := by
  cases h with
  | keep => exact .keep
  | refresh hself hok he => exact .refresh hself hok he
  | enter hself hok hnew hroom => exact .enter hself hok hnew hroom
  | wait hself hok hnew hroom => exact .wait hself hok hnew hroom

/-- **Edits.** An operation that does not evict a peer makes an edit. -/
theorem edit_apply {op : TableOp} (h : t.evicts op = none) : Edit t (t.apply op) := by
  cases op with
  | insert now info => exact (inserted t now info).edit
  | touchOk now id rttUs => exact .rewrite (fun _ ↦ rfl) fun _ ↦ rfl
  | evictAndReplace id => cases h
  | markFail id =>
    rw [apply]
    rcases he : t.get id with _ | e
    · rw [markFail_of_get_none he]
      exact .keep
    · have hfew : ¬saturatingSucc e.failCount ≥ 3 := by
        intro hthree
        rw [evicts, he, Option.bind_some, if_pos hthree] at h
        cases h
      rw [markFail_of_few he hfew]
      exact .rewrite (fun _ ↦ rfl) fun _ ↦ rfl

end RoutingTable

end Molia
