import Molia.Net.LookupRun
import Molia.Shard.Handlers
import Molia.Shard.Sending

/-!
# Sweeping the pending lookups

After an answer, and whenever the lookup timer fires, every pending lookup is taken out, asked for
its next batch, and put back unless it has ended. This file says what that does to one lookup:

* a lookup that is over, or has nobody left to ask or to wait for, is gone;
* any other lookup `Grows`: the peers of the batch are entered as queried and in flight, with the
  time of the sweep, and nothing else about the lookup changes.

On a lookup that meets the invariant of lookups, this is one of the operations of
`Molia.Net.LookupRun` (`dispatch_eq_step`).

A lookup that is `Waiting` has requests in flight and nobody with an address left to ask; a sweep
leaves it as it is, and these are the only lookups it leaves as they are.
-/

namespace Molia

/-! ## One batch -/

namespace Lookup

variable {l l' l'' : Lookup} {now : ℕ}

/-- The lookup has something in flight and nobody left to ask. -/
def Waiting (l : Lookup) (now : ℕ) : Prop := ¬l.Ends now ∧ ∀ p ∈ l.due, p.primaryAddr = none

instance (l : Lookup) (now : ℕ) : Decidable (l.Waiting now) := inferInstanceAs (Decidable (_ ∧ _))

theorem mem_fillBatch {p : PeerInfo} (ps batch : List PeerInfo) (h : p ∈ l.fillBatch ps batch) :
    p ∈ batch ∨ p.id ∉ l.queried := by
  induction ps generalizing batch with
  | nil => exact Or.inl h
  | cons q ps ih =>
    rw [fillBatch] at h
    split_ifs at h with hqueried hflight hfull
    · exact ih batch h
    · exact ih batch h
    · exact Or.inl h
    · rcases ih _ h with hmem | hnew
      · rw [tryPush] at hmem
        split_ifs at hmem
        · rcases List.mem_append.mp hmem with hold | hq
          · exact Or.inl hold
          · rw [List.mem_singleton.mp hq]
            exact Or.inr hqueried
        · exact Or.inl hmem
      · exact Or.inr hnew

theorem not_mem_queried_of_mem_due {p : PeerInfo} (h : p ∈ l.due) : p.id ∉ l.queried := by
  rcases mem_fillBatch _ _ h with hnil | hnew
  · cases hnil
  · exact hnew

/-- Some requests sent at the given time have been entered. -/
structure Grows (now : ℕ) (l l' : Lookup) : Prop where
  rest : { l' with queried := l.queried, inFlight := l.inFlight } = l
  queried : l.queried ⊆ l'.queried
  inFlight : l.inFlight ⊆ l'.inFlight
  fresh : ∀ f ∈ l'.inFlight, f ∈ l.inFlight ∨ f.sentAt = now

namespace Grows

theorem refl (now : ℕ) (l : Lookup) : Grows now l l :=
  ⟨rfl, List.Subset.refl _, List.Subset.refl _, fun _ hf ↦ Or.inl hf⟩

theorem trans (h : Grows now l l') (h' : Grows now l' l'') : Grows now l l'' := by
  refine ⟨?_, List.Subset.trans h.queried h'.queried,
    List.Subset.trans h.inFlight h'.inFlight, ?_⟩
  · calc { l'' with queried := l.queried, inFlight := l.inFlight }
        = { { l'' with queried := l'.queried, inFlight := l'.inFlight } with
            queried := l.queried, inFlight := l.inFlight } := rfl
      _ = { l' with queried := l.queried, inFlight := l.inFlight } := by rw [h'.rest]
      _ = l := h.rest
  · intro f hf
    rcases h'.fresh f hf with hold | hnew
    · exact h.fresh f hold
    · exact Or.inr hnew

theorem done_eq (h : Grows now l l') : l'.done = l.done := by
  have hdone := congrArg Lookup.done h.rest
  exact hdone

theorem noteSent (l : Lookup) (now : ℕ) (id : NodeId) (corr : UInt32) :
    Grows now l (l.noteSent now id corr) := by
  refine ⟨rfl, ?_, ?_, ?_⟩
  · intro x hx
    show x ∈ if id ∈ l.queried then l.queried else l.queried ++ [id]
    split_ifs
    · exact hx
    · exact List.mem_append_left _ hx
  · intro f hf
    show f ∈ tryPush batchCap l.inFlight _
    rw [tryPush]
    split_ifs
    · exact List.mem_append_left _ hf
    · exact hf
  · intro f hf
    change f ∈ tryPush batchCap l.inFlight ⟨id, corr, now⟩ at hf
    rw [tryPush] at hf
    split_ifs at hf
    · rcases List.mem_append.mp hf with hold | hnew
      · exact Or.inl hold
      · rw [List.mem_singleton.mp hnew]
        exact Or.inr rfl
    · exact Or.inl hf

end Grows

theorem mem_queried_noteSent (l : Lookup) (now : ℕ) (id : NodeId) (corr : UInt32) :
    id ∈ (l.noteSent now id corr).queried := by
  show id ∈ if id ∈ l.queried then l.queried else l.queried ++ [id]
  split_ifs with hid
  · exact hid
  · exact List.mem_append_right _ (List.mem_singleton_self _)

end Lookup

section

variable [Crates]

attribute [local irreducible] message

/-- What the code relies on from the codecs of lookup requests: a request fits in a datagram. -/
def RequestsFit : Prop := ∀ (l : Lookup) (corr : UInt32), (ShardNet.lookupRequest l corr).isSome

namespace ShardNet

variable {n : ShardNet} {l : Lookup} {acc : ShardNet × Lookup} {p : PeerInfo}

theorem dispatchTo_snd (acc : ShardNet × Lookup) (p : PeerInfo) :
    (dispatchTo acc p).2 = acc.2 ∨
      ∃ corr, (dispatchTo acc p).2 = acc.2.note ⟨p.id, corr, acc.1.now⟩ := by
  obtain ⟨n, l⟩ := acc
  rw [dispatchTo]
  dsimp only
  split
  · exact Or.inl rfl
  · rcases lookupRequest l n.nextCorr.1 with _ | pkt
    · dsimp only
      split
      · exact Or.inl rfl
      · exact Or.inl rfl
    · dsimp only
      split
      · exact Or.inr ⟨_, rfl⟩
      · exact Or.inr ⟨_, rfl⟩

theorem grows_dispatchTo (acc : ShardNet × Lookup) (p : PeerInfo) :
    Lookup.Grows acc.1.now acc.2 (dispatchTo acc p).2 := by
  rcases dispatchTo_snd acc p with hsame | ⟨corr, hnoted⟩
  · rw [hsame]
    exact Lookup.Grows.refl _ _
  · rw [hnoted]
    exact Lookup.Grows.noteSent _ _ _ _

theorem exists_sends (batch : List PeerInfo) (acc : ShardNet × Lookup) :
    ∃ sends : List InFlight, (sends.map InFlight.id).Sublist (batch.map PeerInfo.id) ∧
      (batch.foldl dispatchTo acc).2 = sends.foldl Lookup.note acc.2 := by
  induction batch generalizing acc with
  | nil => exact ⟨[], List.Sublist.refl _, rfl⟩
  | cons p batch ih =>
    obtain ⟨sends, hsub, heq⟩ := ih (dispatchTo acc p)
    rw [List.foldl_cons, heq]
    rcases dispatchTo_snd acc p with hsame | ⟨corr, hnoted⟩
    · exact ⟨sends, hsub.trans (List.sublist_cons_self _ _), by rw [hsame]⟩
    · exact ⟨⟨p.id, corr, acc.1.now⟩ :: sends, hsub.cons_cons _, by rw [hnoted, List.foldl_cons]⟩

/-- What the shard does with a lookup in a sweep is a step of the runs of lookups. -/
theorem dispatch_eq_step (h : l.Sound) (n : ShardNet) :
    ∃ sends, l.Proper (.dispatch n.now sends) ∧
      (n.dispatchLookupBatch l).2 = l.step (.dispatch n.now sends) := by
  obtain ⟨sends, hsub, heq⟩ := exists_sends (l.nextBatch n.now).1 (n, (l.nextBatch n.now).2)
  refine ⟨sends, ⟨(h.nodup_nextBatch n.now).sublist hsub, ?_⟩, heq⟩
  intro f hf
  exact hsub.subset (List.mem_map_of_mem hf)

/-- A peer without an address uses up a correlation id and nothing else. -/
theorem dispatchTo_of_noAddr (h : p.primaryAddr = none) :
    dispatchTo acc p = (acc.1.nextCorr.2, acc.2) := by
  obtain ⟨n, l⟩ := acc
  simp only [dispatchTo, h]

theorem mem_queried_dispatchTo (hfit : RequestsFit) {dest : SocketAddr}
    (h : p.primaryAddr = some dest) : p.id ∈ (dispatchTo acc p).2.queried := by
  obtain ⟨n, l⟩ := acc
  obtain ⟨pkt, hpkt⟩ := Option.isSome_iff_exists.mp (hfit l n.nextCorr.1)
  simp only [dispatchTo, h, hpkt]
  split
  · exact Lookup.mem_queried_noteSent _ _ _ _
  · exact Lookup.mem_queried_noteSent _ _ _ _

theorem grows_foldl_dispatchTo (batch : List PeerInfo) (acc : ShardNet × Lookup) :
    Lookup.Grows acc.1.now acc.2 (batch.foldl dispatchTo acc).2 := by
  induction batch generalizing acc with
  | nil => exact Lookup.Grows.refl _ _
  | cons p batch ih =>
    have hnow : (dispatchTo acc p).1.now = acc.1.now :=
      congrArg Env.instant (Posts.dispatchTo acc p).sends.env
    exact (grows_dispatchTo acc p).trans (hnow ▸ ih (dispatchTo acc p))

theorem dispatch_of_ends (h : l.Ends n.now) :
    n.dispatchLookupBatch l = (n, { l with done := true }) := by
  rw [dispatchLookupBatch, Lookup.nextBatch_of_ends h]
  rfl

theorem dispatch_of_not_ends (h : ¬l.Ends n.now) :
    n.dispatchLookupBatch l = l.due.foldl dispatchTo (n, l) := by
  rw [dispatchLookupBatch, Lookup.nextBatch_of_not_ends h]

theorem grows_dispatch (h : ¬l.Ends n.now) :
    Lookup.Grows n.now l (n.dispatchLookupBatch l).2 := by
  rw [dispatch_of_not_ends h]
  exact grows_foldl_dispatchTo l.due (n, l)

theorem dispatch_of_waiting (h : l.Waiting n.now) :
    (n.dispatchLookupBatch l).2 = l ∧ (n.dispatchLookupBatch l).1.sent = n.sent ∧
      (n.dispatchLookupBatch l).1.calls = n.calls := by
  rw [dispatch_of_not_ends h.1]
  refine List.foldlRecOn (motive := fun acc : ShardNet × Lookup ↦
    acc.2 = l ∧ acc.1.sent = n.sent ∧ acc.1.calls = n.calls) _ dispatchTo ⟨rfl, rfl, rfl⟩ ?_
  intro acc hacc p hp
  rw [dispatchTo_of_noAddr (h.2 p hp)]
  exact hacc

theorem mem_queried_dispatch (hfit : RequestsFit) (h : ¬l.Ends n.now) (hp : p ∈ l.due)
    {dest : SocketAddr} (haddr : p.primaryAddr = some dest) :
    p.id ∈ (n.dispatchLookupBatch l).2.queried := by
  obtain ⟨before, after, hsplit⟩ := List.append_of_mem hp
  rw [dispatch_of_not_ends h, hsplit, List.foldl_append, List.foldl_cons]
  exact (grows_foldl_dispatchTo after _).queried (mem_queried_dispatchTo hfit haddr)

/-! ## One lookup -/

/-- What a sweep leaves of a pending lookup. -/
def swept (n : ShardNet) (p : PendingLookup) : Option PendingLookup :=
  let l := (n.dispatchLookupBatch p.lookup).2
  if l.done then none else some { p with lookup := l }

variable {p p' : PendingLookup}

theorem swept_of_ends (h : p.lookup.Ends n.now) : n.swept p = none := by
  rw [swept, dispatch_of_ends h]
  rfl

theorem swept_of_not_ends (h : ¬p.lookup.Ends n.now) :
    n.swept p = some { p with lookup := (n.dispatchLookupBatch p.lookup).2 } := by
  have hdone : ¬(n.dispatchLookupBatch p.lookup).2.done = true := by
    rw [(grows_dispatch h).done_eq]
    exact fun hd ↦ h (Or.inl (Or.inl hd))
  exact if_neg hdone

theorem swept_of_waiting (h : p.lookup.Waiting n.now) : n.swept p = some p := by
  rw [swept_of_not_ends h.1, (dispatch_of_waiting h).1]

theorem grows_of_swept (h : n.swept p = some p') :
    Lookup.Grows n.now p.lookup p'.lookup := by
  by_cases hends : p.lookup.Ends n.now
  · rw [swept_of_ends hends] at h
    cases h
  · rw [swept_of_not_ends hends] at h
    rw [← Option.some.inj h]
    exact grows_dispatch hends

theorem waiting_of_swept (hfit : RequestsFit) (h : n.swept p = some p')
    (hsame : p'.lookup.queried ⊆ p.lookup.queried) : p.lookup.Waiting n.now := by
  by_cases hends : p.lookup.Ends n.now
  · rw [swept_of_ends hends] at h
    cases h
  · refine ⟨hends, ?_⟩
    intro q hq
    rw [swept_of_not_ends hends] at h
    rcases haddr : q.primaryAddr with _ | dest
    · rfl
    · have hqueried := mem_queried_dispatch hfit hends hq haddr
      rw [← Option.some.inj h] at hsame
      exact absurd (hsame hqueried) (Lookup.not_mem_queried_of_mem_due hq)

end ShardNet

/-! ## All lookups -/

namespace ShardCtx

variable {c : ShardCtx} {id id' : UInt32}

theorem finishLookup_eq (c : ShardCtx) (l : Lookup) (reply : Option Chan) :
    ∃ replies, c.finishLookup l reply = { c with replies } := by
  rcases reply with _ | tx
  · exact ⟨_, rfl⟩
  · rw [finishLookup]
    split
    · exact ⟨_, rfl⟩
    · split
      · exact ⟨_, rfl⟩
      · split_ifs
        · exact ⟨_, rfl⟩
        · exact ⟨_, rfl⟩

theorem net_finishLookup (c : ShardCtx) (l : Lookup) (reply : Option Chan) :
    (c.finishLookup l reply).toShardNet = c.toShardNet := by
  obtain ⟨replies, heq⟩ := c.finishLookup_eq l reply
  rw [heq]

theorem lookups_finishLookup (c : ShardCtx) (l : Lookup) (reply : Option Chan) :
    (c.finishLookup l reply).lookups = c.lookups := by
  obtain ⟨replies, heq⟩ := c.finishLookup_eq l reply
  rw [heq]

theorem batches_finishLookup (c : ShardCtx) (l : Lookup) (reply : Option Chan) :
    (c.finishLookup l reply).batches = c.batches := by
  obtain ⟨replies, heq⟩ := c.finishLookup_eq l reply
  rw [heq]

theorem posts_startLookup (c : ShardCtx) (kind : LookupKind) (target : Key) (reply : Option Chan) :
    ShardNet.Posts c.toShardNet (c.startLookup kind target reply).toShardNet := by
  rw [startLookup]
  dsimp only
  generalize (if c.cfg.queryBlind then PrivacyMode.blind else PrivacyMode.none) = privacy
  have hposts := ShardNet.Posts.dispatchLookupBatch c.toShardNet
    (Lookup.new c.now kind target (c.table.closest target alphaDefault) privacy)
  split
  · rw [net_finishLookup]
    exact hposts
  · exact hposts

theorem net_updateLookup (c : ShardCtx) (corr : UInt32) (f : Lookup → Lookup) :
    (c.updateLookup corr f).toShardNet = c.toShardNet := by
  rw [updateLookup]
  split
  · rfl
  · rfl

theorem lookup_updateLookup (c : ShardCtx) (corr : UInt32) (f : Lookup → Lookup) (id : UInt32) :
    (c.updateLookup corr f).lookups.lookup id = (c.lookups.lookup id).map fun p ↦
      if c.findLookup corr = some id then { p with lookup := f p.lookup } else p := by
  rw [updateLookup]
  rcases c.findLookup corr with _ | i
  · simp
  · show (c.lookups.modify i _).lookup id = _
    rw [HashMap.lookup_modify]
    simp only [Option.some.injEq, eq_comm]

theorem net_sweepOne (c : ShardCtx) (id : UInt32) :
    (c.sweepOne id).toShardNet = ((c.lookups.lookup id).map fun p ↦
      (c.toShardNet.dispatchLookupBatch p.lookup).1).getD c.toShardNet := by
  rw [sweepOne]
  rcases c.lookups.lookup id with _ | p
  · rfl
  · simp only [Option.map_some, Option.getD_some]
    split
    · rw [net_finishLookup]
      rfl
    · rfl

theorem posts_sweepOne (c : ShardCtx) (id : UInt32) :
    ShardNet.Posts c.toShardNet (c.sweepOne id).toShardNet := by
  rw [net_sweepOne]
  rcases c.lookups.lookup id with _ | p
  · exact .refl
  · exact ShardNet.Posts.dispatchLookupBatch _ _

theorem lookup_sweepOne (c : ShardCtx) (id id' : UInt32) :
    (c.sweepOne id).lookups.lookup id' = if id' = id then (c.lookups.lookup id).bind c.swept
      else c.lookups.lookup id' := by
  rw [sweepOne]
  rcases hp : c.lookups.lookup id with _ | p
  · split_ifs with hid
    · rw [hid, hp]
      rfl
    · rfl
  · simp only [Option.bind_some, ShardNet.swept]
    by_cases hdone : (c.toShardNet.dispatchLookupBatch p.lookup).2.done = true
    · simp only [hdone, if_true]
      rw [lookups_finishLookup]
      exact HashMap.lookup_erase_of _ _ _
    · simp only [if_neg hdone]
      show (AList.insert id _ (c.lookups.erase id)).lookup id' = _
      rw [HashMap.lookup_insert_of, HashMap.lookup_erase_of]
      by_cases hid : id' = id
      · rw [if_pos hid, if_pos hid]
      · rw [if_neg hid, if_neg hid, if_neg hid]

theorem posts_sweepLookups (c : ShardCtx) :
    ShardNet.Posts c.toShardNet c.sweepLookups.toShardNet :=
  List.foldlRecOn (motive := fun c' : ShardCtx ↦ ShardNet.Posts c.toShardNet c'.toShardNet) _
    sweepOne .refl fun c' h id _ ↦ h.trans (posts_sweepOne c' id)

/-- A lookup is left alone until its turn comes, swept then, and left alone afterwards: its id is
not met twice. -/
theorem lookup_foldl_sweepOne (id : UInt32) {ids : List UInt32} (hnodup : ids.Nodup)
    (c : ShardCtx) :
    (id ∉ ids → (ids.foldl sweepOne c).lookups.lookup id = c.lookups.lookup id) ∧
      (id ∈ ids → ∃ n, ShardNet.Sends c.toShardNet n ∧
        (ids.foldl sweepOne c).lookups.lookup id = (c.lookups.lookup id).bind n.swept) := by
  induction ids generalizing c with
  | nil => exact ⟨fun _ ↦ rfl, fun hmem ↦ by cases hmem⟩
  | cons i ids ih =>
    obtain ⟨hi, hnodup⟩ := List.nodup_cons.mp hnodup
    obtain ⟨hout, hin⟩ := ih hnodup (c.sweepOne i)
    have hstep := lookup_sweepOne c i id
    refine ⟨?_, ?_⟩
    · intro hmem
      rw [List.mem_cons, not_or] at hmem
      rw [List.foldl_cons, hout hmem.2, hstep, if_neg hmem.1]
    · intro hmem
      by_cases hid : id = i
      · subst hid
        refine ⟨c.toShardNet, ShardNet.Sends.refl _, ?_⟩
        rw [List.foldl_cons, hout hi, hstep, if_pos rfl]
      · obtain ⟨n, hsends, hlookup⟩ := hin ((List.mem_cons.mp hmem).resolve_left hid)
        refine ⟨n, (posts_sweepOne c i).sends.trans hsends, ?_⟩
        rw [List.foldl_cons, hlookup, hstep, if_neg hid]

/-- **What a sweep does to one lookup.** Each lookup is swept once, at some point of the sweep. -/
theorem lookup_sweepLookups (c : ShardCtx) (id : UInt32) :
    ∃ n, ShardNet.Sends c.toShardNet n ∧
      c.sweepLookups.lookups.lookup id = (c.lookups.lookup id).bind n.swept := by
  obtain ⟨hout, hin⟩ := lookup_foldl_sweepOne id c.lookups.keys_nodup c
  by_cases hmem : id ∈ c.lookups.keys
  · exact hin hmem
  · have hnone : c.lookups.lookup id = none := AList.lookup_eq_none.mpr hmem
    refine ⟨c.toShardNet, ShardNet.Sends.refl _, ?_⟩
    rw [hnone]
    exact (hout hmem).trans hnone

theorem exists_of_findLookup {corr id : UInt32} (h : c.findLookup corr = some id) :
    ∃ p, c.lookups.lookup id = some p := by
  obtain ⟨e, he, rfl⟩ := Option.map_eq_some_iff.mp h
  exact ⟨e.2, AList.mem_lookup_iff.mpr (List.mem_of_find?_eq_some he)⟩

/-! ## The calls of `next_batch` -/

theorem batches_startLookup (c : ShardCtx) (kind : LookupKind) (target : Key)
    (reply : Option Chan) : ∃ privacy, (c.startLookup kind target reply).batches = c.batches
      ++ [(Lookup.new c.now kind target (c.table.closest target alphaDefault) privacy, c.now)] := by
  refine ⟨if c.cfg.queryBlind then PrivacyMode.blind else PrivacyMode.none, ?_⟩
  rw [startLookup]
  generalize Lookup.new _ _ _ _ _ = l
  dsimp only
  split
  · rw [batches_finishLookup]
  · rfl

theorem batches_updateLookup (c : ShardCtx) (corr : UInt32) (f : Lookup → Lookup) :
    (c.updateLookup corr f).batches = c.batches := by
  rw [updateLookup]
  split
  · rfl
  · rfl

theorem batches_sweepOne (c : ShardCtx) (id : UInt32) :
    (c.sweepOne id).batches
      = c.batches ++ ((c.lookups.lookup id).map fun p ↦ (p.lookup, c.now)).toList := by
  rw [sweepOne]
  rcases c.lookups.lookup id with _ | p
  · exact (List.append_nil _).symm
  · dsimp only
    split
    · rw [batches_finishLookup]
      rfl
    · rfl

theorem batches_foldl_sweepOne {ids : List UInt32} (hnodup : ids.Nodup) (c : ShardCtx) :
    (ids.foldl sweepOne c).batches = c.batches
      ++ ids.filterMap fun id ↦ (c.lookups.lookup id).map fun p ↦ (p.lookup, c.now) := by
  induction ids generalizing c with
  | nil => exact (List.append_nil _).symm
  | cons i ids ih =>
    obtain ⟨hi, hnodup⟩ := List.nodup_cons.mp hnodup
    have hnow : (c.sweepOne i).now = c.now := congrArg Env.instant (posts_sweepOne c i).sends.env
    -- the ids are distinct, so the lookups that are still to come are as they were
    have hlater : (ids.filterMap fun id ↦
        ((c.sweepOne i).lookups.lookup id).map fun p ↦ (p.lookup, (c.sweepOne i).now))
        = ids.filterMap fun id ↦ (c.lookups.lookup id).map fun p ↦ (p.lookup, c.now) := by
      refine List.filterMap_congr fun id hid ↦ ?_
      have hne : id ≠ i := fun h ↦ hi (h ▸ hid)
      rw [lookup_sweepOne, if_neg hne, hnow]
    rw [List.foldl_cons, ih hnodup, hlater, batches_sweepOne, List.append_assoc]
    rcases hlookup : c.lookups.lookup i with _ | p
    · simp [hlookup]
    · simp [hlookup]

/-- **A sweep calls `next_batch`** once on every pending lookup, and on no other. -/
theorem batches_sweepLookups (c : ShardCtx) :
    ∃ new, c.sweepLookups.batches = c.batches ++ new ∧
      ∀ b, b ∈ new ↔ ∃ id p, c.lookups.lookup id = some p ∧ b = (p.lookup, c.now) := by
  refine ⟨_, batches_foldl_sweepOne c.lookups.keys_nodup c, fun b ↦ ?_⟩
  rw [List.mem_filterMap]
  constructor
  · rintro ⟨id, -, hid⟩
    obtain ⟨p, hp, rfl⟩ := Option.map_eq_some_iff.mp hid
    exact ⟨id, p, hp, rfl⟩
  · rintro ⟨id, p, hp, rfl⟩
    have hmem : id ∈ c.lookups := AList.lookup_isSome.mp (hp ▸ rfl)
    exact ⟨id, hmem, by rw [hp]; rfl⟩

/-! ## Lookups that wait -/

theorem sweepOne_of_waiting {id : UInt32}
    (h : ∀ p, c.lookups.lookup id = some p → p.lookup.Waiting c.now) :
    (∀ id', (c.sweepOne id).lookups.lookup id' = c.lookups.lookup id') ∧
      (c.sweepOne id).sent = c.sent ∧ (c.sweepOne id).calls = c.calls := by
  rcases hp : c.lookups.lookup id with _ | p
  · have hskip : c.sweepOne id = c := by
      rw [sweepOne, hp]
    rw [hskip]
    exact ⟨fun _ ↦ rfl, rfl, rfl⟩
  · have hwait := h p hp
    have hnet : (c.sweepOne id).toShardNet = (c.toShardNet.dispatchLookupBatch p.lookup).1 := by
      rw [net_sweepOne, hp]
      rfl
    refine ⟨?_, ?_, ?_⟩
    · intro id'
      rw [lookup_sweepOne, hp, Option.bind_some, ShardNet.swept_of_waiting hwait]
      split_ifs with hid
      · rw [hid, hp]
      · rfl
    · rw [hnet, (ShardNet.dispatch_of_waiting hwait).2.1]
    · rw [hnet, (ShardNet.dispatch_of_waiting hwait).2.2]

theorem sweepLookups_of_waiting
    (h : ∀ id p, c.lookups.lookup id = some p → p.lookup.Waiting c.now) :
    (∀ id, c.sweepLookups.lookups.lookup id = c.lookups.lookup id) ∧
      c.sweepLookups.sent = c.sent ∧ c.sweepLookups.calls = c.calls := by
  -- that the clock does not move in the sweep is carried along with what is wanted
  have hall := List.foldlRecOn (motive := fun c' : ShardCtx ↦
    ShardNet.Sends c.toShardNet c'.toShardNet ∧
      (∀ id, c'.lookups.lookup id = c.lookups.lookup id) ∧ c'.sent = c.sent ∧ c'.calls = c.calls)
    c.lookups.keys sweepOne ⟨ShardNet.Sends.refl _, fun _ ↦ rfl, rfl, rfl⟩ (by
      rintro c' ⟨hsends, hsame, hsent, hcalls⟩ id -
      have hnow : c'.now = c.now := congrArg Env.instant hsends.env
      have hwait : ∀ p, c'.lookups.lookup id = some p → p.lookup.Waiting c'.now := by
        intro p hp
        rw [hnow]
        exact h id p ((hsame id).symm.trans hp)
      obtain ⟨hsame', hsent', hcalls'⟩ := sweepOne_of_waiting hwait
      exact ⟨hsends.trans (posts_sweepOne c' id).sends, fun id' ↦ (hsame' id').trans (hsame id'),
        hsent'.trans hsent, hcalls'.trans hcalls⟩)
  exact hall.2

end ShardCtx

end

end Molia
