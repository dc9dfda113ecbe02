import Molia.Shard.History
import Molia.Shard.Pending

/-!
# Answers nobody asked for

The handlers of FIND_NODE and FIND_VALUE answers look up the request only at the end. Before that,
and whether or not there is such a request, they enter the peers of the answer, start to punch
towards them and cache the record; afterwards they sweep all pending lookups.

`response_untouched_iff` says when such an answer does nothing. A FIND_NODE answer does nothing only
if it does not decode: its sender is always entered into the peer index. A FIND_VALUE answer does
nothing exactly if it is `Inert`.
-/

namespace Molia

/-! ## Closer peers that a lookup knows -/

namespace Lookup

variable {l : Lookup} {sender : NodeId} {peers : List PeerInfo}

/-- Closer peers that are no news to a lookup: nobody waits for their sender, the number of parallel
requests is as low as it gets, the peers are listed, and the list is in order with its best peers
noted. -/
structure Heard (l : Lookup) (sender : NodeId) (peers : List PeerInfo) : Prop where
  unasked : ∀ f ∈ l.inFlight, f.id ≠ sender
  narrow : l.alpha = alphaMin
  listed : ∀ p ∈ peers, p.id ∈ l.shortlist.map PeerInfo.id
  sorted : l.shortlist.Pairwise (closerTo l.target)
  best : l.best = (l.shortlist.take l.k).map PeerInfo.id

theorem merged_eq_self_iff : l.merged peers = l.shortlist ↔
    (∀ p ∈ peers, p.id ∈ l.shortlist.map PeerInfo.id) ∧
      l.shortlist.Pairwise (closerTo l.target) := by
  rw [← merge_eq_self_iff PeerInfo.id l.shortlist peers, merged]
  constructor
  · intro h
    -- sorting does not change which peers are there
    have hids := (perm_sortShortlist (mergePeers l.shortlist peers) l.target).map PeerInfo.id
    rw [h] at hids
    refine ⟨(merge_eq_self_iff PeerInfo.id l.shortlist peers).mpr fun p hp ↦ ?_, ?_⟩
    · exact hids.mem_iff.mpr
        ((mem_map_merge PeerInfo.id _ _ _).mpr (Or.inr (List.mem_map_of_mem hp)))
    · rw [← h]
      exact pairwise_sortShortlist _ _
  · rintro ⟨hmerge, hsorted⟩
    have hmerge' : mergePeers l.shortlist peers = l.shortlist := hmerge
    rw [hmerge']
    exact hsorted.insertionSort_eq

theorem unasked_of_filter (h : (l.inFlight.filter fun f ↦ f.id ≠ sender) = l.inFlight) :
    ∀ f ∈ l.inFlight, f.id ≠ sender := by
  intro f hf
  rw [← h] at hf
  exact of_decide_eq_true (List.mem_filter.mp hf).2

theorem answered_of_unasked (h : ∀ f ∈ l.inFlight, f.id ≠ sender) : l.answered sender = l := by
  rw [answered, List.filter_eq_self.mpr fun f hf ↦ decide_eq_true (h f hf)]

/-- A fast answer with closer peers leaves a lookup that waits for somebody as it is exactly if they
are no news. -/
theorem onCloser_eq_self_iff {rttUs : UInt32} (hrtt : rttUs < 80000) (hflight : l.inFlight ≠ []) :
    l.onCloser sender peers rttUs = l ↔ l.Heard sender peers := by
  have halpha : max (l.alpha - 1) alphaMin = l.alpha ↔ l.alpha = alphaMin := by
    rw [alphaMin]
    omega
  rw [onCloser_eq, if_pos hrtt]
  constructor
  · intro h
    have hfilter : (l.inFlight.filter fun f ↦ f.id ≠ sender) = l.inFlight := congrArg inFlight h
    have hshort : l.merged peers = l.shortlist := congrArg shortlist h
    have hbest : ((l.merged peers).take l.k).map PeerInfo.id = l.best := congrArg best h
    obtain ⟨hlisted, hsorted⟩ := merged_eq_self_iff.mp hshort
    rw [hshort] at hbest
    exact ⟨unasked_of_filter hfilter, halpha.mp (congrArg alpha h), hlisted, hsorted, hbest.symm⟩
  · intro h
    have hanswered := answered_of_unasked h.unasked
    have hshort := merged_eq_self_iff.mpr ⟨h.listed, h.sorted⟩
    have hgoing : ¬l.Converged sender peers := by
      rintro ⟨-, hnone, -⟩
      rw [hanswered] at hnone
      exact hflight hnone
    rw [hanswered, hshort, ← h.best, halpha.mpr h.narrow, decide_eq_false hgoing, Bool.or_false]

theorem onProviders_eq_self_iff {ps : List (NodeId × Bytes)} (hflight : l.inFlight ≠ []) :
    l.onProviders sender ps peers = l ↔
      (∀ q ∈ ps, q.1 ∈ l.providers.map Prod.fst) ∧ l.Heard sender peers := by
  rw [← merge_eq_self_iff Prod.fst l.providers ps]
  have hsame (hproviders : mergeProviders l.providers ps = l.providers)
      (hanswered : l.answered sender = l) :
      l.onProviders sender ps peers = l.onCloser sender peers 0 := by
    rw [onProviders, hanswered, hproviders]
  constructor
  · intro h
    have hproviders : mergeProviders l.providers ps = l.providers := by
      have hfield := congrArg providers h
      rw [onProviders, onCloser_eq] at hfield
      exact hfield
    have hunasked : ∀ f ∈ l.inFlight, f.id ≠ sender := by
      have hfield := congrArg inFlight h
      rw [onProviders, inFlight_onCloser] at hfield
      intro f hf
      rw [← hfield] at hf
      exact of_decide_eq_true (List.mem_filter.mp hf).2
    rw [hsame hproviders (answered_of_unasked hunasked)] at h
    exact ⟨hproviders, (onCloser_eq_self_iff (by decide) hflight).mp h⟩
  · rintro ⟨hproviders, hheard⟩
    rw [hsame hproviders (answered_of_unasked hheard.unasked)]
    exact (onCloser_eq_self_iff (by decide) hflight).mpr hheard

end Lookup

section

variable [Crates]

open Crates

attribute [local irreducible] message

/-! ## The peers of an answer -/

namespace ShardNet

variable {n n' : ShardNet} {p : PeerInfo}

/-- A punching attempt towards the peer would be started. -/
def StartsPunch (n : ShardNet) (p : PeerInfo) : Prop :=
  p.id ≠ n.identity.nodeId ∧ n.isFresh p.id = false ∧ n.punches.lookup p.id = none ∧
    n.viaRelay.lookup p.id = none ∧ p.addrs ≠ []

instance (n : ShardNet) (p : PeerInfo) : Decidable (n.StartsPunch p) :=
  inferInstanceAs (Decidable (_ ∧ _))

theorem startPunch_of_not (src : SocketAddr) (h : ¬n.StartsPunch p) : n.startPunch src p = n := by
  rw [startPunch]
  split_ifs with hself hfresh hknown haddrs
  · rfl
  · rfl
  · rfl
  · rfl
  · rw [not_or, Option.not_isSome_iff_eq_none, Option.not_isSome_iff_eq_none] at hknown
    exact absurd ⟨hself, Bool.not_eq_true _ ▸ hfresh, hknown.1, hknown.2, haddrs⟩ h

theorem isSome_punches_burstPunch (n : ShardNet) (id id' : NodeId) :
    ((n.burstPunch id).punches.lookup id').isSome = (n.punches.lookup id').isSome := by
  rw [burstPunch]
  split
  · rfl
  · rename_i p hp
    have hsends := Sends.foldl Sends.sendPing p.candidates n
    have hpunches : (p.candidates.foldl sendPing n).punches = n.punches :=
      congrArg Knowledge.punches hsends.knowledge
    show (((p.candidates.foldl sendPing n).punches.modify id _).lookup id').isSome = _
    rw [HashMap.lookup_modify, Option.isSome_map, hpunches]

theorem isSome_punches_startPunch (src : SocketAddr) (h : n.StartsPunch p) (id : NodeId) :
    ((n.startPunch src p).punches.lookup id).isSome
      = (decide (id = p.id) || (n.punches.lookup id).isSome) := by
  obtain ⟨hself, hfresh, hpunch, hvia, haddrs⟩ := h
  have hsends := Sends.sendPunchMsg
    { n with punches := n.punches.insert p.id (newAttempt n.now p.id p.addrs src) } src p.id
    n.ourCandidates
  have hpunches := congrArg Knowledge.punches hsends.knowledge
  have hfresh' : ¬n.isFresh p.id = true := by
    rw [hfresh]
    exact Bool.false_ne_true
  have hknown : ¬((n.punches.lookup p.id).isSome ∨ (n.viaRelay.lookup p.id).isSome) := by
    rw [hpunch, hvia]
    decide
  rw [startPunch, if_neg hself, if_neg hfresh', if_neg hknown, if_neg haddrs]
  refine (isSome_punches_burstPunch _ p.id id).trans ?_
  refine (congrArg (fun m : HashMap NodeId PunchAttempt ↦ (m.lookup id).isSome) hpunches).trans ?_
  show ((n.punches.insert p.id _).lookup id).isSome = _
  rw [HashMap.lookup_insert_of]
  by_cases hid : id = p.id
  · rw [if_pos hid, decide_eq_true hid]
    rfl
  · rw [if_neg hid, decide_eq_false hid, Bool.false_or]

theorem isSome_punches_foldl_meet (src : SocketAddr) (peers : List PeerInfo) (n : ShardNet)
    {id : NodeId} (h : (n.punches.lookup id).isSome) :
    ((peers.foldl (meet src) n).punches.lookup id).isSome := by
  refine List.foldlRecOn (motive := fun n : ShardNet ↦ (n.punches.lookup id).isSome = true) peers
    (meet src) h ?_
  intro n hn p _
  by_cases hstart : (n.insertPeer p).StartsPunch p
  · rw [meet, isSome_punches_startPunch src hstart]
    exact Bool.or_eq_true_iff.mpr (Or.inr hn)
  · rw [meet, startPunch_of_not src hstart]
    exact hn

/-- Peers towards which no attempt is started only go into the table. -/
theorem foldl_meet_of_not (src : SocketAddr) (peers : List PeerInfo) (n : ShardNet)
    (h : ∀ p ∈ peers, ¬n.StartsPunch p) :
    peers.foldl (meet src) n
      = { n with table := n.table.enter n.now peers } := by
  induction peers generalizing n with
  | nil => rfl
  | cons p peers ih =>
    rw [List.forall_mem_cons] at h
    have hmeet : meet src n p = n.insertPeer p := startPunch_of_not src h.1
    rw [List.foldl_cons, hmeet, ih (n.insertPeer p) h.2]
    rfl

/-- If an attempt is started towards one of them, there is one that was not there before. -/
theorem exists_punch_foldl_meet (src : SocketAddr) (peers : List PeerInfo) (n : ShardNet)
    (h : ∃ p ∈ peers, n.StartsPunch p) :
    ∃ id, n.punches.lookup id = none ∧ ((peers.foldl (meet src) n).punches.lookup id).isSome := by
  induction peers generalizing n with
  | nil =>
    obtain ⟨p, hp, -⟩ := h
    cases hp
  | cons p peers ih =>
    by_cases hstart : n.StartsPunch p
    · refine ⟨p.id, hstart.2.2.1, isSome_punches_foldl_meet src peers _ ?_⟩
      have hstart' : (n.insertPeer p).StartsPunch p := hstart
      rw [meet, isSome_punches_startPunch src hstart', decide_eq_true rfl]
      rfl
    · have hmeet : meet src n p = n.insertPeer p := startPunch_of_not src hstart
      obtain ⟨q, hq, hqstart⟩ := h
      rw [List.mem_cons] at hq
      rcases hq with rfl | hq
      · exact absurd hqstart hstart
      · obtain ⟨id, hnone, hsome⟩ := ih (n.insertPeer p) ⟨q, hq, hqstart⟩
        rw [List.foldl_cons, hmeet]
        exact ⟨id, hnone, hsome⟩

theorem length_pending_learnAddr (n : ShardNet) (src : SocketAddr) (id : Option NodeId) :
    (n.learnAddr src id).peers.pending.length = n.peers.pending.length + 1 := by
  rcases id with _ | id
  · exact List.length_append
  · exact List.length_append

theorem length_pending_foldl (src : SocketAddr) (peers : List PeerInfo) (n : ShardNet) :
    n.peers.pending.length ≤ (peers.foldl
      (fun n p ↦ ((n.insertPeer p).upsertPeer p).startPunch src p) n).peers.pending.length := by
  refine List.foldlRecOn (motive := fun n' : ShardNet ↦
    n.peers.pending.length ≤ n'.peers.pending.length) peers _ le_rfl ?_
  intro n' hle p _
  rw [(Punches.startPunch src _ p).peers]
  refine le_trans hle ?_
  show _ ≤ (n'.peers.pending ++ _).length
  rw [List.length_append]
  exact Nat.le_add_right _ _

end ShardNet

/-! ## The lookup of an answer -/

namespace ShardCtx

variable {c : ShardCtx} {corr : UInt32} {f : Lookup → Lookup}

/-- The lookup that waits for the answer, if there is one, is left as it is. -/
def Fixed (c : ShardCtx) (corr : UInt32) (f : Lookup → Lookup) : Prop :=
  ∀ id p, c.findLookup corr = some id → c.lookups.lookup id = some p → f p.lookup = p.lookup

/-- All lookups wait. -/
def AllWaiting (c : ShardCtx) : Prop :=
  ∀ id p, c.lookups.lookup id = some p → p.lookup.Waiting c.now

theorem allWaiting_iff :
    c.AllWaiting ↔ ∀ p ∈ c.lookups.values, p.lookup.Waiting c.now := by
  constructor
  · intro h p hp
    obtain ⟨e, he, rfl⟩ := List.mem_map.mp hp
    exact h e.1 e.2 (AList.mem_lookup_iff.mpr he)
  · intro h id p hp
    exact h p (List.mem_map_of_mem (AList.mem_lookup_iff.mp hp))

instance (c : ShardCtx) : Decidable c.AllWaiting := decidable_of_iff _ allWaiting_iff.symm

theorem lookup_updateLookup_of_fixed (h : c.Fixed corr f) (id : UInt32) :
    (c.updateLookup corr f).lookups.lookup id = c.lookups.lookup id := by
  rw [lookup_updateLookup]
  rcases hp : c.lookups.lookup id with _ | p
  · rfl
  · rw [Option.map_some]
    split_ifs with hid
    · rw [h id p hid hp]
    · rfl

theorem allWaiting_updateLookup (hfix : c.Fixed corr f) (h : c.AllWaiting) :
    (c.updateLookup corr f).AllWaiting := by
  intro id p hp
  rw [lookup_updateLookup_of_fixed hfix] at hp
  have hnow : (c.updateLookup corr f).now = c.now :=
    congrArg ShardNet.now (net_updateLookup c corr f)
  rw [hnow]
  exact h id p hp

theorem allWaiting_sweepLookups (h : c.AllWaiting) : c.sweepLookups.AllWaiting := by
  intro id p hp
  rw [(sweepLookups_of_waiting h).1] at hp
  have hnow : c.sweepLookups.now = c.now := congrArg Env.instant (posts_sweepLookups c).sends.env
  rw [hnow]
  exact h id p hp

/-- If one or two sweeps leave nothing new in a lookup, it was waiting. -/
theorem waiting_of_sweeps (hfit : RequestsFit) {id : UInt32} {u p : PendingLookup}
    (hu : c.lookups.lookup id = some u) (hsame : p.lookup.queried ⊆ u.lookup.queried)
    (h : c.sweepLookups.lookups.lookup id = some p ∨
      c.sweepLookups.sweepLookups.lookups.lookup id = some p) :
    u.lookup.Waiting c.now ∧ u = p := by
  obtain ⟨n, hsends, hone⟩ := lookup_sweepLookups c id
  have hnow : n.now = c.now := congrArg Env.instant hsends.env
  rw [hu, Option.bind_some] at hone
  have hwait : ∀ {p' : PendingLookup}, n.swept u = some p' →
      p'.lookup.queried ⊆ u.lookup.queried → u.lookup.Waiting c.now ∧ n.swept u = some u := by
    intro p' hp' hsub
    have hw := ShardNet.waiting_of_swept hfit hp' hsub
    exact ⟨hnow ▸ hw, ShardNet.swept_of_waiting hw⟩
  rcases h with h | h
  · rw [hone] at h
    obtain ⟨hw, hself⟩ := hwait h hsame
    exact ⟨hw, Option.some.inj (hself.symm.trans h)⟩
  · obtain ⟨n', hsends', htwo⟩ := lookup_sweepLookups c.sweepLookups id
    have hnow' : n'.now = c.now :=
      (congrArg Env.instant hsends'.env).trans
        (congrArg Env.instant (posts_sweepLookups c).sends.env)
    rw [hone, h] at htwo
    obtain ⟨p', hp', hp⟩ := Option.bind_eq_some_iff.mp htwo.symm
    have hgrows := (ShardNet.grows_of_swept hp).queried
    obtain ⟨hw, hself⟩ := hwait hp' (List.Subset.trans hgrows hsame)
    obtain rfl : u = p' := Option.some.inj (hself.symm.trans hp')
    have hw' : u.lookup.Waiting n'.now := hnow'.symm ▸ hw
    exact ⟨hw, Option.some.inj ((ShardNet.swept_of_waiting hw').symm.trans hp)⟩

/-- **The lookups of an answer.** An update that leaves the queried peers alone, followed by one or
two sweeps, leaves all lookups as they are if and only if it leaves its own as it is and all of them
wait. -/
theorem fixed_of_sweeps (hfit : RequestsFit) (hqueried : ∀ l, (f l).queried = l.queried)
    (h : (∀ id, (c.updateLookup corr f).sweepLookups.lookups.lookup id = c.lookups.lookup id) ∨
      ∀ id, (c.updateLookup corr f).sweepLookups.sweepLookups.lookups.lookup id
        = c.lookups.lookup id) :
    c.Fixed corr f ∧ c.AllWaiting := by
  have hnow : (c.updateLookup corr f).now = c.now :=
    congrArg ShardNet.now (net_updateLookup c corr f)
  have hone : ∀ id p, c.lookups.lookup id = some p →
      p.lookup.Waiting c.now ∧ (c.findLookup corr = some id → f p.lookup = p.lookup) := by
    intro id p hp
    have hu := lookup_updateLookup c corr f id
    rw [hp, Option.map_some] at hu
    have hsame : p.lookup.queried ⊆ (if c.findLookup corr = some id then
        { p with lookup := f p.lookup } else p).lookup.queried := by
      split_ifs
      · rw [hqueried]
        exact List.Subset.refl _
      · exact List.Subset.refl _
    have hback := waiting_of_sweeps hfit hu hsame (h.imp (fun h ↦ (h id).trans hp)
      fun h ↦ (h id).trans hp)
    obtain ⟨hwait, heq⟩ := hback
    rw [heq, hnow] at hwait
    refine ⟨hwait, ?_⟩
    intro hid
    rw [if_pos hid] at heq
    exact congrArg PendingLookup.lookup heq
  exact ⟨fun id p hid hp ↦ (hone id p hp).2 hid, fun id p hp ↦ (hone id p hp).1⟩

/-! ## What is left alone -/

/-- The step changes neither the table, nor the peer index, nor the store and its cache, nor the
punching attempts, nor any pending lookup, and sends nothing. -/
structure Untouched (c c' : ShardCtx) : Prop where
  table : c'.table = c.table
  peers : c'.peers = c.peers
  records : c'.store.records = c.store.records
  providers : c'.store.providers = c.store.providers
  cache : ∀ k, c'.store.cache.lookup k = c.store.cache.lookup k
  punches : ∀ id, c'.punches.lookup id = c.punches.lookup id
  lookups : ∀ id, c'.lookups.lookup id = c.lookups.lookup id
  sent : c'.sent = c.sent
  calls : c'.calls = c.calls

namespace Untouched

variable {c' c'' : ShardCtx}

theorem refl (c : ShardCtx) : Untouched c c :=
  ⟨rfl, rfl, rfl, rfl, fun _ ↦ rfl, fun _ ↦ rfl, fun _ ↦ rfl, rfl, rfl⟩

theorem trans (h : Untouched c c') (h' : Untouched c' c'') : Untouched c c'' where
  table := h'.table.trans h.table
  peers := h'.peers.trans h.peers
  records := h'.records.trans h.records
  providers := h'.providers.trans h.providers
  cache k := (h'.cache k).trans (h.cache k)
  punches id := (h'.punches id).trans (h.punches id)
  lookups id := (h'.lookups id).trans (h.lookups id)
  sent := h'.sent.trans h.sent
  calls := h'.calls.trans h.calls

theorem updateLookup (h : c.Fixed corr f) : Untouched c (c.updateLookup corr f) := by
  have hnet := net_updateLookup c corr f
  refine ⟨?_, ?_, ?_, ?_, ?_, ?_, lookup_updateLookup_of_fixed h, ?_, ?_⟩
  · rw [hnet]
  · rw [hnet]
  · rw [store_updateLookup]
  · rw [store_updateLookup]
  · intro k
    rw [store_updateLookup]
  · intro id
    rw [hnet]
  · rw [hnet]
  · rw [hnet]

theorem sweepLookups (h : c.AllWaiting) : Untouched c c.sweepLookups := by
  have hknown := (posts_sweepLookups c).sends.knowledge
  obtain ⟨hlookups, hsent, hcalls⟩ := sweepLookups_of_waiting h
  have hpunches : c.sweepLookups.punches = c.punches :=
    congrArg ShardNet.Knowledge.punches hknown
  refine ⟨congrArg ShardNet.Knowledge.table hknown, congrArg ShardNet.Knowledge.peers hknown,
    ?_, ?_, ?_, ?_, hlookups, hsent, hcalls⟩
  · rw [store_sweepLookups]
  · rw [store_sweepLookups]
  · intro k
    rw [store_sweepLookups]
  · intro id
    rw [hpunches]

end Untouched

/-! ## The result of an answer -/

/-- Nothing in the result of the answer is new to the shard. -/
def Ignores (c : ShardCtx) (src : SocketAddr) (h : Header) (closer : List PeerInfo) :
    Option Proto.FindValueResult → Prop
  | some (.record bytes) => ∀ rec, authenticRecord c.env.unix bytes = some rec →
    c.findLookup h.correlation = none ∧
      (h.isProbe = false → rec.val.kind = kindImmutable →
        c.store.cache.lookup rec.val.key = some (Store.cachedRecord c.env.unix rec.val))
  | some (.providers ps) => ∀ id p, c.findLookup h.correlation = some id →
    c.lookups.lookup id = some p →
      (∀ q ∈ ps.filterMap providerOf, q.1 ∈ p.lookup.providers.map Prod.fst) ∧
        p.lookup.Heard .zero closer
  | none => ∀ id p, c.findLookup h.correlation = some id → c.lookups.lookup id = some p →
    p.lookup.Heard (c.senderAt src) closer

theorem inFlight_of_findLookup {id : UInt32} {p : PendingLookup} (hid : c.findLookup corr = some id)
    (hp : c.lookups.lookup id = some p) : p.lookup.inFlight ≠ [] := by
  obtain ⟨e, he, rfl⟩ := Option.map_eq_some_iff.mp hid
  have hlookup : c.lookups.lookup e.1 = some e.2 :=
    AList.mem_lookup_iff.mpr (List.mem_of_find?_eq_some he)
  obtain rfl := Option.some.inj (hlookup.symm.trans hp)
  intro hnil
  have hany := List.find?_some he
  rw [hnil] at hany
  cases hany

theorem fixed_onCloser_iff {sender : NodeId} {closer : List PeerInfo} :
    (c.Fixed corr fun l ↦ l.onCloser sender closer 50000) ↔
      ∀ id p, c.findLookup corr = some id → c.lookups.lookup id = some p →
        p.lookup.Heard sender closer :=
  forall₄_congr fun _ _ hid hp ↦
    Lookup.onCloser_eq_self_iff (by decide) (inFlight_of_findLookup hid hp)

theorem fixed_onProviders_iff {ps : List (NodeId × Bytes)} {closer : List PeerInfo} :
    (c.Fixed corr fun l ↦ l.onProviders .zero ps closer) ↔
      ∀ id p, c.findLookup corr = some id → c.lookups.lookup id = some p →
        (∀ q ∈ ps, q.1 ∈ p.lookup.providers.map Prod.fst) ∧ p.lookup.Heard .zero closer :=
  forall₄_congr fun _ _ hid hp ↦
    Lookup.onProviders_eq_self_iff (inFlight_of_findLookup hid hp)

omit [Crates] in
theorem queried_onCloser (l : Lookup) (sender : NodeId) (peers : List PeerInfo) (rttUs : UInt32) :
    (l.onCloser sender peers rttUs).queried = l.queried := by
  simp only [Lookup.onCloser]
  split_ifs
  · rfl
  · rfl

omit [Crates] in
theorem queried_onProviders (l : Lookup) (sender : NodeId) (ps : List (NodeId × Bytes))
    (closer : List PeerInfo) : (l.onProviders sender ps closer).queried = l.queried := by
  rw [Lookup.onProviders, queried_onCloser]
  rfl

/-- An authentic record ends the lookup it is for, so it is ignored only if there is none. -/
theorem findLookup_eq_none {rec : StoredRecord} (hwait : c.AllWaiting)
    (hfix : c.Fixed corr fun l ↦ l.onRecord .zero rec) : c.findLookup corr = none := by
  rcases hid : c.findLookup corr with _ | id
  · rfl
  · obtain ⟨p, hp⟩ := exists_of_findLookup hid
    have hdone : true = p.lookup.done := congrArg Lookup.done (hfix id p hid hp)
    exact absurd (Or.inl (Or.inl hdone.symm)) (hwait id p hp).1

theorem untouched_cacheAnswer_iff {now : UInt64} {h : Header} {rec : StoredRecord} :
    Untouched c (c.cacheAnswer now h rec) ↔ (h.isProbe = false → rec.kind = kindImmutable →
      c.store.cache.lookup rec.key = some (Store.cachedRecord now rec)) := by
  by_cases hprobe : h.isProbe = true
  · rw [cacheAnswer, if_pos hprobe]
    refine iff_of_true (Untouched.refl c) ?_
    intro hprobe'
    rw [hprobe] at hprobe'
    cases hprobe'
  · rw [cacheAnswer, if_neg hprobe, Store.cacheHit]
    by_cases hkind : rec.kind = kindImmutable
    · rw [if_neg (not_not.mpr hkind)]
      constructor
      · intro hun _ _
        rw [← hun.cache rec.key]
        exact AList.lookup_insert _
      · intro hcache
        have hlookup := hcache (Bool.not_eq_true _ ▸ hprobe) hkind
        refine ⟨rfl, rfl, rfl, rfl, ?_, fun _ ↦ rfl, fun _ ↦ rfl, rfl, rfl⟩
        intro k
        show (c.store.cache.insert rec.key _).lookup k = _
        rw [HashMap.lookup_insert_of]
        split_ifs with hk
        · rw [hk, hlookup]
        · rfl
    · rw [if_pos hkind]
      exact iff_of_true (Untouched.refl c) fun _ hkind' ↦ absurd hkind' hkind

theorem Untouched.update_sweep {f : Lookup → Lookup} (hfix : c.Fixed corr f)
    (hwait : c.AllWaiting) : Untouched c (c.updateLookup corr f).sweepLookups :=
  (Untouched.updateLookup hfix).trans (Untouched.sweepLookups (allWaiting_updateLookup hfix hwait))

/-- An authentic record is ignored if and only if the cache has it or does not take it, it is for no
lookup, and all lookups wait. -/
theorem untouched_onRecord_iff (hfit : RequestsFit) {now : UInt64} {h : Header}
    {rec : StoredRecord} :
    Untouched c ((c.cacheAnswer now h rec).updateLookup h.correlation
        fun l ↦ l.onRecord .zero rec).sweepLookups ↔
      (c.findLookup h.correlation = none ∧ (h.isProbe = false → rec.kind = kindImmutable →
        c.store.cache.lookup rec.key = some (Store.cachedRecord now rec))) ∧ c.AllWaiting := by
  rw [← untouched_cacheAnswer_iff]
  constructor
  · intro hun
    have hstore : ∀ c' : ShardCtx, (c'.updateLookup h.correlation
        fun l ↦ l.onRecord .zero rec).sweepLookups.store = c'.store := by
      intro c'
      rw [store_sweepLookups, store_updateLookup]
    -- filling the cache leaves the lookups alone, so the state before and after it waits alike
    obtain ⟨hfix, hwait⟩ := fixed_of_sweeps (c := c.cacheAnswer now h rec)
      (f := fun l ↦ l.onRecord .zero rec) hfit (fun l ↦ rfl) (Or.inl hun.lookups)
    refine ⟨⟨findLookup_eq_none hwait hfix, ?_⟩, hwait⟩
    refine ⟨rfl, rfl, ?_, ?_, ?_, fun _ ↦ rfl, fun _ ↦ rfl, rfl, rfl⟩
    · rw [← hun.records, hstore]
    · rw [← hun.providers, hstore]
    · intro k
      rw [← hun.cache k, hstore]
  · rintro ⟨⟨hnone, hcache⟩, hwait⟩
    have hfix : (c.cacheAnswer now h rec).Fixed h.correlation fun l ↦ l.onRecord .zero rec := by
      intro id p hid
      cases hnone.symm.trans hid
    have hwait' : (c.cacheAnswer now h rec).AllWaiting := hwait
    exact hcache.trans (Untouched.update_sweep hfix hwait')

/-- An answer whose peers are no news is ignored if and only if its result is no news and all
lookups wait. -/
theorem untouched_takeResult_iff (hfit : RequestsFit) {src : SocketAddr} {h : Header}
    {closer : List PeerInfo} {r : Option Proto.FindValueResult} :
    Untouched c (c.takeResult c.env.unix src h closer r).sweepLookups ↔
      c.Ignores src h closer r ∧ c.AllWaiting := by
  rcases r with _ | bytes | ps
  · -- closer peers only: the lookups are swept twice
    rw [Ignores, ← fixed_onCloser_iff]
    constructor
    · intro hun
      exact fixed_of_sweeps hfit (fun l ↦ queried_onCloser l _ _ _) (Or.inr hun.lookups)
    · rintro ⟨hfix, hwait⟩
      refine (Untouched.update_sweep hfix hwait).trans (Untouched.sweepLookups ?_)
      exact allWaiting_sweepLookups (allWaiting_updateLookup hfix hwait)
  · rcases hrec : authenticRecord c.env.unix bytes with _ | rec
    · rw [takeResult, hrec]
      constructor
      · intro hun
        refine ⟨fun rec hrec' ↦ ?_, fun id p hp ↦ ?_⟩
        · rw [hrec] at hrec'
          cases hrec'
        · exact (waiting_of_sweeps hfit hp (List.Subset.refl _)
            (Or.inl ((hun.lookups id).trans hp))).1
      · rintro ⟨-, hwait⟩
        exact Untouched.sweepLookups hwait
    · rw [takeResult, hrec]
      simp only [acceptRecord_eq]
      rw [untouched_onRecord_iff hfit]
      refine and_congr_left fun _ ↦ ⟨?_, fun hig ↦ hig rec hrec⟩
      intro hknown rec' hrec'
      obtain rfl : rec = rec' := Option.some.inj (hrec.symm.trans hrec')
      exact hknown
  · rw [Ignores, ← fixed_onProviders_iff]
    constructor
    · intro hun
      exact fixed_of_sweeps hfit (fun l ↦ queried_onProviders l _ _ _) (Or.inl hun.lookups)
    · rintro ⟨hfix, hwait⟩
      exact Untouched.update_sweep hfix hwait

/-! ## The two handlers -/

/-- A FIND_VALUE answer that is no news to the shard: the table is settled on its peers, none of
them is to be punched, its result is ignored, and all lookups wait. If an eviction has brought a
peer into its bucket twice, the last entries do not tell, and the table has to come out the same. -/
structure Inert (c : ShardCtx) (src : SocketAddr) (h : Header) (resp : Proto.FindValueResp) :
    Prop where
  settled : c.table.Apart → c.table.Settled c.now (peersFromProto resp.closerPeers)
  repeated : ¬c.table.Apart →
    c.table.enter c.now (peersFromProto resp.closerPeers) = c.table
  punches : ∀ p ∈ peersFromProto resp.closerPeers, ¬c.StartsPunch p
  result : c.Ignores src h (peersFromProto resp.closerPeers) resp.result
  waiting : c.AllWaiting

theorem Inert.enter {src : SocketAddr} {h : Header} {resp : Proto.FindValueResp}
    (hin : c.Inert src h resp) :
    c.table.enter c.now (peersFromProto resp.closerPeers) = c.table := by
  by_cases hapart : c.table.Apart
  · exact (RoutingTable.enter_eq_self_iff hapart _ _).mpr (hin.settled hapart)
  · exact hin.repeated hapart

theorem knowledge_takeResult (c : ShardCtx) (n : ShardNet) (now : UInt64) (src : SocketAddr)
    (h : Header) (closer : List PeerInfo) (r : Option Proto.FindValueResult) :
    ((c.withNet n).takeResult now src h closer r).sweepLookups.knowledge = n.knowledge :=
  ((posts_takeResult (c.withNet n) now src h closer r).sends.trans
    (posts_sweepLookups _).sends).knowledge

theorem untouched_onFindValueResp_iff (hfit : RequestsFit) {src : SocketAddr} {h : Header}
    {pkt : Bytes} {resp : Proto.FindValueResp}
    (hdec : decodeBody Crates.findValueResp pkt = some resp) :
    Untouched c (c.onFindValueResp src h pkt) ↔ c.Inert src h resp := by
  rw [onFindValueResp_of_decode hdec]
  have hknown := fun n ↦ knowledge_takeResult c n c.env.unix src h
    (peersFromProto resp.closerPeers) resp.result
  constructor
  · intro hun
    have hquiet : ∀ p ∈ peersFromProto resp.closerPeers, ¬c.StartsPunch p := by
      intro p hp hstart
      obtain ⟨id, hnone, hsome⟩ := ShardNet.exists_punch_foldl_meet src
        (peersFromProto resp.closerPeers) c.toShardNet ⟨p, hp, hstart⟩
      have hpunches : _ = ((peersFromProto resp.closerPeers).foldl (ShardNet.meet src)
        c.toShardNet).punches := congrArg ShardNet.Knowledge.punches (hknown _)
      rw [← hpunches] at hsome
      have hsame := hun.punches id
      rw [hnone] at hsame
      cases (congrArg Option.isSome hsame).symm.trans hsome
    rw [ShardNet.foldl_meet_of_not src _ _ hquiet] at hun
    have hentered : c.table.enter c.now (peersFromProto resp.closerPeers) = c.table :=
      (congrArg ShardNet.Knowledge.table (hknown _)).symm.trans hun.table
    rw [hentered] at hun
    obtain ⟨hig, hwait⟩ := (untouched_takeResult_iff hfit).mp hun
    exact ⟨fun hapart ↦ (RoutingTable.enter_eq_self_iff hapart _ _).mp hentered,
      fun _ ↦ hentered, hquiet, hig, hwait⟩
  · intro hin
    rw [ShardNet.foldl_meet_of_not src _ _ hin.punches, hin.enter]
    exact (untouched_takeResult_iff hfit).mpr ⟨hin.result, hin.waiting⟩

theorem not_untouched_onFindNodeResp {src : SocketAddr} {h : Header} {pkt : Bytes}
    {resp : Proto.FindNodeResp} (hdec : decodeBody Crates.findNodeResp pkt = some resp) :
    ¬Untouched c (c.onFindNodeResp src h pkt) := by
  intro hun
  have hpeers := congrArg (fun p : Peerstore ↦ p.pending.length) hun.peers
  have hkept : ∀ (c' : ShardCtx) (peers : List PeerInfo),
      (c'.completeCloser h.correlation src peers).peers = c'.peers := fun c' peers ↦
    congrArg ShardNet.Knowledge.peers
      (posts_completeCloser c' h.correlation src peers).sends.knowledge
  simp only [onFindNodeResp, hdec, hkept] at hpeers
  have hgrown := ShardNet.length_pending_foldl src (peersFromProto resp.peers) c.toShardNet
  have hlearn := ShardNet.length_pending_learnAddr ((peersFromProto resp.peers).foldl
    (fun n p ↦ ((n.insertPeer p).upsertPeer p).startPunch src p) c.toShardNet) src
    ((peersFromProto resp.peers).head?.map PeerInfo.id)
  have hsame : c.peers.pending.length = _ := hpeers.symm.trans hlearn
  omega

end ShardCtx

/-- **When an answer does nothing.** Asked for or not, a FIND_NODE answer leaves the shard as it is
if and only if it does not decode, and a FIND_VALUE answer if and only if it does not decode or is
inert. -/
theorem response_untouched_iff (hfit : RequestsFit) (c : ShardCtx) (src : SocketAddr) (pkt : Bytes)
    (authenticated : Bool) (h : Header) (hdec : Header.decode pkt = some h) :
    (h.ty = .findNodeResp →
      (c.Untouched (c.handleApp src pkt authenticated).1 ↔
        decodeBody Crates.findNodeResp pkt = none)) ∧
    (h.ty = .findValueResp →
      (c.Untouched (c.handleApp src pkt authenticated).1 ↔
        ∀ resp, decodeBody Crates.findValueResp pkt = some resp → c.Inert src h resp)) := by
  refine ⟨?_, ?_⟩
  · intro hty
    have happ : c.handleApp src pkt authenticated = (c.onFindNodeResp src h pkt, none) := by
      simp only [ShardCtx.handleApp, hdec, hty]
    rw [happ]
    rcases hresp : decodeBody Crates.findNodeResp pkt with _ | resp
    · refine iff_of_true ?_ rfl
      simp only [ShardCtx.onFindNodeResp, hresp]
      exact ShardCtx.Untouched.refl c
    · refine iff_of_false (ShardCtx.not_untouched_onFindNodeResp hresp) ?_
      exact fun hnone ↦ by cases hnone
  · intro hty
    have happ : c.handleApp src pkt authenticated = (c.onFindValueResp src h pkt, none) := by
      simp only [ShardCtx.handleApp, hdec, hty]
    rw [happ]
    rcases hresp : decodeBody Crates.findValueResp pkt with _ | resp
    · refine iff_of_true ?_ fun resp hnone ↦ by cases hnone
      simp only [ShardCtx.onFindValueResp, hresp]
      exact ShardCtx.Untouched.refl c
    · rw [ShardCtx.untouched_onFindValueResp_iff hfit hresp]
      constructor
      · rintro hin resp' ⟨⟩
        exact hin
      · intro hall
        exact hall resp rfl

/-- The answer was asked for: a pending lookup waits for an answer under its correlation id, and
the request under that id went to the address it comes from. -/
def ShardCtx.Solicited (c : ShardCtx) (src : SocketAddr) (corr : UInt32) : Prop :=
  (∃ id p, c.lookups.lookup id = some p ∧ ∃ f ∈ p.lookup.inFlight, f.correlation = corr) ∧
    ∃ call ∈ c.calls, call.dest = src ∧ ∃ h, Header.decode call.app = some h ∧
      h.correlation = corr ∧ (h.ty = .findNodeReq ∨ h.ty = .findValueReq)

end

/-! ## A stranger's answer -/

section

open Sample Protobuf

attribute [local instance] wireCrates

private theorem sampleRequests : RequestsFit := by
  intro l corr
  have htwo : ∀ n < 128, (Protobuf.encode (uintField 2 n)).length ≤ 2 := by
    intro n hn
    rw [length_encode_uintField (by decide)]
    split_ifs
    · exact Nat.zero_le _
    · rw [length_varint_of_lt hn]
  have hfits : ∀ n < 128, headerLen + (Protobuf.encode (bytesField 1 l.target.val.val
      ++ uintField 2 n)).length ≤ pmtuFloor := by
    intro n hn
    have hsmall := htwo n hn
    rw [encode_append, List.length_append, length_encode_bytes32 (by decide)]
    show 12 + _ ≤ 1200
    omega
  rw [ShardNet.lookupRequest]
  split
  · have hnode : headerLen + (Crates.findNodeReq.encode
        ⟨l.target.val.val, UInt32.ofNat kDefault⟩).length ≤ pmtuFloor := hfits 20 (by decide)
    rw [message_eq, if_pos hnode]
    rfl
  · have hvalue : headerLen + (Crates.findValueReq.encode ⟨l.target.val.val, 16⟩).length
        ≤ pmtuFloor := hfits 16 (by decide)
    rw [message_eq, if_pos hvalue]
    rfl

private def stranger : SocketAddr := .ofV4 10 0 0 2 9000

private def friend : PeerInfo := .new ⟨Bytes32.fill 9⟩ (.ofV4 10 0 0 9 9000)

/-- A shard that has asked its only peer for a key. -/
private def askingRun : ShardRun where
  start := shardStart ⟨true, false, false⟩
  events := [⟨noon, .command (.injectPeer friend)⟩, ⟨noon, .command (.get emptyKey)⟩]

private def emptyHeader : Header := Header.response .findValueResp .coordination 77

/-- An answer with nothing in it, under a correlation id that is not in use. -/
private def emptyAnswer : Bytes := emptyHeader.bytes ++ Proto.findValueRespWire.encode ⟨none, []⟩

/-- An empty answer to nothing does nothing. -/
theorem response_untouched_empty :
    askingRun.final.ctx.Untouched
      (askingRun.final.ctx.handleApp stranger emptyAnswer false).1 := by
  refine ((response_untouched_iff sampleRequests askingRun.final.ctx stranger emptyAnswer false
    emptyHeader (by decide +kernel)).2 rfl).mpr ?_
  intro resp hresp
  have hempty : decodeBody Crates.findValueResp emptyAnswer = some ⟨none, []⟩ := by decide +kernel
  obtain rfl : (⟨none, []⟩ : Proto.FindValueResp) = resp :=
    Option.some.inj (hempty.symm.trans hresp)
  refine ⟨fun hapart ↦ (RoutingTable.enter_eq_self_iff hapart _ []).mp rfl, fun _ ↦ rfl,
    fun p hp ↦ (List.not_mem_nil hp).elim, ?_, by decide +kernel⟩
  intro id p hid
  have hnone : askingRun.final.ctx.findLookup 77 = none := by decide +kernel
  cases hnone.symm.trans hid

private def forgedHeader : Header := Header.response .findNodeResp .coordination 77

/-- A peer that does not exist, in an answer to nothing. -/
private def forgedAnswer : Bytes :=
  forgedHeader.bytes ++ Proto.findNodeRespWire.encode
    ⟨[⟨List.replicate 32 7, [⟨multiaddr (.ofV4 10 0 0 7 9000)⟩], 0, []⟩]⟩

/-- The peer is entered into the table. -/
theorem response_untouched_fails :
    ¬∀ (_ : Crates) (run : ShardRun) (src : SocketAddr) (pkt : Bytes) (authenticated : Bool)
      (h : Header), Header.decode pkt = some h → (h.ty = .findNodeResp ∨ h.ty = .findValueResp) →
      ¬run.final.ctx.Solicited src h.correlation →
      run.final.ctx.Untouched (run.final.ctx.handleApp src pkt authenticated).1 := by
  intro hall
  have hun := hall wireCrates ⟨shardStart ⟨true, false, false⟩, []⟩ stranger forgedAnswer false
    forgedHeader (by decide +kernel) (Or.inl rfl) (by
      rintro ⟨⟨id, p, hp, -⟩, -⟩
      cases hp)
  have htable := congrArg (fun t ↦ (t.get ⟨Bytes32.fill 7⟩).isSome) hun.table
  revert htable
  decide +kernel

end

end Molia
