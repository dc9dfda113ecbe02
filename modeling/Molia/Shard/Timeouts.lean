import Molia.General.Runs
import Molia.Shard.Pending

/-!
# Requests that have been answered

A request stays in flight until an answer takes it out, and a request that is in flight for too long
counts against its peer. An answer finds its lookup by the correlation id; but it takes out the
requests to one peer, and that peer is guessed: for an answer with closer peers it is the first
entry of the table with the address of the sender, and for an answer with providers it is the zero
id, which is nobody. Only a record, which ends the lookup, always settles the request.

`answer_settles_iff` says when an answer settles a request for good, over every later run. The only
assumption is on the clock: the request was sent before the answer is handled.
-/

namespace Molia

section

variable [Crates]

open Crates

attribute [local irreducible] message

/-! ## One lookup -/

namespace Lookup

variable {l l' : Lookup} {now : ℕ} {f : InFlight}

omit [Crates] in
/-- A lookup that still waits for something is not ended by closer peers. -/
theorem over_onCloser_iff {sender : NodeId} {peers : List PeerInfo} {rttUs : UInt32}
    (hf : f ∈ (l.onCloser sender peers rttUs).inFlight) :
    (l.onCloser sender peers rttUs).Over now ↔ l.Over now := by
  have hgoes : ¬l.Converged sender peers := by
    rintro ⟨-, hnil, -⟩
    rw [onCloser_eq] at hf
    change f ∈ (l.answered sender).inFlight at hf
    rw [hnil] at hf
    cases hf
  rw [onCloser_eq, decide_eq_false hgoes, Bool.or_false]
  exact Iff.rfl

omit [Crates] in
theorem Grows.over_iff (h : Grows now l l') : l'.Over now ↔ l.Over now := by
  have hstarted := congrArg Lookup.started h.rest
  have hbudget := congrArg Lookup.budget h.rest
  change l'.started = l.started at hstarted
  change l'.budget = l.budget at hbudget
  rw [Over, Over, h.done_eq, hstarted, hbudget]

omit [Crates] in
/-- A request that is not in flight comes into flight only at the time it is sent. -/
theorem stable_not_mem (h : f.sentAt ≠ now) : Stable now fun l ↦ f ∉ l.inFlight where
  new _ _ _ _ := List.not_mem_nil
  grows _ _ hgrows hl hf := (hgrows.fresh f hf).elim hl h
  onTimeouts l hl hf := by
    rw [inFlight_onTimeouts] at hf
    exact hl (List.mem_of_mem_filter hf)
  onCloser l _ _ _ hl hf := by
    rw [inFlight_onCloser] at hf
    exact hl (List.mem_of_mem_filter hf)
  onProviders l _ _ _ hl hf := by
    rw [onProviders, inFlight_onCloser] at hf
    exact hl (List.mem_of_mem_filter (List.mem_of_mem_filter hf))
  onRecord _ _ _ hl hf := hl (List.mem_of_mem_filter hf)

omit [Crates] in
theorem live_onCloser_iff {sender : NodeId} {peers : List PeerInfo} {rttUs : UInt32} :
    (f ∈ (l.onCloser sender peers rttUs).inFlight ∧ ¬(l.onCloser sender peers rttUs).Over now) ↔
      (f ∈ l.inFlight ∧ ¬l.Over now) ∧ f.id ≠ sender := by
  have hmem : f ∈ (l.onCloser sender peers rttUs).inFlight ↔ f ∈ l.inFlight ∧ f.id ≠ sender := by
    rw [inFlight_onCloser, List.mem_filter, decide_eq_true_iff]
  constructor
  · rintro ⟨hf, hover⟩
    rw [over_onCloser_iff hf] at hover
    exact ⟨⟨(hmem.mp hf).1, hover⟩, (hmem.mp hf).2⟩
  · rintro ⟨⟨hf, hover⟩, hne⟩
    have hf' := hmem.mpr ⟨hf, hne⟩
    exact ⟨hf', fun hover' ↦ hover ((over_onCloser_iff hf').mp hover')⟩

omit [Crates] in
theorem live_onProviders_iff {sender : NodeId} {providers : List (NodeId × Bytes)}
    {closer : List PeerInfo} :
    (f ∈ (l.onProviders sender providers closer).inFlight ∧
      ¬(l.onProviders sender providers closer).Over now) ↔
      (f ∈ l.inFlight ∧ ¬l.Over now) ∧ f.id ≠ sender := by
  have hfirst : f ∈ (l.answered sender).inFlight ↔ f ∈ l.inFlight ∧ f.id ≠ sender := by
    show f ∈ l.inFlight.filter _ ↔ _
    rw [List.mem_filter, decide_eq_true_iff]
  rw [onProviders, live_onCloser_iff]
  show (f ∈ (l.answered sender).inFlight ∧ ¬l.Over now) ∧ f.id ≠ sender ↔ _
  rw [hfirst]
  exact ⟨fun h ↦ ⟨⟨h.1.1.1, h.1.2⟩, h.2⟩, fun h ↦ ⟨⟨⟨h.1.1, h.2⟩, h.1.2⟩, h.2⟩⟩

omit [Crates] in
theorem live_onRecord_iff {sender : NodeId} {rec : StoredRecord} :
    (f ∈ (l.onRecord sender rec).inFlight ∧ ¬(l.onRecord sender rec).Over now) ↔
      (f ∈ l.inFlight ∧ ¬l.Over now) ∧ False :=
  iff_of_false (fun h ↦ h.2 (Or.inl rfl)) fun h ↦ h.2

end Lookup

/-! ## All lookups -/

namespace ShardCtx

variable {c : ShardCtx} {f : InFlight} {corr : UInt32}

/-- Some pending lookup waits for the request. -/
def Outstanding (f : InFlight) (c : ShardCtx) : Prop :=
  ∃ id p, c.lookups.lookup id = some p ∧ f ∈ p.lookup.inFlight

theorem outstanding_iff :
    Outstanding f c ↔ ∃ e ∈ c.lookups.entries, f ∈ e.2.lookup.inFlight := by
  constructor
  · rintro ⟨id, p, hp, hf⟩
    exact ⟨⟨id, p⟩, AList.mem_lookup_iff.mp hp, hf⟩
  · rintro ⟨e, he, hf⟩
    exact ⟨e.1, e.2, AList.mem_lookup_iff.mpr he, hf⟩

instance (f : InFlight) (c : ShardCtx) : Decidable (Outstanding f c) :=
  decidable_of_iff _ outstanding_iff.symm

/-- Some pending lookup waits for the request and is not over. -/
def Live (f : InFlight) (c : ShardCtx) : Prop :=
  ∃ id p, c.lookups.lookup id = some p ∧ f ∈ p.lookup.inFlight ∧ ¬p.lookup.Over c.now

theorem live_sweepLookups_iff (h : f.sentAt ≠ c.now) : Live f c.sweepLookups ↔ Live f c := by
  have hnow : c.sweepLookups.now = c.now := congrArg Env.instant (posts_sweepLookups c).sends.env
  constructor
  · rintro ⟨id, p', hp', hf, hover⟩
    obtain ⟨n, hsends, hlookup⟩ := lookup_sweepLookups c id
    rw [hlookup] at hp'
    obtain ⟨p, hp, hswept⟩ := Option.bind_eq_some_iff.mp hp'
    have hgrows := ShardNet.grows_of_swept hswept
    rw [show n.now = c.now from congrArg Env.instant hsends.env] at hgrows
    rw [hnow, hgrows.over_iff] at hover
    exact ⟨id, p, hp, (hgrows.fresh f hf).resolve_right h, hover⟩
  · rintro ⟨id, p, hp, hf, hover⟩
    obtain ⟨n, hsends, hlookup⟩ := lookup_sweepLookups c id
    have hnow' : n.now = c.now := congrArg Env.instant hsends.env
    have hends : ¬p.lookup.Ends n.now := by
      rw [Lookup.ends_iff_over hf, hnow']
      exact hover
    have hgrows := ShardNet.grows_dispatch hends
    rw [hp, Option.bind_some, ShardNet.swept_of_not_ends hends] at hlookup
    rw [hnow'] at hgrows
    refine ⟨id, _, hlookup, hgrows.inFlight hf, ?_⟩
    rw [hnow]
    exact fun hover' ↦ hover (hgrows.over_iff.mp hover')

theorem outstanding_sweepLookups_iff (h : f.sentAt ≠ c.now) :
    Outstanding f c.sweepLookups ↔ Live f c := by
  constructor
  · rintro ⟨id, p', hp', hf⟩
    obtain ⟨n, hsends, hlookup⟩ := lookup_sweepLookups c id
    have hnow : n.now = c.now := congrArg Env.instant hsends.env
    rw [hlookup] at hp'
    obtain ⟨p, hp, hswept⟩ := Option.bind_eq_some_iff.mp hp'
    have hgrows := ShardNet.grows_of_swept hswept
    rw [hnow] at hgrows
    refine ⟨id, p, hp, (hgrows.fresh f hf).resolve_right h, ?_⟩
    intro hover
    rw [← hnow] at hover
    rw [ShardNet.swept_of_ends (Or.inl hover)] at hswept
    cases hswept
  · intro hlive
    obtain ⟨id, p, hp, hf, -⟩ := (live_sweepLookups_iff h).mpr hlive
    exact ⟨id, p, hp, hf⟩

/-- An update of the lookup of an answer that keeps the request in flight under a condition. -/
theorem live_updateLookup_iff {g : Lookup → Lookup} {K : Prop}
    (hg : ∀ l, (f ∈ (g l).inFlight ∧ ¬(g l).Over c.now) ↔
      (f ∈ l.inFlight ∧ ¬l.Over c.now) ∧ K) :
    Live f (c.updateLookup corr g) ↔ ∃ id p, c.lookups.lookup id = some p ∧
      (f ∈ p.lookup.inFlight ∧ ¬p.lookup.Over c.now) ∧ (c.findLookup corr = some id → K) := by
  have hnow : (c.updateLookup corr g).now = c.now :=
    congrArg ShardNet.now (net_updateLookup c corr g)
  constructor
  · rintro ⟨id, p', hp', hlive⟩
    rw [hnow] at hlive
    rw [lookup_updateLookup] at hp'
    obtain ⟨p, hp, rfl⟩ := Option.map_eq_some_iff.mp hp'
    by_cases hid : c.findLookup corr = some id
    · rw [if_pos hid, hg] at hlive
      exact ⟨id, p, hp, hlive.1, fun _ ↦ hlive.2⟩
    · rw [if_neg hid] at hlive
      exact ⟨id, p, hp, hlive, fun hid' ↦ absurd hid' hid⟩
  · rintro ⟨id, p, hp, hlive, hK⟩
    have hlookup := lookup_updateLookup c corr g id
    rw [hp, Option.map_some] at hlookup
    refine ⟨id, _, hlookup, ?_⟩
    rw [hnow]
    by_cases hid : c.findLookup corr = some id
    · rw [if_pos hid]
      exact (hg _).mpr ⟨hlive, hK hid⟩
    · rw [if_neg hid]
      exact hlive

/-! ## Answers -/

end ShardCtx

/-- The id of the first entry with the given primary address, or the zero id. -/
def RoutingTable.idAt (t : RoutingTable) (src : SocketAddr) : NodeId :=
  ((t.allPeers.find? fun e ↦ e.info.primaryAddr = some src).map PeerEntry.id).getD .zero

namespace ShardCtx

variable {c : ShardCtx} {f : InFlight} {src : SocketAddr} {h : Header} {pkt : Bytes}

/-- Every lookup that waits for the request is over, or is the lookup of the answer and the answer
takes the request out. -/
def Settles (c : ShardCtx) (f : InFlight) (corr : UInt32) (T : Prop) : Prop :=
  ∀ id p, c.lookups.lookup id = some p → f ∈ p.lookup.inFlight →
    p.lookup.Over c.now ∨ (c.findLookup corr = some id ∧ T)

theorem settles_iff {corr : UInt32} {T : Prop} : c.Settles f corr T ↔
    ∀ e ∈ c.lookups.entries, f ∈ e.2.lookup.inFlight →
      e.2.lookup.Over c.now ∨ (c.findLookup corr = some e.1 ∧ T) := by
  constructor
  · intro h e he
    exact h e.1 e.2 (AList.mem_lookup_iff.mpr he)
  · intro h id p hp
    exact h ⟨id, p⟩ (AList.mem_lookup_iff.mp hp)

instance (c : ShardCtx) (f : InFlight) (corr : UInt32) (T : Prop) [Decidable T] :
    Decidable (c.Settles f corr T) :=
  decidable_of_iff _ settles_iff.symm

theorem not_settles_iff {corr : UInt32} {T : Prop} : ¬c.Settles f corr T ↔
    ∃ id p, c.lookups.lookup id = some p ∧ (f ∈ p.lookup.inFlight ∧ ¬p.lookup.Over c.now) ∧
      (c.findLookup corr = some id → ¬T) := by
  simp only [Settles, not_forall, not_or, not_and, exists_prop, and_assoc]

/-- The request is left in flight by an update and a sweep if and only if it is not settled. -/
theorem outstanding_update_iff {n : ShardNet} (hn : n.now = c.now) (hclock : f.sentAt ≠ c.now)
    {corr : UInt32} {g : Lookup → Lookup} {T : Prop}
    (hg : ∀ l, (f ∈ (g l).inFlight ∧ ¬(g l).Over c.now) ↔
      (f ∈ l.inFlight ∧ ¬l.Over c.now) ∧ ¬T) :
    (Outstanding f ((c.withNet n).updateLookup corr g).sweepLookups ↔ ¬c.Settles f corr T) ∧
      (Outstanding f ((c.withNet n).updateLookup corr g).sweepLookups.sweepLookups ↔
        ¬c.Settles f corr T) := by
  have hclock' : f.sentAt ≠ ((c.withNet n).updateLookup corr g).now := by
    rw [net_updateLookup]
    show f.sentAt ≠ n.now
    rw [hn]
    exact hclock
  have hnow : ((c.withNet n).updateLookup corr g).sweepLookups.now
      = ((c.withNet n).updateLookup corr g).now :=
    congrArg Env.instant (posts_sweepLookups _).sends.env
  have hlive : Live f ((c.withNet n).updateLookup corr g) ↔ ¬c.Settles f corr T := by
    rw [live_updateLookup_iff (K := ¬T), not_settles_iff]
    · show (∃ id p, c.lookups.lookup id = some p ∧
        (f ∈ p.lookup.inFlight ∧ ¬p.lookup.Over n.now) ∧ _) ↔ _
      rw [hn]
      exact Iff.rfl
    · show ∀ l : Lookup, (f ∈ (g l).inFlight ∧ ¬(g l).Over n.now) ↔
        (f ∈ l.inFlight ∧ ¬l.Over n.now) ∧ ¬T
      rw [hn]
      exact hg
  refine ⟨(outstanding_sweepLookups_iff hclock').trans hlive, ?_⟩
  rw [outstanding_sweepLookups_iff (hnow ▸ hclock'), live_sweepLookups_iff hclock']
  exact hlive

/-- A FIND_NODE answer takes out the requests to the first entry with the address of its sender,
once its peers and its sender are in the table. -/
theorem outstanding_onFindNodeResp_iff (hclock : f.sentAt ≠ c.now) {resp : Proto.FindNodeResp}
    (hdec : decodeBody Crates.findNodeResp pkt = some resp) :
    Outstanding f (c.onFindNodeResp src h pkt) ↔ ¬c.Settles f h.correlation
      (f.id = ((c.table.enter c.now (peersFromProto resp.peers)).learn c.now src
        ((peersFromProto resp.peers).head?.map PeerInfo.id)).idAt src) := by
  simp only [onFindNodeResp, hdec]
  obtain ⟨hnow, htable⟩ :=
    ShardNet.table_foldl_upsert src (peersFromProto resp.peers) c.toShardNet
  generalize (peersFromProto resp.peers).foldl
    (fun n p ↦ ((n.insertPeer p).upsertPeer p).startPunch src p) c.toShardNet = n at hnow htable
  have hsender : (c.withNet (n.learnAddr src ((peersFromProto resp.peers).head?.map
      PeerInfo.id))).senderAt src = ((c.table.enter c.now (peersFromProto resp.peers)).learn c.now
        src ((peersFromProto resp.peers).head?.map PeerInfo.id)).idAt src := by
    rw [← htable, ← hnow, ← ShardNet.table_learnAddr]
    rfl
  have hn : (n.learnAddr src ((peersFromProto resp.peers).head?.map PeerInfo.id)).now = c.now :=
    (congrArg Env.instant (ShardNet.env_learnAddr n src _)).trans hnow
  rw [completeCloser, hsender]
  exact (outstanding_update_iff hn hclock fun l ↦ Lookup.live_onCloser_iff).1

/-- What a FIND_VALUE answer takes out: with closer peers, the requests to the first entry with the
address of its sender; with providers, those to the zero id; with an authentic record, all. -/
def TakesOut (c : ShardCtx) (src : SocketAddr) (closer : List PeerInfo) (f : InFlight) :
    Option Proto.FindValueResult → Prop
  | some (.record bytes) => (authenticRecord c.env.unix bytes).isSome
  | some (.providers _) => f.id = .zero
  | none => f.id = (c.table.enter c.now closer).idAt src

instance (c : ShardCtx) (src : SocketAddr) (closer : List PeerInfo) (f : InFlight) :
    ∀ r, Decidable (c.TakesOut src closer f r)
  | some (.record bytes) => inferInstanceAs (Decidable ((authenticRecord c.env.unix bytes).isSome))
  | some (.providers _) => inferInstanceAs (Decidable (f.id = .zero))
  | none => inferInstanceAs (Decidable (f.id = _))

theorem outstanding_onFindValueResp_iff (hclock : f.sentAt ≠ c.now) {resp : Proto.FindValueResp}
    (hdec : decodeBody Crates.findValueResp pkt = some resp) :
    Outstanding f (c.onFindValueResp src h pkt) ↔ ¬c.Settles f h.correlation
      (c.TakesOut src (peersFromProto resp.closerPeers) f resp.result) := by
  rw [onFindValueResp_of_decode hdec]
  obtain ⟨hn, htable⟩ :=
    ShardNet.table_foldl_meet src (peersFromProto resp.closerPeers) c.toShardNet
  generalize (peersFromProto resp.closerPeers).foldl (ShardNet.meet src) c.toShardNet = n
    at hn htable
  rcases resp.result with _ | bytes | ps
  · have hsender : (c.withNet n).senderAt src
        = (c.table.enter c.now (peersFromProto resp.closerPeers)).idAt src := by
      rw [← htable]
      rfl
    rw [takeResult, completeCloser, hsender]
    exact (outstanding_update_iff hn hclock fun l ↦ Lookup.live_onCloser_iff).2
  · rw [takeResult, TakesOut]
    rcases authenticRecord c.env.unix bytes with _ | rec
    · -- the record is dropped, and only the sweep is left
      have hclock' : f.sentAt ≠ (c.withNet n).now := hn.symm ▸ hclock
      rw [outstanding_sweepLookups_iff hclock', not_settles_iff]
      show (∃ id p, c.lookups.lookup id = some p ∧
        f ∈ p.lookup.inFlight ∧ ¬p.lookup.Over n.now) ↔ _
      rw [hn]
      simp only [Option.isSome_none, Bool.false_eq_true, not_false_eq_true, imp_true_iff,
        and_true]
    · simp only [acceptRecord_eq, Option.isSome_some]
      have hall : ∀ l : Lookup, (f ∈ (l.onRecord .zero rec.val).inFlight ∧
          ¬(l.onRecord .zero rec.val).Over c.now) ↔ (f ∈ l.inFlight ∧ ¬l.Over c.now) ∧ ¬True := by
        intro l
        rw [not_true_eq_false]
        exact Lookup.live_onRecord_iff
      exact (outstanding_update_iff (c := c.cacheAnswer c.env.unix h rec.val) hn hclock hall).1
  · exact (outstanding_update_iff hn hclock fun l ↦ Lookup.live_onProviders_iff).1

end ShardCtx

/-! ## Whole runs -/

namespace Machine

/-- After the step the request is never in flight again, as long as the clock reads later than the
request was sent. -/
def SettledBy (m : Machine) (e : Event) (f : InFlight) : Prop :=
  ∀ es : List Event, (∀ e' ∈ es, f.sentAt < e'.env.instant) →
    ¬ShardCtx.Outstanding f (es.foldl step (m.step e)).ctx

theorem settledBy_iff {m : Machine} {e : Event} {f : InFlight} :
    m.SettledBy e f ↔ ¬ShardCtx.Outstanding f (m.step e).ctx := by
  have hpending : ∀ c : ShardCtx, ¬ShardCtx.Outstanding f c ↔
      ShardCtx.AllPending (fun l ↦ f ∉ l.inFlight) c := by
    intro c
    simp only [ShardCtx.Outstanding, ShardCtx.AllPending, not_exists, not_and]
  constructor
  · intro h
    exact h [] fun _ hnil ↦ by cases hnil
  · intro h es hclock
    rw [hpending] at h ⊢
    have halong : Runs.Along step (fun _ e' ↦ f.sentAt < e'.env.instant) (m.step e) es :=
      Runs.along_of_forall hclock
    exact halong.invariant (I := fun m' ↦ ShardCtx.AllPending (fun l ↦ f ∉ l.inFlight) m'.ctx)
      (fun m' e' hm' hlt ↦
        ShardCtx.AllPending.step (Lookup.stable_not_mem (Nat.ne_of_lt hlt)) hm') h

end Machine

/-- **When an answer settles a request.** Once a shard has handled an answer, a request that was
sent before is never in flight again if and only if every lookup that waited for it was over, or was
the lookup of the answer and the answer took the request out: always with an authentic record; with
closer peers or for a FIND_NODE, if the first entry of the table with the address of the sender is
the peer that was asked; with providers, only if that peer is the zero id. -/
theorem answer_settles_iff (m : Machine) (env : Env) (src : SocketAddr) (pkt : Bytes)
    (authenticated : Bool) (ts : List Task) (h : Header) (f : InFlight)
    (hwork : m.work = .app src pkt authenticated :: ts) (hdec : Header.decode pkt = some h)
    (hclock : f.sentAt < env.instant) :
    (∀ resp, h.ty = .findNodeResp → decodeBody Crates.findNodeResp pkt = some resp →
      (m.SettledBy ⟨env, .work⟩ f ↔ (m.ctxAt env).Settles f h.correlation
        (f.id = ((m.ctx.table.enter env.instant (peersFromProto resp.peers)).learn env.instant src
          ((peersFromProto resp.peers).head?.map PeerInfo.id)).idAt src))) ∧
    (∀ resp, h.ty = .findValueResp → decodeBody Crates.findValueResp pkt = some resp →
      (m.SettledBy ⟨env, .work⟩ f ↔ (m.ctxAt env).Settles f h.correlation
        ((m.ctxAt env).TakesOut src (peersFromProto resp.closerPeers) f resp.result))) := by
  have hne : f.sentAt ≠ (m.ctxAt env).now := Nat.ne_of_lt hclock
  have hctx : (m.step ⟨env, .work⟩).ctx = ((m.ctxAt env).handleApp src pkt authenticated).1 := by
    simp only [Machine.step, hwork]
    rfl
  refine ⟨?_, ?_⟩
  · intro resp hty hresp
    have happ : ((m.ctxAt env).handleApp src pkt authenticated).1
        = (m.ctxAt env).onFindNodeResp src h pkt := by
      simp only [ShardCtx.handleApp, hdec, hty]
    rw [Machine.settledBy_iff, hctx, happ, ShardCtx.outstanding_onFindNodeResp_iff hne hresp,
      not_not]
    exact Iff.rfl
  · intro resp hty hresp
    have happ : ((m.ctxAt env).handleApp src pkt authenticated).1
        = (m.ctxAt env).onFindValueResp src h pkt := by
      simp only [ShardCtx.handleApp, hdec, hty]
    rw [Machine.settledBy_iff, hctx, happ, ShardCtx.outstanding_onFindValueResp_iff hne hresp,
      not_not]

end

/-! ## A peer with providers -/

section

open Sample

attribute [local instance] wireCrates

private def askedAddr : SocketAddr := .ofV4 10 0 0 9 9000

private def askedPeer : PeerInfo := .new ⟨Bytes32.fill 9⟩ askedAddr

private def answerHeader : Header := Header.response .findValueResp .coordination 1

/-- An answer to the first request, with the given result. -/
private def answerWith (r : Option Proto.FindValueResult) : Bytes :=
  answerHeader.bytes ++ Proto.findValueRespWire.encode ⟨r, []⟩

/-- A millisecond after noon. -/
private def later : Env := { noon with instant := noon.instant + millis }

/-- A shard that has asked its only peer for a key, and has the answer in hand. -/
private def answeredRun (r : Option Proto.FindValueResult) : ShardRun where
  start := shardStart ⟨true, false, false⟩
  events := [⟨noon, .command (.injectPeer askedPeer)⟩, ⟨noon, .command (.get emptyKey)⟩,
    ⟨later, .datagram askedAddr (answerWith r)⟩]

/-- The request. -/
private def asked : InFlight := ⟨askedPeer.id, 1, noon.instant⟩

/-- An answer without a result settles it. -/
theorem answer_settles_closer :
    (answeredRun none).final.SettledBy ⟨later, .work⟩ asked := by
  exact ((answer_settles_iff _ later askedAddr (answerWith none) false [] answerHeader asked
    (by decide +kernel) (by decide +kernel) (by decide)).2 ⟨none, []⟩ rfl
    (by decide +kernel)).mpr (by decide +kernel)

/-- One provider. -/
private def someone : Proto.FindValueResult := .providers [⟨List.replicate 32 5, []⟩]

/-- An answer with a provider does not, although it comes from the peer that was asked. -/
theorem answer_settles_fails :
    ¬∀ (_ : Crates) (run : ShardRun) (env : Env) (src : SocketAddr) (pkt : Bytes)
      (authenticated : Bool) (ts : List Task) (h : Header) (f : InFlight)
      (resp : Proto.FindValueResp) (providers : List Proto.Provider),
      run.final.work = .app src pkt authenticated :: ts → Header.decode pkt = some h →
      h.ty = .findValueResp → decodeBody Crates.findValueResp pkt = some resp →
      resp.result = some (.providers providers) → f.correlation = h.correlation →
      run.final.ctx.Outstanding f →
      (∃ call ∈ run.final.ctx.calls, call.dest = src ∧ (Header.decode call.app).map
        (fun req ↦ (req.ty, req.correlation)) = some (.findValueReq, f.correlation)) →
      f.sentAt < env.instant → run.final.SettledBy ⟨env, .work⟩ f := by
  intro hall
  have hsettled := hall wireCrates (answeredRun (some someone)) later askedAddr
    (answerWith (some someone)) false [] answerHeader asked ⟨some someone, []⟩
    [⟨List.replicate 32 5, []⟩] (by decide +kernel) (by decide +kernel) rfl (by decide +kernel)
    rfl rfl (by decide +kernel) (by decide +kernel) (by decide)
  have hgone := hsettled [] fun _ hnil ↦ by cases hnil
  revert hgone
  decide +kernel

end

end Molia
