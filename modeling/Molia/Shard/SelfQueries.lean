import Molia.Net.LookupOrder
import Molia.Net.TableShape
import Molia.Shard.Pending
import Molia.Shard.TableWrites

/-!
# Lookups that find the asker

A node has no business asking itself. Its own id cannot enter the routing table, so no lookup starts
with it; but a lookup also takes in the peers that answers list, as they come, and an honest answer
often lists the asker.

What a step of the shard does with a pending lookup is a run of the operations of a lookup
(`Evolves`), in which it learns of the peers that the answer of the step is about (`tells`). The
lookup is then handed to `next_batch` in the same step, whether it ends there or not (`Logs`). So
`next_batch` is called on a shortlist with the own id exactly from an answer that lists it, and the
node is asked in its turn.
-/

namespace Molia

/-! ## The runs of one lookup -/

namespace Lookup

variable {l l' l'' : Lookup} {op : LookupOp} {ops : List LookupOp} {x : NodeId}
  {peers peers' : List PeerInfo}

/-- The candidates of a lookup. -/
def ids (l : Lookup) : List NodeId := l.shortlist.map PeerInfo.id

theorem mem_of_mem_fillBatch {ps batch : List PeerInfo} {p : PeerInfo}
    (h : p ∈ l.fillBatch ps batch) : p ∈ batch ∨ p ∈ ps := by
  induction ps generalizing batch with
  | nil => exact .inl h
  | cons q ps ih =>
    rw [fillBatch] at h
    split_ifs at h
    · exact (ih h).imp_right (List.mem_cons_of_mem q)
    · exact (ih h).imp_right (List.mem_cons_of_mem q)
    · exact .inl h
    · rcases ih h with hbatch | hps
      · rw [tryPush] at hbatch
        split_ifs at hbatch
        · rcases List.mem_append.mp hbatch with hbatch | hq
          · exact .inl hbatch
          · exact .inr (List.mem_singleton.mp hq ▸ List.mem_cons_self)
        · exact .inl hbatch
      · exact .inr (List.mem_cons_of_mem q hps)

theorem ids_nextBatch_subset (l : Lookup) (now : ℕ) :
    (l.nextBatch now).1.map PeerInfo.id ⊆ l.ids := by
  refine List.map_subset _ fun p hp ↦ ?_
  by_cases hends : l.Ends now
  · rw [nextBatch_of_ends hends] at hp
    cases hp
  · rw [nextBatch_of_not_ends hends] at hp
    exact (mem_of_mem_fillBatch hp).resolve_left List.not_mem_nil

theorem ids_finishPeers_subset (l : Lookup) : l.finishPeers.map PeerInfo.id ⊆ l.ids :=
  List.map_subset _ (List.take_subset _ _)

/-- The lookup has not asked `x`, does not ask it next and does not return it. -/
structure Avoids (l : Lookup) (x : NodeId) : Prop where
  queried : x ∉ l.queried
  nextBatch : ∀ now, x ∉ (l.nextBatch now).1.map PeerInfo.id
  finishPeers : x ∉ l.finishPeers.map PeerInfo.id

theorem avoids_of_not_mem_ids (hqueried : l.queried ⊆ l.ids) (h : x ∉ l.ids) : l.Avoids x where
  queried hx := h (hqueried hx)
  nextBatch now hx := h (l.ids_nextBatch_subset now hx)
  finishPeers hx := h (l.ids_finishPeers_subset hx)

/-- Requests go to members of the batch. -/
def Asks (l : Lookup) : LookupOp → Prop
  | .dispatch now sends => ∀ f ∈ sends, f.id ∈ (l.nextBatch now).1.map PeerInfo.id
  | _ => True

theorem mem_queried_foldl_note {sends : List InFlight} (h : x ∈ (sends.foldl note l).queried) :
    x ∈ l.queried ∨ x ∈ sends.map InFlight.id := by
  induction sends generalizing l with
  | nil => exact .inl h
  | cons f sends ih =>
    rw [List.map_cons, List.mem_cons]
    rcases ih h with hnoted | hlater
    · change x ∈ (if f.id ∈ l.queried then l.queried else l.queried ++ [f.id]) at hnoted
      split_ifs at hnoted
      · exact .inl hnoted
      · rcases List.mem_append.mp hnoted with hold | hnew
        · exact .inl hold
        · exact .inr (.inl (List.mem_singleton.mp hnew))
    · exact .inr (.inr hlater)

theorem queried_step_subset (hasks : l.Asks op) (h : l.queried ⊆ l.ids) :
    (l.step op).queried ⊆ (l.step op).ids := by
  have hgrow : l.ids ⊆ (l.step op).ids := fun x hx ↦ (l.mem_ids_step op x).mpr (.inl hx)
  refine List.Subset.trans ?_ hgrow
  cases op with
  | dispatch now sends =>
    intro x hx
    rcases mem_queried_foldl_note hx with hold | hsent
    · rw [nextBatch_snd] at hold
      exact h hold
    · obtain ⟨f, hf, rfl⟩ := List.mem_map.mp hsent
      exact l.ids_nextBatch_subset now (hasks f hf)
  | onTimeouts now => exact fun x hx ↦ h ((l.mem_queried_onTimeouts now x).mp hx).1
  | onCloser sender peers rttUs =>
    rw [step, onCloser_eq]
    exact h
  | onProviders sender providers closer =>
    rw [step, onProviders, onCloser_eq]
    exact h
  | onRecord sender rec => exact h

/-- A run of operations turns `l` into `l'` and brings these peers. -/
def Evolves (peers : List PeerInfo) (l l' : Lookup) : Prop :=
  ∃ ops : List LookupOp, l' = ops.foldl step l ∧ Runs.Along step Asks l ops ∧
    ops.flatMap LookupOp.delivered = peers

namespace Evolves

theorem refl (l : Lookup) : Evolves [] l l := ⟨[], rfl, trivial, rfl⟩

theorem of_op (op : LookupOp) (hasks : l.Asks op) : Evolves op.delivered l (l.step op) :=
  ⟨[op], rfl, ⟨hasks, trivial⟩, by simp⟩

theorem trans (h : Evolves peers l l') (h' : Evolves peers' l' l'') :
    Evolves (peers ++ peers') l l'' := by
  obtain ⟨ops, rfl, hasks, rfl⟩ := h
  obtain ⟨ops', rfl, hasks', rfl⟩ := h'
  exact ⟨ops ++ ops', (List.foldl_append ..).symm, Runs.along_append.mpr ⟨hasks, hasks'⟩,
    List.flatMap_append⟩

theorem mem_ids_iff (h : Evolves peers l l') :
    x ∈ l'.ids ↔ x ∈ l.ids ∨ x ∈ peers.map PeerInfo.id := by
  obtain ⟨ops, rfl, -, rfl⟩ := h
  exact mem_ids_run l ops x

theorem queried_subset (h : Evolves peers l l') (hqueried : l.queried ⊆ l.ids) :
    l'.queried ⊆ l'.ids := by
  obtain ⟨ops, rfl, hasks, -⟩ := h
  exact hasks.invariant (I := fun l ↦ l.queried ⊆ l.ids)
    (fun _ _ h hasks ↦ queried_step_subset hasks h) hqueried

end Evolves

end Lookup

section

variable [Crates]

open Crates

attribute [local irreducible] message

theorem Lookup.Evolves.dispatch (n : ShardNet) (l : Lookup) :
    Evolves [] l (n.dispatchLookupBatch l).2 := by
  obtain ⟨sends, hsub, heq⟩ :=
    ShardNet.exists_sends (l.nextBatch n.now).1 (n, (l.nextBatch n.now).2)
  have hasks : l.Asks (.dispatch n.now sends) := fun f hf ↦ hsub.subset (List.mem_map_of_mem hf)
  rw [ShardNet.dispatchLookupBatch, heq]
  exact .of_op _ hasks

/-! ## The pending lookups -/

namespace ShardCtx

variable {c c' c'' : ShardCtx} {told : UInt32 → List PeerInfo}

/-- The pending lookups of `c'` were pending in `c`, and have since been told of these peers. -/
def Kept (told : UInt32 → List PeerInfo) (c c' : ShardCtx) : Prop :=
  ∀ id p', c'.lookups.lookup id = some p' →
    ∃ p, c.lookups.lookup id = some p ∧ Lookup.Evolves (told id) p.lookup p'.lookup

namespace Kept

theorem of_lookups (h : ∀ id, c'.lookups.lookup id = c.lookups.lookup id) :
    Kept (fun _ ↦ []) c c' := by
  intro id p hp
  rw [h] at hp
  exact ⟨p, hp, .refl _⟩

theorem trans (h : Kept told c c') (h' : Kept (fun _ ↦ []) c' c'') : Kept told c c'' := by
  intro id p'' hp''
  obtain ⟨p', hp', hquiet⟩ := h' id p'' hp''
  obtain ⟨p, hp, htold⟩ := h id p' hp'
  have hboth := htold.trans hquiet
  rw [List.append_nil] at hboth
  exact ⟨p, hp, hboth⟩

theorem sweepLookups (c : ShardCtx) : Kept (fun _ ↦ []) c c.sweepLookups := by
  intro id p' hp'
  obtain ⟨n, -, hlookup⟩ := lookup_sweepLookups c id
  rw [hlookup] at hp'
  obtain ⟨p, hp, hswept⟩ := Option.bind_eq_some_iff.mp hp'
  refine ⟨p, hp, ?_⟩
  rw [ShardNet.swept] at hswept
  split_ifs at hswept
  rw [← Option.some.inj hswept]
  exact .dispatch n p.lookup

theorem updateLookup (c : ShardCtx) (corr : UInt32) (op : LookupOp) {f : Lookup → Lookup}
    (hf : ∀ l, f l = l.step op) (hasks : ∀ l : Lookup, l.Asks op) :
    Kept (fun id ↦ if c.findLookup corr = some id then op.delivered else []) c
      (c.updateLookup corr f) := by
  intro id p' hp'
  rw [lookup_updateLookup] at hp'
  obtain ⟨p, hp, rfl⟩ := Option.map_eq_some_iff.mp hp'
  refine ⟨p, hp, ?_⟩
  dsimp only
  split_ifs
  · rw [hf]
    exact .of_op op (hasks _)
  · exact .refl _

theorem completeCloser (c : ShardCtx) (corr : UInt32) (src : SocketAddr)
    (peers : List PeerInfo) :
    Kept (fun id ↦ if c.findLookup corr = some id then peers else []) c
      (c.completeCloser corr src peers) :=
  (updateLookup c corr (.onCloser (c.senderAt src) peers 50000) (fun _ ↦ rfl)
    fun _ ↦ trivial).trans (sweepLookups _)

end Kept

/-- Between `c` and `c'`, `next_batch` was called on lookups that were pending in `c` and had since
been told of these peers, and on each lookup that was told of any. -/
def Logs (told : UInt32 → List PeerInfo) (c c' : ShardCtx) : Prop :=
  ∃ new, c'.batches = c.batches ++ new ∧
    (∀ b ∈ new, ∃ id p, c.lookups.lookup id = some p ∧
      Lookup.Evolves (told id) p.lookup b.1) ∧
    ∀ id p, c.lookups.lookup id = some p → told id ≠ [] →
      ∃ b ∈ new, Lookup.Evolves (told id) p.lookup b.1

namespace Logs

theorem of_batches (h : c'.batches = c.batches) : Logs (fun _ ↦ []) c c' := by
  refine ⟨[], by rw [h, List.append_nil], fun b hb ↦ ?_, fun _ _ _ hne ↦ absurd rfl hne⟩
  cases hb

theorem trans (h : Logs told c c') (hkept : Kept told c c') (h' : Logs (fun _ ↦ []) c' c'') :
    Logs told c c'' := by
  obtain ⟨new, hbatches, hnew, hall⟩ := h
  obtain ⟨new', hbatches', hnew', -⟩ := h'
  refine ⟨new ++ new', by rw [hbatches', hbatches, List.append_assoc], fun b hb ↦ ?_, ?_⟩
  · rcases List.mem_append.mp hb with hb | hb
    · exact hnew b hb
    · obtain ⟨id, p', hp', hquiet⟩ := hnew' b hb
      obtain ⟨p, hp, htold⟩ := hkept id p' hp'
      have hboth := htold.trans hquiet
      rw [List.append_nil] at hboth
      exact ⟨id, p, hp, hboth⟩
  · intro id p hp hne
    obtain ⟨b, hb, hevolves⟩ := hall id p hp hne
    exact ⟨b, List.mem_append_left _ hb, hevolves⟩

theorem sweepLookups (hkept : Kept told c c') (hbatches : c'.batches = c.batches)
    (hpending : ∀ id p, c.lookups.lookup id = some p → ∃ p', c'.lookups.lookup id = some p') :
    Logs told c c'.sweepLookups := by
  obtain ⟨new, hnew, hmem⟩ := batches_sweepLookups c'
  refine ⟨new, by rw [hnew, hbatches], fun b hb ↦ ?_, fun id p hp _ ↦ ?_⟩
  · obtain ⟨id, p', hp', rfl⟩ := (hmem b).mp hb
    obtain ⟨p, hp, hevolves⟩ := hkept id p' hp'
    exact ⟨id, p, hp, hevolves⟩
  · obtain ⟨p', hp'⟩ := hpending id p hp
    obtain ⟨q, hq, hevolves⟩ := hkept id p' hp'
    obtain rfl := Option.some.inj (hp.symm.trans hq)
    exact ⟨_, (hmem _).mpr ⟨id, p', hp', rfl⟩, hevolves⟩

theorem updateLookup (c : ShardCtx) (corr : UInt32) (op : LookupOp) {f : Lookup → Lookup}
    (hf : ∀ l, f l = l.step op) (hasks : ∀ l : Lookup, l.Asks op) :
    Logs (fun id ↦ if c.findLookup corr = some id then op.delivered else []) c
      (c.updateLookup corr f).sweepLookups := by
  refine sweepLookups (.updateLookup c corr op hf hasks) (batches_updateLookup c corr f) ?_
  intro id p hp
  rw [lookup_updateLookup, hp]
  exact ⟨_, rfl⟩

theorem completeCloser (c : ShardCtx) (corr : UInt32) (src : SocketAddr)
    (peers : List PeerInfo) :
    Logs (fun id ↦ if c.findLookup corr = some id then peers else []) c
      (c.completeCloser corr src peers) :=
  updateLookup c corr (.onCloser (c.senderAt src) peers 50000) (fun _ ↦ rfl) fun _ ↦ trivial

theorem sweepLookups_quiet (c : ShardCtx) : Logs (fun _ ↦ []) c c.sweepLookups :=
  sweepLookups (.of_lookups fun _ ↦ rfl) rfl fun _ p hp ↦ ⟨p, hp⟩

end Logs

/-! ## Answers -/

/-- The peers that an answer tells a lookup of. With a record it tells of none. -/
def toldPeers (h : Header) (pkt : Bytes) : List PeerInfo :=
  match h.ty with
  | .findNodeResp =>
    (decodeBody Crates.findNodeResp pkt).elim [] fun resp ↦ peersFromProto resp.peers
  | .findValueResp =>
    (decodeBody Crates.findValueResp pkt).elim [] fun resp ↦
      match resp.result with
      | some (.record _) => []
      | _ => peersFromProto resp.closerPeers
  | _ => []

/-- The peers that a message tells a pending lookup of. -/
def toldBy (c : ShardCtx) (h : Header) (pkt : Bytes) (id : UInt32) : List PeerInfo :=
  if c.findLookup h.correlation = some id then toldPeers h pkt else []

namespace Kept

variable {src : SocketAddr} {h : Header} {pkt : Bytes}

theorem of_toldPeers {peers : List PeerInfo} (hpeers : toldPeers h pkt = peers)
    (hkept : Kept (fun id ↦ if c.findLookup h.correlation = some id then peers else []) c c') :
    Kept (c.toldBy h pkt) c c' := by
  subst hpeers
  exact hkept

theorem of_toldPeers_nil (hpeers : toldPeers h pkt = []) (hkept : Kept (fun _ ↦ []) c c') :
    Kept (c.toldBy h pkt) c c' := by
  refine of_toldPeers hpeers ?_
  simp only [ite_self]
  exact hkept

theorem onFindNodeResp (hty : h.ty = .findNodeResp) :
    Kept (c.toldBy h pkt) c (c.onFindNodeResp src h pkt) := by
  rcases hdec : decodeBody Crates.findNodeResp pkt with _ | resp
  · simp only [ShardCtx.onFindNodeResp, hdec]
    exact of_toldPeers_nil (by simp [toldPeers, hty, hdec]) (of_lookups fun _ ↦ rfl)
  · have hpeers : toldPeers h pkt = peersFromProto resp.peers := by simp [toldPeers, hty, hdec]
    simp only [ShardCtx.onFindNodeResp, hdec]
    refine of_toldPeers hpeers ?_
    exact completeCloser (c.withNet _) h.correlation src (peersFromProto resp.peers)

theorem onFindValueResp (hty : h.ty = .findValueResp) :
    Kept (c.toldBy h pkt) c (c.onFindValueResp src h pkt) := by
  rcases hdec : decodeBody Crates.findValueResp pkt with _ | resp
  · simp only [ShardCtx.onFindValueResp, hdec]
    exact of_toldPeers_nil (by simp [toldPeers, hty, hdec]) (of_lookups fun _ ↦ rfl)
  rw [onFindValueResp_of_decode hdec]
  refine trans ?_ (sweepLookups _)
  generalize (peersFromProto resp.closerPeers).foldl (ShardNet.meet src) c.toShardNet = n
  rcases hresult : resp.result with _ | bytes | ps
  · -- closer peers only: the lookups are swept here and once more
    have hpeers : toldPeers h pkt = peersFromProto resp.closerPeers := by
      simp [toldPeers, hty, hdec, hresult]
    refine of_toldPeers hpeers ?_
    exact completeCloser (c.withNet n) h.correlation src (peersFromProto resp.closerPeers)
  · -- a record: its closer peers are not passed on to the lookup
    refine of_toldPeers_nil (by simp [toldPeers, hty, hdec, hresult]) ?_
    rw [takeResult]
    split
    · rename_i rec hrec
      rw [acceptRecord_eq]
      have hkept := updateLookup ((c.withNet n).cacheAnswer c.env.unix h rec.val) h.correlation
        (.onRecord .zero rec.val) (fun _ ↦ rfl) fun _ ↦ trivial
      simp only [LookupOp.delivered, ite_self] at hkept
      exact hkept
    · exact of_lookups fun _ ↦ rfl
  · have hpeers : toldPeers h pkt = peersFromProto resp.closerPeers := by
      simp [toldPeers, hty, hdec, hresult]
    refine of_toldPeers hpeers ?_
    exact updateLookup (c.withNet n) h.correlation
      (.onProviders .zero (ps.filterMap providerOf) (peersFromProto resp.closerPeers))
      (fun _ ↦ rfl) fun _ ↦ trivial

theorem handleApp {authenticated : Bool} (hdec : Header.decode pkt = some h) :
    Kept (c.toldBy h pkt) c (c.handleApp src pkt authenticated).1 := by
  simp only [ShardCtx.handleApp, hdec]
  rcases hty : h.ty
  case findNodeResp => exact onFindNodeResp hty
  case findValueResp => exact onFindValueResp hty
  all_goals refine of_toldPeers_nil (by rw [toldPeers, hty]) (of_lookups fun id ↦ ?_)
  case storeReq =>
    obtain ⟨n, store, heq⟩ := c.onStore_eq src h pkt
    rw [heq]
  case announceProviderReq =>
    obtain ⟨n, store, heq⟩ := c.onAnnounce_eq src h pkt
    rw [heq]
  all_goals rfl

theorem onLookupTick (c : ShardCtx) : Kept (fun _ ↦ []) c c.onLookupTick := by
  have htimeouts : Kept (fun _ ↦ []) c { c with lookups := c.lookups.mapValues fun _ p ↦
      { p with lookup := (p.lookup.onTimeouts c.now).2 } } := by
    intro id p' hp'
    rw [HashMap.lookup_mapValues] at hp'
    obtain ⟨p, hp, rfl⟩ := Option.map_eq_some_iff.mp hp'
    exact ⟨p, hp, .of_op (.onTimeouts c.now) trivial⟩
  exact trans htimeouts (sweepLookups _)

theorem onTimer (c : ShardCtx) (kind : TimerKind) : Kept (fun _ ↦ []) c (c.onTimer kind) := by
  rcases kind with _ | _ | _ | _ | _
  · exact of_lookups fun _ ↦ rfl
  · exact of_lookups fun _ ↦ rfl
  · exact of_lookups fun _ ↦ rfl
  · exact onLookupTick c
  · exact of_lookups fun _ ↦ rfl

end Kept

namespace Logs

variable {src : SocketAddr} {h : Header} {pkt : Bytes}

theorem of_toldPeers {peers : List PeerInfo} (hpeers : toldPeers h pkt = peers)
    (hlogs : Logs (fun id ↦ if c.findLookup h.correlation = some id then peers else []) c c') :
    Logs (c.toldBy h pkt) c c' := by
  subst hpeers
  exact hlogs

theorem of_toldPeers_nil (hpeers : toldPeers h pkt = []) (hlogs : Logs (fun _ ↦ []) c c') :
    Logs (c.toldBy h pkt) c c' := by
  refine of_toldPeers hpeers ?_
  simp only [ite_self]
  exact hlogs

theorem onFindNodeResp (hty : h.ty = .findNodeResp) :
    Logs (c.toldBy h pkt) c (c.onFindNodeResp src h pkt) := by
  rcases hdec : decodeBody Crates.findNodeResp pkt with _ | resp
  · simp only [ShardCtx.onFindNodeResp, hdec]
    exact of_toldPeers_nil (by simp [toldPeers, hty, hdec]) (of_batches rfl)
  · have hpeers : toldPeers h pkt = peersFromProto resp.peers := by simp [toldPeers, hty, hdec]
    simp only [ShardCtx.onFindNodeResp, hdec]
    refine of_toldPeers hpeers ?_
    exact completeCloser (c.withNet _) h.correlation src (peersFromProto resp.peers)

theorem onFindValueResp (hty : h.ty = .findValueResp) :
    Logs (c.toldBy h pkt) c (c.onFindValueResp src h pkt) := by
  rcases hdec : decodeBody Crates.findValueResp pkt with _ | resp
  · simp only [ShardCtx.onFindValueResp, hdec]
    exact of_toldPeers_nil (by simp [toldPeers, hty, hdec]) (of_batches rfl)
  rw [onFindValueResp_of_decode hdec]
  generalize (peersFromProto resp.closerPeers).foldl (ShardNet.meet src) c.toShardNet = n
  rcases hresult : resp.result with _ | bytes | ps
  · -- closer peers only: the lookups are swept here and once more
    have hpeers : toldPeers h pkt = peersFromProto resp.closerPeers := by
      simp [toldPeers, hty, hdec, hresult]
    refine of_toldPeers hpeers ?_
    exact trans (completeCloser (c.withNet n) h.correlation src (peersFromProto resp.closerPeers))
      (Kept.completeCloser (c.withNet n) h.correlation src (peersFromProto resp.closerPeers))
      (sweepLookups_quiet _)
  · refine of_toldPeers_nil (by simp [toldPeers, hty, hdec, hresult]) ?_
    rw [takeResult]
    split
    · rename_i rec hrec
      rw [acceptRecord_eq]
      have hlogs := updateLookup ((c.withNet n).cacheAnswer c.env.unix h rec.val) h.correlation
        (.onRecord .zero rec.val) (f := fun l ↦ l.onRecord .zero rec.val) (fun _ ↦ rfl)
        fun _ ↦ trivial
      simp only [LookupOp.delivered, ite_self] at hlogs
      exact hlogs
    · exact sweepLookups_quiet (c.withNet n)
  · have hpeers : toldPeers h pkt = peersFromProto resp.closerPeers := by
      simp [toldPeers, hty, hdec, hresult]
    refine of_toldPeers hpeers ?_
    exact updateLookup (c.withNet n) h.correlation
      (.onProviders .zero (ps.filterMap providerOf) (peersFromProto resp.closerPeers))
      (fun _ ↦ rfl) fun _ ↦ trivial

theorem handleApp {authenticated : Bool} (hdec : Header.decode pkt = some h) :
    Logs (c.toldBy h pkt) c (c.handleApp src pkt authenticated).1 := by
  simp only [ShardCtx.handleApp, hdec]
  rcases hty : h.ty
  case findNodeResp => exact onFindNodeResp hty
  case findValueResp => exact onFindValueResp hty
  all_goals refine of_toldPeers_nil (by rw [toldPeers, hty]) (of_batches ?_)
  case storeReq =>
    obtain ⟨n, store, heq⟩ := c.onStore_eq src h pkt
    rw [heq]
  case announceProviderReq =>
    obtain ⟨n, store, heq⟩ := c.onAnnounce_eq src h pkt
    rw [heq]
  all_goals rfl

theorem onLookupTick (c : ShardCtx) : Logs (fun _ ↦ []) c c.onLookupTick := by
  rw [ShardCtx.onLookupTick]
  refine sweepLookups (c := c) ?_ rfl ?_
  · intro id p' hp'
    change (c.lookups.mapValues _).lookup id = some p' at hp'
    rw [HashMap.lookup_mapValues] at hp'
    obtain ⟨p, hp, rfl⟩ := Option.map_eq_some_iff.mp hp'
    exact ⟨p, hp, .of_op (.onTimeouts c.now) trivial⟩
  · intro id p hp
    change ∃ p', (c.lookups.mapValues _).lookup id = some p'
    rw [HashMap.lookup_mapValues, hp]
    exact ⟨_, rfl⟩

theorem onTimer (c : ShardCtx) (kind : TimerKind) : Logs (fun _ ↦ []) c (c.onTimer kind) := by
  rcases kind with _ | _ | _ | _ | _
  · exact of_batches rfl
  · exact of_batches rfl
  · exact of_batches rfl
  · exact onLookupTick c
  · exact of_batches rfl

end Logs

/-- The peers that a task tells a pending lookup of. -/
def taskTells (c : ShardCtx) : Task → UInt32 → List PeerInfo
  | .app _ pkt _ => (Header.decode pkt).elim (fun _ ↦ []) fun h ↦ c.toldBy h pkt
  | _ => fun _ ↦ []

theorem Kept.runTask (c : ShardCtx) (t : Task) : Kept (c.taskTells t) c (c.runTask t).1 := by
  rcases t with ⟨src, pkt, authenticated⟩ | src | src | kind
  · rw [taskTells]
    rcases hdec : Header.decode pkt with _ | h
    · show Kept (fun _ ↦ []) c (c.handleApp src pkt authenticated).1
      simp only [ShardCtx.handleApp, hdec]
      exact of_lookups fun _ ↦ rfl
    · exact handleApp hdec
  · obtain ⟨wg, sent, heq⟩ := c.drainTurn_fst src
    refine of_lookups fun id ↦ ?_
    show (c.drainTurn src).1.lookups.lookup id = _
    rw [heq]
  · exact of_lookups fun _ ↦ rfl
  · exact onTimer c kind

theorem Logs.runTask (c : ShardCtx) (t : Task) : Logs (c.taskTells t) c (c.runTask t).1 := by
  rcases t with ⟨src, pkt, authenticated⟩ | src | src | kind
  · rw [taskTells]
    rcases hdec : Header.decode pkt with _ | h
    · show Logs (fun _ ↦ []) c (c.handleApp src pkt authenticated).1
      simp only [ShardCtx.handleApp, hdec]
      exact of_batches rfl
    · exact handleApp hdec
  · obtain ⟨wg, sent, heq⟩ := c.drainTurn_fst src
    refine of_batches ?_
    show (c.drainTurn src).1.batches = _
    rw [heq]
  · exact of_batches rfl
  · exact onTimer c kind

theorem exists_of_taskTells {t : Task} {id : UInt32} (h : c.taskTells t id ≠ []) :
    ∃ p, c.lookups.lookup id = some p := by
  rcases t with ⟨src, pkt, authenticated⟩ | src | src | kind
  · rw [taskTells] at h
    rcases hdec : Header.decode pkt with _ | hd
    · rw [hdec] at h
      exact absurd rfl h
    · rw [hdec] at h
      change c.toldBy hd pkt id ≠ [] at h
      rw [toldBy] at h
      split_ifs at h with hfind
      · exact exists_of_findLookup hfind
      · exact absurd rfl h
  · exact absurd rfl h
  · exact absurd rfl h
  · exact absurd rfl h

end ShardCtx

namespace Machine

/-- The peers that a step tells a pending lookup of. -/
def tells (m : Machine) (e : Event) : UInt32 → List PeerInfo :=
  match e.input with
  | .work => m.work.head?.elim (fun _ ↦ []) (m.ctxAt e.env).taskTells
  | _ => fun _ ↦ []

variable (m : Machine) (e : Event)

theorem tells_of_ne {m : Machine} {e : Event} (h : e.input ≠ .work) : m.tells e = fun _ ↦ [] := by
  obtain ⟨env, input⟩ := e
  cases input with
  | work => exact absurd rfl h
  | _ => rfl

theorem kept_work (env : Env) :
    ShardCtx.Kept (m.tells ⟨env, .work⟩) m.ctx (m.step ⟨env, .work⟩).ctx := by
  rw [tells]
  rcases hwork : m.work with _ | ⟨t, ts⟩
  · rw [step_work_nil hwork]
    exact .of_lookups fun _ ↦ rfl
  · rw [step_work hwork]
    exact ShardCtx.Kept.runTask (m.ctxAt env) t

/-- **What a step does with a pending lookup.** It was pending before and has been told of some
peers, or it has been started with peers of the table. -/
theorem evolves_step {id : UInt32} {p' : PendingLookup}
    (hp' : (m.step e).ctx.lookups.lookup id = some p') :
    (∃ p, m.ctx.lookups.lookup id = some p ∧
        Lookup.Evolves (m.tells e id) p.lookup p'.lookup) ∨
      m.tells e id = [] ∧ ∃ now kind target privacy, Lookup.Evolves []
        (Lookup.new now kind target (m.ctx.table.closest target alphaDefault) privacy)
        p'.lookup := by
  by_cases hin : e.input = .work
  · obtain ⟨env, input⟩ := e
    obtain rfl : input = .work := hin
    exact .inl (m.kept_work env id p' hp')
  rw [tells_of_ne hin]
  have hkept (hsame : (m.step e).ctx.lookups.lookup id = m.ctx.lookups.lookup id) :
      ∃ p, m.ctx.lookups.lookup id = some p ∧ Lookup.Evolves [] p.lookup p'.lookup :=
    ⟨p', hsame ▸ hp', .refl _⟩
  rcases m.step_cases e with hsame | ⟨src, pkt, -, hctx, -⟩ | ⟨cmd, -, hctx, -⟩ |
    ⟨timers, -, hctx, -⟩ | ⟨t, ts, hwork, -⟩ | ⟨r, -, hctx, -⟩ | ⟨-, hctx, -⟩
  · exact .inl (hkept (by rw [hsame]))
  · obtain ⟨wg, sybil, sent, heq⟩ := (m.ctxAt e.env).handleDatagram_fst src pkt
    refine .inl (hkept ?_)
    rw [hctx, heq]
    rfl
  · rw [hctx] at hp'
    rcases (m.ctxAt e.env).handleCmd_cases cmd m.asked.length with ⟨hsame, -⟩ | ⟨key, hstart⟩
    · refine .inl (hkept ?_)
      rw [hctx, hsame]
      rfl
    · rw [hstart] at hp'
      rcases ShardCtx.lookup_startLookup hp' with hold | ⟨privacy, -, hnew⟩
      · exact .inl ⟨p', hold, .refl _⟩
      · refine .inr ⟨rfl, e.env.instant, .findValue, key, privacy, ?_⟩
        rw [hnew]
        exact .dispatch _ _
  · refine .inl (hkept ?_)
    rw [hctx]
    rfl
  · exact absurd hwork hin
  · refine .inl (hkept ?_)
    rw [hctx]
    exact HashMap.lookup_reorder _ _ _
  · refine .inl (hkept ?_)
    rw [hctx]
    rfl

end Machine

namespace Machine

variable {m : Machine} {e : Event} {own : NodeId}

/-- The table belongs to the node `own`, and lookups only ask their candidates. -/
structure Based (own : NodeId) (m : Machine) : Prop where
  placed : RoutingTable.Placed m.ctx.table
  self : m.ctx.table.selfId = own
  queried : m.ctx.AllPending fun l ↦ l.queried ⊆ l.ids

theorem based_start (start : ShardStart) : Based start.identity.nodeId start.machine where
  placed := RoutingTable.placed_new _
  self := rfl
  queried id p hp := by cases hp

theorem Based.step (h : Based own m) (e : Event) : Based own (m.step e) := by
  refine ⟨?_, ?_, fun id p' hp' ↦ ?_⟩
  · exact (m.reaches_step e).invariant (fun _ op h _ ↦ h.apply op) h.placed
  · exact (m.reaches_step e).invariant (I := fun t ↦ t.selfId = own)
      (fun t op ht _ ↦ (t.selfId_apply op).trans ht) h.self
  · rcases m.evolves_step e hp' with ⟨p, hp, hevolves⟩ | ⟨-, now, kind, target, privacy, hnew⟩
    · exact hevolves.queried_subset (h.queried id p hp)
    · exact hnew.queried_subset (List.nil_subset _)

/-- No pending lookup has the own id for a candidate. -/
def Unlisted (own : NodeId) (m : Machine) : Prop := m.ctx.AllPending fun l ↦ own ∉ l.ids

/-- No lookup is told of the own id. -/
def Untold (own : NodeId) (m : Machine) (e : Event) : Prop :=
  ∀ id, own ∉ (m.tells e id).map PeerInfo.id

theorem Based.self_not_mem_new (h : Based own m) (now : ℕ) (kind : LookupKind) (target : Key)
    (privacy : PrivacyMode) :
    own ∉ (Lookup.new now kind target (m.ctx.table.closest target alphaDefault) privacy).ids := by
  intro hmem
  have hseed := ((perm_sortShortlist _ _).map PeerInfo.id).subset hmem
  exact h.placed.self_not_mem_closest target _ (h.self ▸ hseed)

theorem Unlisted.step (h : Unlisted own m) (hbased : Based own m) (huntold : m.Untold own e) :
    Unlisted own (m.step e) := by
  intro id p' hp' hmem
  rcases m.evolves_step e hp' with ⟨p, hp, hevolves⟩ | ⟨-, now, kind, target, privacy, hnew⟩
  · rcases hevolves.mem_ids_iff.mp hmem with hold | htold
    · exact h id p hp hold
    · exact huntold id htold
  · rcases hnew.mem_ids_iff.mp hmem with hseed | hnil
    · exact hbased.self_not_mem_new now kind target privacy hseed
    · cases hnil

-- Apart from a task, only the command `get` calls `next_batch`, on the lookup that it starts.
theorem batches_step_of_ne (m : Machine) {e : Event} (hin : e.input ≠ .work) :
    ∃ new, (m.step e).ctx.batches = m.ctx.batches ++ new ∧
      ∀ b ∈ new, ∃ now kind target privacy,
        b.1 = Lookup.new now kind target (m.ctx.table.closest target alphaDefault) privacy := by
  have hnone (hsame : (m.step e).ctx.batches = m.ctx.batches) :
      ∃ new, (m.step e).ctx.batches = m.ctx.batches ++ new ∧
        ∀ b ∈ new, ∃ now kind target privacy,
          b.1 = Lookup.new now kind target (m.ctx.table.closest target alphaDefault) privacy :=
    ⟨[], by rw [hsame, List.append_nil], List.forall_mem_nil _⟩
  rcases m.step_cases e with hsame | ⟨src, pkt, -, hctx, -⟩ | ⟨cmd, -, hctx, -⟩ |
    ⟨timers, -, hctx, -⟩ | ⟨t, ts, hwork, -⟩ | ⟨r, -, hctx, -⟩ | ⟨-, hctx, -⟩
  · exact hnone (by rw [hsame])
  · obtain ⟨wg, sybil, sent, heq⟩ := (m.ctxAt e.env).handleDatagram_fst src pkt
    refine hnone ?_
    rw [hctx, heq]
    rfl
  · rcases (m.ctxAt e.env).handleCmd_cases cmd m.asked.length with ⟨-, hsame⟩ | ⟨key, hstart⟩
    · refine hnone ?_
      rw [hctx, hsame]
      rfl
    · obtain ⟨privacy, hbatches⟩ :=
        (m.ctxAt e.env).batches_startLookup .findValue key (some m.asked.length)
      rw [hctx, hstart, hbatches]
      refine ⟨_, rfl, fun b hb ↦ ?_⟩
      rw [List.mem_singleton.mp hb]
      exact ⟨e.env.instant, .findValue, key, privacy, rfl⟩
  · refine hnone ?_
    rw [hctx]
    rfl
  · exact absurd hwork hin
  · refine hnone ?_
    rw [hctx]
    rfl
  · refine hnone ?_
    rw [hctx]
    rfl

/-- **The calls of `next_batch` in a step** are on lookups that were pending, as they are after they
have been told, or on the lookup that is started; and no lookup is told without such a call. -/
theorem batches_step (m : Machine) (e : Event) :
    ∃ new, (m.step e).ctx.batches = m.ctx.batches ++ new ∧
      (∀ b ∈ new, (∃ id p, m.ctx.lookups.lookup id = some p ∧
          Lookup.Evolves (m.tells e id) p.lookup b.1) ∨
        ∃ now kind target privacy,
          b.1 = Lookup.new now kind target (m.ctx.table.closest target alphaDefault) privacy) ∧
      ∀ id, m.tells e id ≠ [] → ∃ p, ∃ b ∈ new, Lookup.Evolves (m.tells e id) p b.1 := by
  by_cases hin : e.input = .work
  swap
  · obtain ⟨new, hbatches, hnew⟩ := m.batches_step_of_ne hin
    rw [tells_of_ne hin]
    exact ⟨new, hbatches, fun b hb ↦ .inr (hnew b hb), fun id hne ↦ absurd rfl hne⟩
  obtain ⟨env, input⟩ := e
  obtain rfl : input = .work := hin
  rcases hwork : m.work with _ | ⟨t, ts⟩
  · rw [step_work_nil hwork]
    have htells (id : UInt32) : m.tells ⟨env, .work⟩ id = [] := by
      rw [tells, hwork]
      rfl
    exact ⟨[], (List.append_nil _).symm, List.forall_mem_nil _,
      fun id hne ↦ absurd (htells id) hne⟩
  · have htells : m.tells ⟨env, .work⟩ = (m.ctxAt env).taskTells t := by
      rw [tells, hwork]
      rfl
    obtain ⟨new, hbatches, hnew, hall⟩ := ShardCtx.Logs.runTask (m.ctxAt env) t
    rw [step_work hwork, htells]
    refine ⟨new, hbatches, fun b hb ↦ .inl (hnew b hb), fun id hne ↦ ?_⟩
    obtain ⟨p, hp⟩ := ShardCtx.exists_of_taskTells hne
    obtain ⟨b, hb, hevolves⟩ := hall id p hp hne
    exact ⟨p.lookup, b, hb, hevolves⟩

/-- `next_batch` was never called on a lookup with the own id for a candidate. -/
def Unqueried (own : NodeId) (m : Machine) : Prop := ∀ b ∈ m.ctx.batches, own ∉ b.1.ids

theorem Unqueried.step (h : Unqueried own m) (hbased : Based own m) (hunlisted : Unlisted own m)
    (huntold : m.Untold own e) : Unqueried own (m.step e) := by
  obtain ⟨new, hbatches, hnew, -⟩ := m.batches_step e
  intro b hb
  rw [hbatches] at hb
  rcases List.mem_append.mp hb with hb | hb
  · exact h b hb
  · rcases hnew b hb with ⟨id, p, hp, hevolves⟩ | ⟨now, kind, target, privacy, heq⟩
    · intro hmem
      rcases hevolves.mem_ids_iff.mp hmem with hold | htold
      · exact hunlisted id p hp hold
      · exact huntold id htold
    · rw [heq]
      exact hbased.self_not_mem_new now kind target privacy

/-- The own id is neither in the table nor on a shortlist, and never was. -/
structure Apart (own : NodeId) (m : Machine) : Prop where
  based : Based own m
  unlisted : Unlisted own m
  unqueried : Unqueried own m

theorem Apart.step (h : Apart own m) (huntold : m.Untold own e) : Apart own (m.step e) where
  based := h.based.step e
  unlisted := h.unlisted.step h.based huntold
  unqueried := h.unqueried.step h.based h.unlisted huntold

theorem apart_start (start : ShardStart) : Apart start.identity.nodeId start.machine where
  based := based_start start
  unlisted id p hp := by cases hp
  unqueried := List.forall_mem_nil _

/-- A lookup that is told of the own id is handed to `next_batch` with it. -/
theorem untold_of_unqueried_step (h : Unqueried own (m.step e)) : m.Untold own e := by
  intro id htold
  obtain ⟨new, hbatches, -, hall⟩ := m.batches_step e
  have hne : m.tells e id ≠ [] := by
    intro hnil
    rw [hnil] at htold
    cases htold
  obtain ⟨p, b, hb, hevolves⟩ := hall id hne
  refine h b ?_ (hevolves.mem_ids_iff.mpr (.inr htold))
  rw [hbatches]
  exact List.mem_append_right _ hb

theorem Unqueried.of_step (h : Unqueried own (m.step e)) : Unqueried own m := by
  obtain ⟨new, hbatches, -⟩ := m.batches_step e
  intro b hb
  refine h b ?_
  rw [hbatches]
  exact List.mem_append_left _ hb

end Machine

namespace ShardRun

/-- The node is in no batch that `next_batch` returned in the run, nor among the peers that
`finish_peers` would return for the lookup. -/
def AvoidsSelf (run : ShardRun) : Prop :=
  ∀ b ∈ run.final.ctx.batches,
    run.start.identity.nodeId ∉ (b.1.nextBatch b.2).1.map PeerInfo.id ∧
      run.start.identity.nodeId ∉ b.1.finishPeers.map PeerInfo.id

/-- **A node never asks itself** in a run in which no answer tells a pending lookup of its id; and
`next_batch` is never called on a shortlist with the id exactly in these runs. Nor does then a
pending lookup ask the node, at any time, have it among its peers at the end, or have asked it. -/
theorem avoids_self_iff (run : ShardRun) :
    let own := run.start.identity.nodeId
    ((∀ b ∈ run.final.ctx.batches, own ∉ b.1.ids) ↔
        Runs.Along Machine.step (Machine.Untold own) run.start.machine run.events) ∧
      (Runs.Along Machine.step (Machine.Untold own) run.start.machine run.events →
        run.AvoidsSelf ∧
          Runs.Throughout Machine.step (fun m ↦ m.ctx.AllPending fun l ↦ l.Avoids own)
            run.start.machine run.events) := by
  intro own
  have hstart : Machine.Apart own run.start.machine := Machine.apart_start run.start
  have hqueried : Runs.Throughout Machine.step (Machine.Unqueried own) run.start.machine
      run.events ↔ Runs.Along Machine.step (Machine.Untold own) run.start.machine run.events :=
    Runs.throughout_iff_along Runs.along_true (fun _ h ↦ h.unqueried)
      (fun _ _ h _ huntold ↦ h.step huntold)
      (fun _ _ _ _ h ↦ Machine.untold_of_unqueried_step h) hstart
  constructor
  · rw [← hqueried, Runs.throughout_iff_finish fun _ _ ↦ Machine.Unqueried.of_step]
    rfl
  intro hrun
  constructor
  · intro b hb
    have hids : own ∉ b.1.ids := (hqueried.mpr hrun).finish b hb
    exact ⟨fun h ↦ hids (b.1.ids_nextBatch_subset b.2 h),
      fun h ↦ hids (b.1.ids_finishPeers_subset h)⟩
  · have hapart : Runs.Throughout Machine.step (Machine.Apart own) run.start.machine run.events :=
      (Runs.throughout_iff_along Runs.along_true (fun _ h ↦ h)
        (fun _ _ h _ huntold ↦ h.step huntold)
        (fun _ _ _ _ h ↦ Machine.untold_of_unqueried_step h.unqueried) hstart).mpr hrun
    exact hapart.mono fun m h id p hp ↦
      Lookup.avoids_of_not_mem_ids (h.based.queried id p hp) (h.unlisted id p hp)

end ShardRun

end

section

open Sample

attribute [local instance] wireCrates

private def friendAddr : SocketAddr := .ofV4 10 0 0 7 9000

/-- An answer that lists the node that asked. -/
private def mirrorAnswer : Bytes :=
  (Header.response .findValueResp .coordination 1).bytes ++ Proto.findValueRespWire.encode
    ⟨none, [⟨(identity .first).nodeId.val.val, [⟨multiaddr (.ofV4 10 0 0 1 9000)⟩], 0, []⟩]⟩

/-- A node asks its only peer for a key, and is told to ask itself. -/
private def mirrorRun : ShardRun where
  start := shardStart ⟨true, false, false⟩
  events := [⟨noon, .command (.injectPeer (.new ⟨Bytes32.fill 7⟩ friendAddr))⟩,
    ⟨noon, .command (.get emptyKey)⟩, ⟨noon, .datagram friendAddr mirrorAnswer⟩, ⟨noon, .work⟩]

/-- The node asks itself. -/
theorem ShardRun.avoids_self_fails :
    ¬∀ (_ : Crates) (run : ShardRun), run.AvoidsSelf := by
  intro hall
  have hasked : ∃ b ∈ mirrorRun.final.ctx.batches,
      (identity .first).nodeId ∈ (b.1.nextBatch b.2).1.map PeerInfo.id := by
    decide +kernel
  obtain ⟨b, hb, hmem⟩ := hasked
  exact (hall wireCrates mirrorRun b hb).1 hmem

end

end Molia
