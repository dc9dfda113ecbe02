import Molia.Shard.History

/-!
# Probes

A STORE request with the probe flag asks whether a record would be taken, and is meant to leave the
store as it is. The answer is the one that the record itself would get, since the checks come first
and do not look at the flag.

The checks are followed by a branch for tombstones that inserts and returns, and only then is the
flag tested. So a probe of an authentic tombstone removes the record under its key, and queues the
tombstone for the log. `probe_same_iff` says that nothing else goes wrong: a probe leaves the store
as it is exactly if the record is no such tombstone, or the store has no directory and holds that
same tombstone already.

Two stores are the same if the maps answer every lookup alike and the rest is equal. No operation
can tell such stores apart, so what holds of the store after the probe holds of every store later.
-/

namespace Molia

section

variable [Crates]

open Crates

namespace Store

/-- The stores agree, up to the order in which `records` is iterated. -/
structure Same (s s' : Store) : Prop where
  records : ∀ k, s'.records.lookup k = s.records.lookup k
  cache : s'.cache = s.cache
  providers : s'.providers = s.providers
  dir : s'.dir = s.dir
  pendingWal : s'.pendingWal = s.pendingWal

omit [Crates] in
theorem Same.refl (s : Store) : s.Same s := ⟨fun _ ↦ rfl, rfl, rfl, rfl, rfl⟩

/-! ## Stores that agree behave alike -/

theorem dir_keep (s : Store) (o : Option StoredRecord) : (s.keep o).dir = s.dir := by
  rcases o with _ | r
  · rfl
  · show (s.queueRecord r).dir = s.dir
    rw [queueRecord]
    split_ifs
    · rfl
    · rfl

theorem pendingWal_keep (s : Store) (o : Option StoredRecord) :
    (s.keep o).pendingWal
      = s.pendingWal ++ if s.dir.isSome then o.toList.map StoredRecord.encode else [] := by
  rcases o with _ | r
  · rw [Option.toList_none, List.map_nil, ite_self, List.append_nil]
    rfl
  · show (s.queueRecord r).pendingWal = _
    rw [queueRecord]
    split_ifs
    · rfl
    · exact (List.append_nil _).symm

namespace Same

variable {s s' : Store} (h : s.Same s')

include h

omit [Crates] in
theorem get (now : UInt64) (k : Key) : s'.get now k = s.get now k := by
  rw [Store.get, Store.get, h.records, h.cache]

theorem validate (r : StoredRecord) : s'.validate r = s.validate r := by
  rw [Store.validate, Store.validate, checkSequence, checkSequence, h.records]

theorem inserted (op : StoreOp) : op.inserted s' = op.inserted s := by
  cases op with
  | putRecord r probe => rw [StoreOp.inserted, StoreOp.inserted, h.validate]
  | _ => rfl

theorem keep (o : Option StoredRecord) : (s.keep o).Same (s'.keep o) where
  records k := by
    rw [records_keep, records_keep]
    rcases o with _ | r
    · exact h.records k
    · rw [Option.elim_some, Option.elim_some, HashMap.lookup_insert_of, HashMap.lookup_insert_of,
        h.records]
  cache := by rw [cache_keep, cache_keep, h.cache]
  providers := by rw [providers_keep, providers_keep, h.providers]
  dir := by rw [dir_keep, dir_keep, h.dir]
  pendingWal := by rw [pendingWal_keep, pendingWal_keep, h.dir, h.pendingWal]

omit [Crates] in
theorem cacheHit (now : UInt64) (r : StoredRecord) :
    (s.cacheHit now r).Same (s'.cacheHit now r) := by
  rw [Store.cacheHit, Store.cacheHit]
  split_ifs
  · exact h
  · exact { h with cache := by rw [h.cache] }

omit [Crates] in
theorem announceProvider (now : UInt64) (k : Key) (p : NodeId) (m : Bytes) :
    (s.announceProvider now k p m).Same (s'.announceProvider now k p m) := by
  rw [Store.announceProvider, Store.announceProvider, h.providers]
  exact { h with providers := rfl }

omit [Crates] in
theorem gc (now : UInt64) : (s.gc now).Same (s'.gc now) where
  records k := by rw [Store.gc, Store.gc, HashMap.lookup_retain, HashMap.lookup_retain, h.records]
  cache := by rw [Store.gc, Store.gc, h.cache]
  providers := by rw [Store.gc, Store.gc, h.providers]
  dir := h.dir
  pendingWal := h.pendingWal

theorem exec (op : StoreOp) : (op.exec s).Same (op.exec s') := by
  by_cases hput : op.IsPut
  · rw [op.exec_put s hput, op.exec_put s' hput, h.inserted]
    exact h.keep _
  · cases op with
    | putImmutableTtl now value ttlSecs => exact absurd trivial hput
    | putRecord r probe => exact absurd trivial hput
    | cacheHit now r checked => exact h.cacheHit now r
    | announceProvider now k p m => exact h.announceProvider now k p m
    | gc now => exact h.gc now
    | flushWal => exact { h with pendingWal := rfl }

theorem foldl_exec (ops : List StoreOp) :
    (ops.foldl StoreOp.exec s).Same (ops.foldl StoreOp.exec s') :=
  List.foldl_rel h fun op _ _ _ hsame ↦ hsame.exec op

end Same

/-! ## Records that may be probed -/

/-- A probe of the record stores nothing new: it is no tombstone that would be taken, unless the
store has no log and holds just this tombstone. -/
def Harmless (s : Store) (r : StoredRecord) : Prop :=
  r.kind = kindTombstone → r.Fits → r.envelopeOk = true →
    s.dir = none ∧ s.records.lookup r.key = some r

/-- Keeping a record leaves no trace only if there is no log and the record is there already. -/
theorem same_keep_iff {s : Store} {o : Option StoredRecord} :
    s.Same (s.keep o) ↔ ∀ r, o = some r → s.dir = none ∧ s.records.lookup r.key = some r := by
  rcases o with _ | r
  · exact iff_of_true (.refl s) fun r hr ↦ absurd hr (Option.some_ne_none r).symm
  simp only [Option.some.injEq, forall_eq']
  constructor
  · intro h
    have hwal := h.pendingWal
    have hlookup := h.records r.key
    rw [pendingWal_keep, List.append_right_eq_self] at hwal
    rw [records_keep, Option.elim_some, AList.lookup_insert] at hlookup
    refine ⟨?_, hlookup.symm⟩
    rcases hdir : s.dir with _ | dir
    · rfl
    · rw [hdir] at hwal
      cases hwal
  · rintro ⟨hdir, hlookup⟩
    refine ⟨fun k ↦ ?_, s.cache_keep _, s.providers_keep _, s.dir_keep _, ?_⟩
    · rw [records_keep, Option.elim_some, HashMap.lookup_insert_of]
      split_ifs with hk
      · rw [hk, hlookup]
      · rfl
    · rw [pendingWal_keep, hdir]
      exact List.append_nil _

theorem inserted_probe_iff {s : Store} {r q : StoredRecord} :
    (StoreOp.putRecord r true).inserted s = some q ↔
      r.kind = kindTombstone ∧ r.Fits ∧ r.envelopeOk = true ∧ r = q := by
  rw [StoreOp.inserted_putRecord_eq_some]
  constructor
  · rintro ⟨hfits, hacc, hkind | hprobe, hq⟩
    · refine ⟨hkind, hfits, ?_, hq⟩
      rw [← StoredRecord.authentic_of_signed (Or.inr hkind)]
      exact hacc.authentic
    · cases hprobe
  · rintro ⟨hkind, hfits, henv, hq⟩
    exact ⟨hfits, Or.inr (Or.inr (Or.inl ⟨hkind, henv⟩)), Or.inl hkind, hq⟩

theorem same_putRecord_probe_iff (s : Store) (r : StoredRecord) :
    s.Same (s.putRecord r true).2 ↔ s.Harmless r := by
  have hkeep : (s.putRecord r true).2 = s.keep ((StoreOp.putRecord r true).inserted s) :=
    StoreOp.exec_put s (.putRecord r true) trivial
  rw [hkeep, same_keep_iff]
  simp only [inserted_probe_iff]
  constructor
  · intro h hkind hfits henv
    exact h r ⟨hkind, hfits, henv, rfl⟩
  · rintro h q ⟨hkind, hfits, henv, rfl⟩
    exact h hkind hfits henv

end Store

/-! ## Probes of a shard -/

namespace ShardCtx

/-- The STORE request is let through and is for the record. -/
def Submits (c : ShardCtx) (src : SocketAddr) (pkt : Bytes) (rec : StoredRecord) : Prop :=
  (c.sybil.allowPreHandshake c.now src).1 = true ∧
    ∃ req, decodeBody Crates.storeReq pkt = some req ∧ storedRecordOf c.env.unix req = .ok rec

theorem storeReqOps_cases (c : ShardCtx) (src : SocketAddr) (h : Header) (pkt : Bytes) :
    (c.storeReqOps src h pkt = [] ∧ ∀ rec, ¬c.Submits src pkt rec) ∨
      ∃ rec, c.storeReqOps src h pkt = [.putRecord rec h.isProbe] ∧
        ∀ rec', c.Submits src pkt rec' ↔ rec' = rec := by
  rw [storeReqOps]
  rcases hreq : decodeBody Crates.storeReq pkt with _ | req
  · refine Or.inl ⟨rfl, ?_⟩
    rintro rec ⟨-, req, hreq', -⟩
    rw [hreq] at hreq'
    cases hreq'
  rcases hallow : (c.sybil.allowPreHandshake c.now src).1 with _ | _
  · refine Or.inl ⟨rfl, ?_⟩
    rintro rec ⟨hallow', -⟩
    rw [hallow] at hallow'
    cases hallow'
  rcases hrec : storedRecordOf c.env.unix req with e | rec
  · refine Or.inl ⟨by simp [hrec], ?_⟩
    rintro rec ⟨-, req', hreq', hrec'⟩
    obtain rfl := Option.some.inj (hreq.symm.trans hreq')
    rw [hrec] at hrec'
    cases hrec'
  · refine Or.inr ⟨rec, by simp [hrec], fun rec' ↦ ⟨?_, ?_⟩⟩
    · rintro ⟨-, req', hreq', hrec'⟩
      obtain rfl := Option.some.inj (hreq.symm.trans hreq')
      rw [hrec] at hrec'
      exact (Except.ok.inj hrec').symm
    · rintro rfl
      exact ⟨hallow, req, hreq, hrec⟩

theorem same_onStore_iff {c : ShardCtx} {src : SocketAddr} {h : Header} {pkt : Bytes}
    (hprobe : h.isProbe = true) :
    c.store.Same (c.onStore src h pkt).store ↔
      ∀ rec, c.Submits src pkt rec → c.store.Harmless rec := by
  rw [store_onStore]
  rcases c.storeReqOps_cases src h pkt with ⟨hops, hnone⟩ | ⟨rec, hops, honly⟩
  · rw [hops]
    exact ⟨fun _ rec hrec ↦ absurd hrec (hnone rec), fun _ ↦ .refl _⟩
  · simp only [hops, honly, hprobe, forall_eq]
    exact Store.same_putRecord_probe_iff c.store rec

end ShardCtx

/-- **Probes.** A probe gets the answer that the record itself would get, and leaves the store as it
is exactly if the record is harmless. A STORE request with the probe flag leaves the store of the
shard as it is exactly if the record it is for, if any, is harmless. Then no later read and nothing
queued for the log is different for it. -/
theorem probe_same_iff :
    (∀ (s : Store) (r : StoredRecord), (s.putRecord r true).1 = (s.putRecord r false).1 ∧
      (s.Same (s.putRecord r true).2 ↔ s.Harmless r)) ∧
    ∀ (c : ShardCtx) (src : SocketAddr) (pkt : Bytes) (authenticated : Bool) (h : Header),
      Header.decode pkt = some h → h.ty = .storeReq → h.isProbe = true →
      (c.store.Same (c.handleApp src pkt authenticated).1.store ↔
        ∀ rec, c.Submits src pkt rec → c.store.Harmless rec) ∧
      (c.store.Same (c.handleApp src pkt authenticated).1.store →
        ∀ ops : List StoreOp,
          (∀ now key,
            (ops.foldl StoreOp.exec (c.handleApp src pkt authenticated).1.store).get now key
              = (ops.foldl StoreOp.exec c.store).get now key) ∧
          (ops.foldl StoreOp.exec (c.handleApp src pkt authenticated).1.store).pendingWal
            = (ops.foldl StoreOp.exec c.store).pendingWal) := by
  constructor
  · intro s r
    refine ⟨?_, s.same_putRecord_probe_iff r⟩
    rw [Store.putRecord_fst, Store.putRecord_fst]
  intro c src pkt authenticated h hdec hty hprobe
  refine ⟨?_, fun hsame ops ↦ ?_⟩
  · have hstore : (c.handleApp src pkt authenticated).1.store = (c.onStore src h pkt).store := by
      rw [ShardCtx.store_handleApp, ShardCtx.store_onStore, ShardCtx.appOps, hdec]
      simp only [hty]
    rw [hstore]
    exact ShardCtx.same_onStore_iff hprobe
  · have hlater := hsame.foldl_exec ops
    exact ⟨hlater.get, hlater.pendingWal⟩

end

section

open Sample

attribute [local instance] wireCrates

/-- The empty value, as it is sent. -/
private def probedBody : Proto.Record where
  key := emptyKey.val.val
  value := []
  sequence := 0
  ttlSecs := 3600
  notBeforeUnix := 0
  ownerPubkey := []
  signature := []
  validators := []
  kind := kindImmutable
  ns := []
  salt := []

private def probeHeader : Header :=
  { Header.request .storeReq .coordination 5 with flags := flagProbe }

private def probeRequest : Bytes :=
  probeHeader.bytes ++ Proto.storeReqWire.encode ⟨Proto.recordWire.encode probedBody, [], []⟩

private def probedRun : ShardRun where
  start := shardStart ⟨true, false, false⟩
  events := []

private def prober : SocketAddr := .ofV4 10 0 0 2 9000

/-- A probe of the empty value leaves no trace. -/
theorem probe_same_iff_empty :
    (probedRun.final.ctxAt noon).store.Same
      ((probedRun.final.ctxAt noon).handleApp prober probeRequest false).1.store := by
  refine (probe_same_iff.2 (probedRun.final.ctxAt noon) prober probeRequest false probeHeader
    (by decide +kernel) rfl (by decide)).1.mpr ?_
  rintro rec ⟨-, req, hreq, hrec⟩ hkind
  have hreq' : decodeBody Crates.storeReq probeRequest
      = some ⟨Proto.recordWire.encode probedBody, [], []⟩ := by decide +kernel
  have hrec' : ShardCtx.storedRecordOf noon.unix ⟨Proto.recordWire.encode probedBody, [], []⟩
      = .ok (Store.immutableRecord noon.unix [] 3600) := by decide +kernel
  obtain rfl := Option.some.inj (hreq'.symm.trans hreq)
  obtain rfl := Except.ok.inj (hrec'.symm.trans hrec)
  exact absurd hkind (by decide)

/-- The first version, turned into a tombstone; the kind is not signed. -/
private def buried : StoredRecord := { recordOne with kind := kindTombstone }

/-- A probe of a tombstone takes the record away. -/
theorem probe_same_fails :
    ¬∀ (_ : Crates) (run : StoreRun) (r : StoredRecord) (now : UInt64) (key : Key),
      (run.final.putRecord r true).2.get now key = run.final.get now key := by
  intro h
  have hget := h wireCrates ⟨.new, [.putRecord recordOne false]⟩ buried 1000 slotKey
  revert hget
  decide +kernel

end

end Molia
