import Molia.Node.Basic

/-!
# Reading back a value

A value that `put_ttl` has taken should come back from `get` until its time to live is over, as long
as nobody else writes under its key. Below the erasure threshold it does, on every node and along
every run: the record sits in the store of the owning shard, and the only operation that could take
it away is the garbage collector, which spares it until it expires.

From the threshold on, the value is split into shards and the shards are dropped: what is stored is
an announcement, and `get` does not find the value.
-/

namespace Molia

section

variable [Crates]

open Crates

/-! ## Records that nobody writes over -/

/-- The operation hands over a record to be stored under `k`. -/
def StoreOp.Writes (k : Key) : StoreOp → Prop
  | putImmutableTtl _ value _ => hashValue value = k
  | putRecord r _ => r.key = k
  | _ => False

namespace StoreOp

variable {s : Store} {op : StoreOp} {k : Key} {r : StoredRecord}

theorem writes_of_inserted (h : op.inserted s = some r) : op.Writes r.key := by
  cases op with
  | putImmutableTtl now value ttlSecs =>
    rw [inserted] at h
    split_ifs at h
    cases h
    rfl
  | putRecord q probe =>
    obtain ⟨-, -, -, rfl⟩ := inserted_putRecord_eq_some.mp h
    rfl
  | cacheHit now q checked => cases h
  | announceProvider now key peerId metadata => cases h
  | gc now => cases h
  | flushWal => cases h

/-- A record stays until it is written over or expires. -/
theorem lookup_exec_of_live (hr : s.records.lookup k = some r) (hop : ¬op.Writes k)
    (hlive : ∀ now, op = gc now → r.expired now = false) :
    (op.exec s).records.lookup k = some r := by
  rcases op.lookup_exec_cases s k with h | ⟨q, hq, rfl, -⟩ | ⟨now, rfl, h⟩
  · rw [h, hr]
  · exact absurd (writes_of_inserted hq) hop
  · rw [exec, Store.gc, HashMap.lookup_retain, hr]
    simp [hlive now rfl]

end StoreOp

theorem Store.lookup_foldl_of_live {s : Store} {ops : List StoreOp} {k : Key} {r : StoredRecord}
    (hr : s.records.lookup k = some r) (hops : ∀ op ∈ ops, ¬op.Writes k)
    (hlive : ∀ now, .gc now ∈ ops → r.expired now = false) :
    (ops.foldl StoreOp.exec s).records.lookup k = some r := by
  refine List.foldlRecOn (motive := fun s ↦ s.records.lookup k = some r) ops StoreOp.exec hr ?_
  intro s hs op hop
  exact StoreOp.lookup_exec_of_live hs (hops op hop) fun now h ↦ hlive now (h ▸ hop)

/-! ## The garbage collector -/

namespace ShardCtx

variable {c : ShardCtx} {src : SocketAddr} {hdr : Header} {pkt : Bytes} {op : StoreOp}

theorem noGc_of_mem_findValueRespOps (h : op ∈ c.findValueRespOps hdr pkt) : op.NoGc := by
  rw [findValueRespOps] at h
  split at h
  · cases h
  · split at h
    · split at h
      · split_ifs at h
        · cases h
        · rw [List.mem_singleton.mp h]
          trivial
      · cases h
    · cases h

theorem noGc_of_mem_storeReqOps (h : op ∈ c.storeReqOps src hdr pkt) : op.NoGc := by
  rw [storeReqOps] at h
  split at h
  · cases h
  · split_ifs at h
    · cases h
    · split at h
      · cases h
      · rw [List.mem_singleton.mp h]
        trivial

theorem noGc_of_mem_announceReqOps (h : op ∈ c.announceReqOps src pkt) : op.NoGc := by
  rw [announceReqOps] at h
  split at h
  · cases h
  · split_ifs at h
    · cases h
    · split at h
      · cases h
      · split at h
        · rw [List.mem_singleton.mp h]
          trivial
        · cases h

theorem noGc_of_mem_appOps (h : op ∈ c.appOps src pkt) : op.NoGc := by
  rw [appOps] at h
  split at h
  · cases h
  · split at h
    · exact noGc_of_mem_findValueRespOps h
    · exact noGc_of_mem_storeReqOps h
    · exact noGc_of_mem_announceReqOps h
    · cases h

theorem noGc_of_mem_commandOps {cmd : ShardCmd} (h : op ∈ c.commandOps cmd) : op.NoGc := by
  cases cmd with
  | put value ttlSecs =>
    rw [commandOps] at h
    split_ifs at h
    · rw [List.mem_singleton.mp h]
      trivial
    · rw [List.mem_singleton.mp h]
      trivial
  | putMutable rec =>
    rw [List.mem_singleton.mp h]
    trivial
  | announce key metadata =>
    rw [List.mem_singleton.mp h]
    trivial
  | _ => cases h

end ShardCtx

theorem Machine.eq_of_gc_mem_storeOps {m : Machine} {e : Event} {now : UInt64}
    (h : .gc now ∈ m.storeOps e) : now = e.env.unix := by
  obtain ⟨env, input⟩ := e
  cases input with
  | command cmd =>
    simp only [storeOps] at h
    split_ifs at h
    · exact (ShardCtx.noGc_of_mem_commandOps h).elim
    · cases h
  | work =>
    simp only [storeOps] at h
    rcases hwork : m.work with _ | ⟨t, ts⟩
    · rw [hwork] at h
      cases h
    · rw [hwork] at h
      cases t with
      | app src pkt authenticated => exact (ShardCtx.noGc_of_mem_appOps h).elim
      | drain src => cases h
      | flush src => cases h
      | timer kind =>
        cases kind with
        | gc =>
          cases List.mem_singleton.mp h
          rfl
        | peerstoreFlush => cases List.mem_singleton.mp h
        | _ => cases h
  | exit =>
    simp only [storeOps] at h
    split_ifs at h
    · cases List.mem_singleton.mp h
    · cases h
  | _ => cases h

omit [Crates] in
theorem Lookup.nextBatch_new_nil (now : ℕ) (kind : LookupKind) (target : Key)
    (privacy : PrivacyMode) :
    (new now kind target [] privacy).nextBatch now
      = ([], { new now kind target [] privacy with done := true }) := by
  have hbudget : ¬(false = true ∨ now - now ≥ 1500 * millis) := by
    rw [Nat.sub_self]
    decide
  exact if_neg hbudget

omit [Crates] in
theorem RoutingTable.closest_new (selfId : NodeId) (target : Key) (n : ℕ) :
    (new selfId).closest target n = [] := by
  have hnone : (new selfId).allPeers = [] := List.flatMap_eq_nil_iff.mpr fun _ _ ↦ rfl
  rw [closest, hnone]
  exact List.take_nil

/-! ## The two paths of a put -/

/-- The value takes the erasure path. -/
def Erasure.Splits (value : Bytes) : Prop :=
  shouldErasure value.length = true ∧ (encode value).isSome = true

namespace ShardCtx

variable {c : ShardCtx} {value : Bytes} {ttlSecs : UInt64} {tx : Chan}

theorem handlePut_of_splits (h : Erasure.Splits value) :
    c.handlePut value ttlSecs tx =
      { c with
        store := c.store.announceProvider c.env.unix (hashValue value) c.identity.nodeId
          (erasureMeta value.length) }.send tx (.key (hashValue value)) := by
  obtain ⟨shards, hshards⟩ := Option.isSome_iff_exists.mp h.2
  rw [handlePut, if_pos h.1, hshards]

theorem handlePut_of_not_splits (h : ¬Erasure.Splits value) :
    c.handlePut value ttlSecs tx = c.putPlain value ttlSecs tx := by
  rw [handlePut]
  split_ifs with hlen
  · rcases henc : Erasure.encode value with _ | shards
    · rfl
    · exact absurd ⟨hlen, by rw [henc]; rfl⟩ h
  · rfl

theorem replies_putPlain :
    (c.putPlain value ttlSecs tx).replies = c.replies ++
      [(tx, if value.length > pmtuFloor * 64 then .err "store failed"
        else .key (hashValue value))] := by
  rw [putPlain, Store.putImmutableTtl]
  split_ifs
  · rfl
  · rfl

theorem handleGet_of_some {key : Key} {r : StoredRecord} (h : c.store.get c.env.unix key = some r) :
    (c.handleGet key tx).replies = c.replies ++ [(tx, .record (some r))] := by
  rw [handleGet, h]
  rfl

theorem startLookup_of_closest_nil {key : Key} (h : c.table.closest key alphaDefault = []) :
    (c.startLookup .findValue key (some tx)).replies = c.replies ++ [(tx, .value none)] := by
  have hbatch : ∀ privacy, c.toShardNet.dispatchLookupBatch
      (Lookup.new c.now .findValue key [] privacy)
        = (c.toShardNet, { Lookup.new c.now .findValue key [] privacy with done := true }) := by
    intro privacy
    rw [ShardNet.dispatchLookupBatch, Lookup.nextBatch_new_nil]
    rfl
  simp only [startLookup, h, hbatch]
  rfl

theorem handleGet_of_none {key : Key} (hget : c.store.get c.env.unix key = none)
    (h : c.table.closest key alphaDefault = []) :
    (c.handleGet key tx).replies = c.replies ++ [(tx, .value none)] := by
  rw [handleGet, hget]
  exact startLookup_of_closest_nil h

end ShardCtx

/-! ## Calls -/

namespace Node

variable {node : Node} {env : Env} {i : ℕ} {cmd : ShardCmd} {m : Machine} {k : Key}

@[simp] theorem owner_step (e : ℕ × Event) : (node.step e).owner k = node.owner k := by
  rw [owner, owner, step, List.length_modify]

theorem owner_foldl (es : List (ℕ × Event)) : (es.foldl step node).owner k = node.owner k :=
  List.foldlRecOn (motive := fun n : Node ↦ n.owner k = node.owner k) es step rfl
    fun _ h e _ ↦ (owner_step e).trans h

theorem shards_step (e : ℕ × Event) (hm : node.shards[i]? = some m) :
    (node.step e).shards[i]? = some (if e.1 = i then m.step e.2 else m) := by
  rw [step, List.getElem?_modify, hm]
  rfl

theorem recvTimeout_of_received {tx : Chan} {seen deadline : ℕ} {r : Reply}
    (h : node.received i tx seen = some r) (wait : List (ℕ × Event)) :
    recvTimeout i tx seen deadline node wait = (.ok r, node) := by
  cases wait with
  | nil => rw [recvTimeout, h, Option.elim_some]
  | cons e wait => simp only [recvTimeout, h]

/-- A command that is answered in the step that takes it. -/
theorem call_of_ready {r : Reply} {wait : List (ℕ × Event)} (hm : node.shards[i]? = some m)
    (hready : m.Ready) (hr : ((m.ctxAt env).handleCmd cmd m.asked.length).replies
      = m.ctx.replies ++ [(m.asked.length, r)]) :
    node.call env i cmd wait = (.ok r, node.step (i, ⟨env, .command cmd⟩)) := by
  have hstep : (m.step ⟨env, .command cmd⟩).ctx.replies
      = m.ctx.replies ++ [(m.asked.length, r)] := by
    rw [← hr, Machine.step]
    simp only [if_pos hready]
    rfl
  have hreceived : (node.step (i, ⟨env, .command cmd⟩)).received i m.asked.length
      m.ctx.replies.length = some r := by
    rw [received, shards_step _ hm, if_pos rfl]
    simp [hstep]
  rw [call, hm]
  simp only [if_neg hready.ne_exited, if_pos hready]
  exact recvTimeout_of_received hreceived wait

theorem ready_of_call {r : Reply} {wait : List (ℕ × Event)}
    (h : (node.call env i cmd wait).1 = .ok r) : ∃ m, node.shards[i]? = some m ∧ m.Ready := by
  rw [call] at h
  rcases hm : node.shards[i]? with _ | m
  · rw [hm] at h
    cases h
  · refine ⟨m, rfl, ?_⟩
    by_contra hready
    by_cases hexit : m.phase = .exited
    · simp [hm, hexit] at h
    · simp [hm, hexit, hready] at h

/-! ## The record along a run -/

/-- Shard `i` has the record under `k`. -/
def Holds (i : ℕ) (k : Key) (r : StoredRecord) (node : Node) : Prop :=
  ∃ m, node.shards[i]? = some m ∧ m.ctx.store.records.lookup k = some r

/-- The step is not later than `last`, and hands over nothing to be stored under `k`. -/
def Quiet (k : Key) (last : UInt64) (node : Node) (e : ℕ × Event) : Prop :=
  e.2.env.unix ≤ last ∧
    ∀ m, node.shards[e.1]? = some m → ∀ op ∈ m.storeOps e.2, ¬op.Writes k

/-- The owner of `k` waits for a command. -/
def OwnerReady (k : Key) (node : Node) : Prop :=
  ∃ m, node.shards[node.owner k]? = some m ∧ m.Ready

theorem Holds.step {r : StoredRecord} {last : UInt64} {e : ℕ × Event} (h : Holds i k r node)
    (he : node.Quiet k last e) (hlive : ∀ now ≤ last, r.expired now = false) :
    Holds i k r (node.step e) := by
  obtain ⟨m, hm, hr⟩ := h
  refine ⟨_, shards_step e hm, ?_⟩
  split_ifs with hi
  · rw [Machine.store_step]
    refine Store.lookup_foldl_of_live hr (he.2 m (hi ▸ hm)) fun now hnow ↦ hlive now ?_
    rw [Machine.eq_of_gc_mem_storeOps hnow]
    exact he.1
  · exact hr

theorem Holds.run {r : StoredRecord} {last : UInt64} {es : List (ℕ × Event)} (h : Holds i k r node)
    (hes : Runs.Along Node.step (Quiet k last) node es)
    (hlive : ∀ now ≤ last, r.expired now = false) : Holds i k r (es.foldl Node.step node) :=
  hes.invariant (fun _ _ hn he ↦ hn.step he hlive) h

theorem Holds.get {r : StoredRecord} (h : Holds (node.owner k) k r node)
    (hready : node.OwnerReady k) (hlive : r.expired env.unix = false)
    (hkind : r.kind ≠ kindTombstone) (wait : List (ℕ × Event)) :
    (node.get env k wait).1 = .ok (some r.value) := by
  obtain ⟨m, hm, hr⟩ := h
  obtain ⟨m', hm', hready⟩ := hready
  obtain rfl : m = m' := Option.some.inj (hm.symm.trans hm')
  have hget : (m.ctxAt env).store.get (m.ctxAt env).env.unix k = some r := by
    show m.ctx.store.get env.unix k = some r
    rw [Store.get, hr]
    exact if_pos ⟨hlive, hkind⟩
  have hcall : node.call env (node.owner k) (.get k) wait
      = (.ok (.record (some r)), node.step (node.owner k, ⟨env, .command (.get k)⟩)) :=
    call_of_ready hm hready (ShardCtx.handleGet_of_some hget)
  rw [Node.get, hcall]
  rfl

end Node

/-! ## The property -/

/-- The value can be read back from every node that has taken it, as long as it lives and nobody
writes under its key. -/
def ReadsBack (v : Bytes) : Prop :=
  ∀ (node : Node) (env env' : Env) (ttlSecs : UInt64) (k : Key) (es wait wait' : List (ℕ × Event)),
    0 < ttlSecs → (node.putTtl env v ttlSecs wait).1 = .ok k →
    Runs.Along Node.step (Node.Quiet k env'.unix) (node.putTtl env v ttlSecs wait).2 es →
    env.unix ≤ env'.unix → env'.unix.toNat ≤ env.unix.toNat + ttlSecs.toNat →
    (es.foldl Node.step (node.putTtl env v ttlSecs wait).2).OwnerReady k →
    ((es.foldl Node.step (node.putTtl env v ttlSecs wait).2).get env' k wait').1 = .ok (some v)

variable {v : Bytes}

/-- On the plain path, a put that is answered with a key has stored the value. -/
theorem Node.putTtl_of_not_splits {node : Node} {env : Env} {ttlSecs : UInt64} {k : Key}
    {wait : List (ℕ × Event)} (hv : ¬Erasure.Splits v)
    (h : (node.putTtl env v ttlSecs wait).1 = .ok k) :
    k = hashValue v ∧ (node.putTtl env v ttlSecs wait).2.owner k = node.owner k ∧
      Holds (node.owner k) k (Store.immutableRecord env.unix v ttlSecs)
        (node.putTtl env v ttlSecs wait).2 := by
  have hput : node.putTtl env v ttlSecs wait =
      ((node.call env (node.owner (hashValue v)) (.put v ttlSecs) wait).1.bind putResult,
        (node.call env (node.owner (hashValue v)) (.put v ttlSecs) wait).2) := rfl
  rw [hput] at h ⊢
  rcases hcall : (node.call env (node.owner (hashValue v)) (.put v ttlSecs) wait).1 with e | r
  · rw [hcall] at h
    cases h
  obtain ⟨m, hm, hready⟩ := ready_of_call hcall
  have hplain : (m.ctxAt env).handleCmd (.put v ttlSecs) m.asked.length
      = (m.ctxAt env).putPlain v ttlSecs m.asked.length := ShardCtx.handlePut_of_not_splits hv
  have hreply : node.call env (node.owner (hashValue v)) (.put v ttlSecs) wait = _ :=
    call_of_ready hm hready (hplain ▸ ShardCtx.replies_putPlain)
  rw [hreply] at h
  split_ifs at h with hlen
  · cases h
  cases h
  -- the value fits, so the reply is its key and its record is in the store
  refine ⟨rfl, ?_, ?_⟩
  · rw [hreply, owner_step]
  · rw [hreply]
    refine ⟨_, shards_step _ hm, ?_⟩
    rw [if_pos rfl, Machine.store_step]
    have hops : m.storeOps ⟨env, .command (.put v ttlSecs)⟩
        = [.putImmutableTtl env.unix v ttlSecs] := by
      simp only [Machine.storeOps, if_pos hready, ShardCtx.commandOps]
      exact if_neg hv
    have hgc : (StoreOp.putImmutableTtl env.unix v ttlSecs).NoGc := trivial
    rw [hops, List.foldl_cons, List.foldl_nil, StoreOp.lookup_exec_of_inserted hgc,
      StoreOp.inserted, if_neg hlen]
    exact if_pos rfl

theorem readsBack_of_not_splits (hv : ¬Erasure.Splits v) : ReadsBack v := by
  intro node env env' ttlSecs k es wait wait' _ hput hes _ hlast hready
  obtain ⟨rfl, howner, hholds⟩ := Node.putTtl_of_not_splits hv hput
  have hlive : ∀ now ≤ env'.unix,
      (Store.immutableRecord env.unix v ttlSecs).expired now = false := by
    intro now hnow
    have hnow' : now.toNat ≤ env'.unix.toNat := hnow
    show decide (now.toNat - env.unix.toNat > ttlSecs.toNat) = false
    rw [decide_eq_false_iff_not]
    omega
  have hrun := hholds.run hes hlive
  rw [← howner, ← Node.owner_foldl es] at hrun
  have hkind : kindImmutable ≠ kindTombstone := by decide
  exact hrun.get hready (hlive _ (UInt64.le_refl _)) hkind wait'

/-- A shard that starts in memory. -/
def freshStart (identity : Identity) : ShardStart where
  id := 0
  identity := identity
  cfg := ⟨true, false, false⟩
  localAddr := ⟨.v4 127 0 0 1, 0, 0, 0⟩
  env := ⟨0, 0, 0, none⟩
  peers := Peerstore.memory
  store := .new

/-- A node of one fresh shard. -/
def freshNode (identity : Identity) : Node where
  identity := identity
  shards := [(freshStart identity).machine]

theorem not_readsBack_of_splits (identity : Identity) (hv : Erasure.Splits v) : ¬ReadsBack v := by
  intro h
  let env : Env := ⟨0, 0, 0, none⟩
  let m := (freshStart identity).machine
  let m' := m.step ⟨env, .command (.put v 1)⟩
  -- the put leaves an announcement, and nothing in `records`
  have hctx : m'.ctx = _ := ShardCtx.handlePut_of_splits (c := m.ctxAt env) hv
  have hput : (freshNode identity).putTtl env v 1 [] = (.ok (hashValue v), ⟨identity, [m']⟩) := by
    have hcall : (freshNode identity).call env 0 (.put v 1) []
        = (.ok (.key (hashValue v)), ⟨identity, [m']⟩) :=
      Node.call_of_ready (m := m) rfl ⟨rfl, rfl⟩ (congrArg ShardCtx.replies hctx)
    exact congrArg (fun r ↦ (r.1.bind Node.putResult, r.2)) hcall
  have hget : ((⟨identity, [m']⟩ : Node).get env (hashValue v) []).1 = .ok none := by
    have hcall : (⟨identity, [m']⟩ : Node).call env 0 (.get (hashValue v)) []
        = (.ok (.value none),
          (⟨identity, [m']⟩ : Node).step (0, ⟨env, .command (.get (hashValue v))⟩)) := by
      refine Node.call_of_ready (m := m') rfl ⟨rfl, rfl⟩ (ShardCtx.handleGet_of_none ?_ ?_)
      · show m'.ctx.store.get 0 (hashValue v) = none
        rw [hctx]
        rfl
      · show m'.ctx.table.closest (hashValue v) alphaDefault = []
        rw [hctx]
        exact RoutingTable.closest_new identity.nodeId (hashValue v) alphaDefault
    exact congrArg (fun r ↦ r.1.bind Node.getResult) hcall
  have hback := h (freshNode identity) env env 1 (hashValue v) [] [] [] (by decide)
    (congrArg Prod.fst hput) trivial (UInt64.le_refl _) (Nat.le_add_right _ _)
  rw [hput] at hback
  have hread := hback ⟨m', rfl, rfl, rfl⟩
  rw [List.foldl_nil, hget] at hread
  cases hread

/-- **Reading back.** A value is read back from every node and along every run exactly if it is not
split: it is shorter than the erasure threshold, or the coder refuses it. -/
theorem readsBack_iff (identity : Identity) (v : Bytes) :
    ReadsBack v ↔ v.length < Erasure.threshold ∨ Erasure.encode v = none := by
  have hsplits : ¬Erasure.Splits v ↔ v.length < Erasure.threshold ∨ Erasure.encode v = none := by
    rw [Erasure.Splits, Erasure.shouldErasure, decide_eq_true_iff, not_and_or, ge_iff_le, not_le,
      Bool.not_eq_true, Option.isSome_eq_false_iff, Option.isNone_iff_eq_none]
  rw [← hsplits]
  exact ⟨fun h hv ↦ not_readsBack_of_splits identity hv h, readsBack_of_not_splits⟩

end

/-! ## A mebibyte of zeros -/

section

open Sample

/-- The value; a linear code gives it parity shards of zeros. -/
private def mebibyte : Bytes := List.replicate (1024 * 1024) 0

/-- The sample instance with the BLAKE3 hash of `mebibyte`. -/
@[reducible] private def zerosCrates : Crates :=
  { crates with
    blake3 := fun b ↦
      if b = mebibyte then
        ⟨[72, 141, 226, 2, 247, 59, 217, 118, 222, 78, 112, 72, 244, 225, 243, 154, 119, 109, 134,
          213, 130, 183, 52, 143, 245, 59, 244, 50, 185, 135, 252, 168], rfl⟩
      else Sample.blake3 b }

attribute [local instance] zerosCrates

/-- A mebibyte of zeros is taken and not read back. -/
theorem readsBack_fails : ¬∀ (_ : Crates) (v : Bytes), ReadsBack v := by
  intro h
  refine not_readsBack_of_splits ⟨(), Bytes32.fill 1⟩ ⟨?_, rfl⟩ (h zerosCrates mebibyte)
  rw [mebibyte, List.length_replicate]
  decide

end

end Molia
