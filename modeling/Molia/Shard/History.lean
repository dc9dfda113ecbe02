import Molia.General.Runs
import Molia.Shard.Machine

/-!
# The record store along a run

Whatever a shard does, its record store changes by the operations of `StoreOp` only. `storeOps`
reads off a step which operations these are, from the state before the step and the input alone, and
`store_step` says that they account for the store after it. So the store of every reachable shard is
the result of a history in the sense of `StoreRun`, and what was shown of all histories holds of it.
-/

namespace Molia

variable [Crates]

open Crates

/-! ## The operations of a step -/

namespace ShardCtx

def storeReqOps (c : ShardCtx) (src : SocketAddr) (h : Header) (pkt : Bytes) : List StoreOp :=
  match decodeBody Crates.storeReq pkt with
  | none => []
  | some req =>
    if (c.sybil.allowPreHandshake c.now src).1 = false then []
    else
      match storedRecordOf c.env.unix req with
      | .error _ => []
      | .ok rec => [.putRecord rec h.isProbe]

def findValueRespOps (c : ShardCtx) (h : Header) (pkt : Bytes) : List StoreOp :=
  match decodeBody Crates.findValueResp pkt with
  | none => []
  | some resp =>
    match resp.result with
    | some (.record bytes) =>
      match authenticRecord c.env.unix bytes with
      | some rec => if h.isProbe then [] else [.cacheHit c.env.unix rec.val rec.property]
      | none => []
    | _ => []

def announceReqOps (c : ShardCtx) (src : SocketAddr) (pkt : Bytes) : List StoreOp :=
  match decodeBody Crates.announceProviderReq pkt with
  | none => []
  | some req =>
    if (c.sybil.allowPreHandshake c.now src).1 = false then []
    else
      match Key.fromBytes req.key with
      | none => []
      | some key =>
        match req.selfDescriptor.bind providerOf with
        | some (id, metadata) => [.announceProvider c.env.unix key id metadata]
        | none => []

/-- The operations of an application message. -/
def appOps (c : ShardCtx) (src : SocketAddr) (pkt : Bytes) : List StoreOp :=
  match Header.decode pkt with
  | none => []
  | some h =>
    match h.ty with
    | .findValueResp => c.findValueRespOps h pkt
    | .storeReq => c.storeReqOps src h pkt
    | .announceProviderReq => c.announceReqOps src pkt
    | _ => []

/-- The operations of a command. -/
def commandOps (c : ShardCtx) : ShardCmd → List StoreOp
  | .put value ttlSecs =>
    if Erasure.shouldErasure value.length = true ∧ (Erasure.encode value).isSome = true then
      [.announceProvider c.env.unix (hashValue value) c.identity.nodeId
        (erasureMeta value.length)]
    else [.putImmutableTtl c.env.unix value ttlSecs]
  | .putMutable rec => [.putRecord rec false]
  | .announce key metadata => [.announceProvider c.env.unix key c.identity.nodeId metadata]
  | _ => []

/-- The operations of a task. -/
def taskOps (c : ShardCtx) : Task → List StoreOp
  | .app src pkt _ => c.appOps src pkt
  | .timer .gc => [.gc c.env.unix]
  | .timer .peerstoreFlush => [.flushWal]
  | _ => []

end ShardCtx

/-- The operations of a step. -/
def Machine.storeOps (m : Machine) (e : Event) : List StoreOp :=
  match e.input with
  | .command cmd => if m.Ready then (m.ctxAt e.env).commandOps cmd else []
  | .work =>
    match m.work with
    | [] => []
    | t :: _ => (m.ctxAt e.env).taskOps t
  | .exit => if m.phase = .stopping ∧ m.work = [] then [.flushWal] else []
  | _ => []

/-! ## They account for the store -/

namespace ShardCtx

@[simp] theorem store_withNet (c : ShardCtx) (n : ShardNet) : (c.withNet n).store = c.store := rfl

@[simp] theorem store_send (c : ShardCtx) (tx : Chan) (r : Reply) :
    (c.send tx r).store = c.store := rfl

@[simp] theorem store_finishLookup (c : ShardCtx) (l : Lookup) (reply : Option Chan) :
    (c.finishLookup l reply).store = c.store := by
  rcases reply with _ | tx
  · rfl
  · simp only [finishLookup]
    split
    · rfl
    · split
      · rfl
      · split_ifs <;> rfl

@[simp] theorem store_startLookup (c : ShardCtx) (kind : LookupKind) (target : Key)
    (reply : Option Chan) : (c.startLookup kind target reply).store = c.store := by
  simp only [startLookup]
  generalize Lookup.new _ _ _ _ _ = l
  generalize c.toShardNet.dispatchLookupBatch _ = r
  split_ifs
  · rw [store_finishLookup, store_withNet]
  · rfl

@[simp] theorem store_updateLookup (c : ShardCtx) (corr : UInt32) (f : Lookup → Lookup) :
    (c.updateLookup corr f).store = c.store := by
  rw [updateLookup]
  split <;> rfl

@[simp] theorem store_sweepOne (c : ShardCtx) (id : UInt32) : (c.sweepOne id).store = c.store := by
  simp only [sweepOne]
  split
  · rfl
  · split_ifs
    · rw [store_finishLookup, store_withNet]
    · rfl

@[simp] theorem store_sweepLookups (c : ShardCtx) : c.sweepLookups.store = c.store :=
  List.foldlRecOn (motive := fun c' : ShardCtx ↦ c'.store = c.store) _ _ rfl
    fun c' h id _ ↦ (store_sweepOne c' id).trans h

@[simp] theorem store_completeCloser (c : ShardCtx) (corr : UInt32) (src : SocketAddr)
    (peers : List PeerInfo) : (c.completeCloser corr src peers).store = c.store := by
  rw [completeCloser, store_sweepLookups, store_updateLookup]

theorem store_onFindNodeResp (c : ShardCtx) (src : SocketAddr) (h : Header) (pkt : Bytes) :
    (c.onFindNodeResp src h pkt).store = c.store := by
  rw [onFindNodeResp]
  split
  · rfl
  · rw [store_completeCloser, store_withNet]

theorem store_onFindValueResp (c : ShardCtx) (src : SocketAddr) (h : Header) (pkt : Bytes) :
    (c.onFindValueResp src h pkt).store
      = (c.findValueRespOps h pkt).foldl StoreOp.exec c.store := by
  rw [onFindValueResp, findValueRespOps]
  cases decodeBody Crates.findValueResp pkt with
  | none => rfl
  | some resp =>
    simp only [store_sweepLookups]
    rcases hres : resp.result with _ | bytes | ps
    · simp
    · simp only
      cases hrec : authenticRecord c.env.unix bytes with
      | none => simp
      | some rec =>
        simp only [acceptRecord, store_updateLookup]
        split_ifs <;> rfl
    · simp

theorem store_onStore (c : ShardCtx) (src : SocketAddr) (h : Header) (pkt : Bytes) :
    (c.onStore src h pkt).store = (c.storeReqOps src h pkt).foldl StoreOp.exec c.store := by
  rw [onStore, storeReqOps]
  cases decodeBody Crates.storeReq pkt with
  | none => rfl
  | some req =>
    simp only
    split_ifs with hok
    · rw [store_withNet, List.foldl_nil]
    · rw [store_withNet, storeVerdict]
      cases storedRecordOf c.env.unix req with
      | error e => rfl
      | ok rec =>
        simp only [List.foldl_cons, List.foldl_nil, StoreOp.exec]
        split <;> simp_all

theorem store_onAnnounce (c : ShardCtx) (src : SocketAddr) (h : Header) (pkt : Bytes) :
    (c.onAnnounce src h pkt).store = (c.announceReqOps src pkt).foldl StoreOp.exec c.store := by
  rw [onAnnounce, announceReqOps]
  cases decodeBody Crates.announceProviderReq pkt with
  | none => rfl
  | some req =>
    simp only
    split_ifs with hok
    · rfl
    · cases Key.fromBytes req.key with
      | none => rfl
      | some key =>
        simp only [store_withNet]
        cases req.selfDescriptor.bind providerOf with
        | none => rfl
        | some p => rfl

theorem store_handleApp (c : ShardCtx) (src : SocketAddr) (pkt : Bytes) (authenticated : Bool) :
    (c.handleApp src pkt authenticated).1.store
      = (c.appOps src pkt).foldl StoreOp.exec c.store := by
  rw [handleApp, appOps]
  cases Header.decode pkt with
  | none => rfl
  | some h =>
    simp only
    cases h.ty with
    | findNodeResp => exact store_onFindNodeResp c src h pkt
    | findValueResp => exact store_onFindValueResp c src h pkt
    | storeReq => exact store_onStore c src h pkt
    | announceProviderReq => exact store_onAnnounce c src h pkt
    | error => rfl
    | _ => exact store_withNet c _

theorem store_putPlain (c : ShardCtx) (value : Bytes) (ttlSecs : UInt64) (tx : Chan) :
    (c.putPlain value ttlSecs tx).store = (c.store.putImmutableTtl c.env.unix value ttlSecs).2 := by
  rw [putPlain]
  split <;> simp_all

theorem store_handlePut (c : ShardCtx) (value : Bytes) (ttlSecs : UInt64) (tx : Chan) :
    (c.handlePut value ttlSecs tx).store
      = (c.commandOps (.put value ttlSecs)).foldl StoreOp.exec c.store := by
  rw [handlePut, commandOps]
  cases hlen : Erasure.shouldErasure value.length with
  | false => simp [store_putPlain, StoreOp.exec]
  | true =>
    cases henc : Erasure.encode value with
    | none => simp [store_putPlain, StoreOp.exec]
    | some shards => simp [StoreOp.exec]

theorem store_handlePutMutable (c : ShardCtx) (rec : StoredRecord) (tx : Chan) :
    (c.handlePutMutable rec tx).store = (c.store.putRecord rec false).2 := by
  rw [handlePutMutable]
  split <;> simp_all

theorem store_handleCmd (c : ShardCtx) (cmd : ShardCmd) (tx : Chan) :
    (c.handleCmd cmd tx).store = (c.commandOps cmd).foldl StoreOp.exec c.store := by
  cases cmd with
  | put value ttlSecs => exact store_handlePut c value ttlSecs tx
  | get key =>
    simp only [handleCmd, handleGet, commandOps, List.foldl_nil]
    split <;> simp
  | putMutable rec => exact store_handlePutMutable c rec tx
  | findProviders key =>
    simp only [handleCmd, handleFindProviders, commandOps, List.foldl_nil]
    split_ifs <;> simp
  | _ => rfl

theorem store_onTimer (c : ShardCtx) (kind : TimerKind) :
    (c.onTimer kind).store = (c.taskOps (.timer kind)).foldl StoreOp.exec c.store := by
  cases kind with
  | lookupTick => exact store_sweepLookups _
  | _ => rfl

theorem store_handleDatagram (c : ShardCtx) (src : SocketAddr) (pkt : Bytes) :
    (c.handleDatagram src pkt).1.store = c.store := by
  obtain ⟨wg, sybil, sent, heq⟩ := c.handleDatagram_fst src pkt
  rw [heq]

theorem store_runTask (c : ShardCtx) (t : Task) :
    (c.runTask t).1.store = (c.taskOps t).foldl StoreOp.exec c.store := by
  cases t with
  | app src pkt authenticated => exact store_handleApp c src pkt authenticated
  | drain src =>
    obtain ⟨wg, sent, heq⟩ := c.drainTurn_fst src
    rw [runTask, heq]
    rfl
  | flush src => rfl
  | timer kind => exact store_onTimer c kind

end ShardCtx

/-- **The store of a shard changes by store operations only.** -/
theorem Machine.store_step (m : Machine) (e : Event) :
    (m.step e).ctx.store = (m.storeOps e).foldl StoreOp.exec m.ctx.store := by
  obtain ⟨env, input⟩ := e
  cases input with
  | datagram src pkt =>
    simp only [step, storeOps, List.foldl_nil]
    split_ifs
    · exact ShardCtx.store_handleDatagram (m.ctxAt env) src pkt
    · rfl
  | command cmd =>
    simp only [step, storeOps]
    split_ifs
    · exact ShardCtx.store_handleCmd (m.ctxAt env) cmd _
    · rfl
  | tick =>
    simp only [step, storeOps, List.foldl_nil]
    split_ifs <;> rfl
  | work =>
    simp only [step, storeOps]
    cases m.work with
    | nil => rfl
    | cons t ts => exact ShardCtx.store_runTask (m.ctxAt env) t
  | reorder r => rfl
  | exit =>
    simp only [step, storeOps]
    split_ifs <;> rfl

namespace ShardRun

/-- The operations of a whole run, from a given state. -/
def opsFrom : Machine → List Event → List StoreOp
  | _, [] => []
  | m, e :: es => m.storeOps e ++ opsFrom (m.step e) es

theorem store_foldl (m : Machine) (es : List Event) :
    (es.foldl Machine.step m).ctx.store = (opsFrom m es).foldl StoreOp.exec m.ctx.store := by
  induction es generalizing m with
  | nil => rfl
  | cons e es ih => rw [List.foldl_cons, ih, opsFrom, List.foldl_append, Machine.store_step]

/-- The history of the store along a run. -/
def storeRun (run : ShardRun) : StoreRun where
  start := run.start.store
  ops := opsFrom run.start.machine run.events

/-- **Refinement.** The store of a reachable shard is the result of a store history. -/
theorem store_final (run : ShardRun) : run.final.ctx.store = run.storeRun.final :=
  store_foldl run.start.machine run.events

end ShardRun

end Molia
