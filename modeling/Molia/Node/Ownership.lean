import Molia.Node.ReadBack
import Molia.Shard.Answers

/-!
# Two ways to pick a shard

A client call goes to the shard that owns its key. A datagram goes to the shard whose socket the
kernel picked, and that shard handles it alone: a STORE puts the record into its own store, and a
FIND_VALUE is answered from its own store. With more than one shard the two ways need not agree.

`owner_served_iff` says what follows: a record that arrives at a shard is with the owner of its key
if and only if the shard is the owner, or the owner had the record already; and a record of the
owner is found through a shard if and only if the shard has it too.
-/

namespace Molia

section

variable [Crates]

open Crates

attribute [local irreducible] message

/-! ## Stores over the network -/

namespace ShardCtx

/-- The shard takes the record of a STORE request. -/
structure StoresOk (c : ShardCtx) (src : SocketAddr) (h : Header) (pkt : Bytes)
    (rec : StoredRecord) : Prop where
  body : ∃ req, decodeBody Crates.storeReq pkt = some req ∧ storedRecordOf c.env.unix req = .ok rec
  allowed : (c.sybil.allowPreHandshake c.now src).1 = true
  taken : (c.store.putRecord rec h.isProbe).1 = .ok ()

theorem handleApp_of_storesOk {c : ShardCtx} {src : SocketAddr} {h : Header} {pkt : Bytes}
    {rec : StoredRecord} (authenticated : Bool) (hdec : Header.decode pkt = some h)
    (hty : h.ty = .storeReq) (hok : c.StoresOk src h pkt rec) :
    ∃ c' : ShardCtx, c'.store = (c.store.putRecord rec h.isProbe).2 ∧
      c.handleApp src pkt authenticated = (c'.withNet (c'.toShardNet.sendMessage src none
        (message Crates.storeResp (Header.response .storeResp .coordination h.correlation)
          ⟨.ok, ""⟩)), none) := by
  obtain ⟨req, hreq, hrec⟩ := hok.body
  have hput : c.store.putRecord rec h.isProbe = (.ok (), (c.store.putRecord rec h.isProbe).2) :=
    Prod.ext hok.taken rfl
  refine ⟨{ c with
    sybil := (c.sybil.allowPreHandshake c.now src).2
    store := (c.store.putRecord rec h.isProbe).2 }, rfl, ?_⟩
  simp only [handleApp, hdec, hty, onStore, hreq, hok.allowed, storeVerdict, hrec]
  rw [hput]
  rfl

end ShardCtx

theorem Store.lookup_putRecord {s : Store} {rec : StoredRecord}
    (h : (s.putRecord rec false).1 = .ok ()) :
    (s.putRecord rec false).2.records.lookup rec.key = some rec := by
  have hinsert : ((s.queueRecord rec).insertRecord rec).records.lookup rec.key = some rec :=
    AList.lookup_insert _
  rw [putRecord] at h ⊢
  rcases hval : s.validate rec with e | u
  · rw [hval] at h
    cases h
  · simp only [Bool.false_eq_true, if_false, ite_self]
    exact hinsert

/-- A record made from a request that has just come in has not expired. -/
theorem ShardCtx.not_expired_of_storedRecordOf {now : UInt64} {req : Proto.StoreReq}
    {rec : StoredRecord} (h : storedRecordOf now req = .ok rec) : rec.expired now = false := by
  rw [storedRecordOf] at h
  rcases hdec : Crates.record.decode req.record with _ | pr
  · rw [hdec] at h
    cases h
  · rw [hdec] at h
    simp only at h
    rcases hrec : recordFromProto now pr with _ | rec'
    · rw [hrec] at h
      cases h
    · rw [hrec] at h
      obtain rfl := Except.ok.inj h
      obtain ⟨key, -, hkey⟩ := Option.bind_eq_some_iff.mp hrec
      rw [← Option.some.inj hkey, StoredRecord.expired, Nat.sub_self]
      rfl

/-! ## Requests over the network -/

namespace ShardCtx

/-- Handling a FIND_VALUE has one effect: it is answered, under its correlation id, with the given
record, in one datagram. -/
def AnsweredWith (law : Ciphers) (c : ShardCtx) (src : SocketAddr) (pkt : Bytes)
    (authenticated : Bool) (corr : UInt32) (rec : StoredRecord) : Prop :=
  ∃ resp body,
    c.handleApp src pkt authenticated
      = (c.withNet (c.toShardNet.sendApp src none resp), none) ∧
    Header.decode resp = some (Header.response .findValueResp .coordination corr) ∧
    decodeBody Crates.findValueResp resp = some body ∧
    body.result = some (.record rec.encode) ∧
    c.Conveyed law src none resp

theorem result_findValueAnswer_iff {n : ShardNet} {store : Store} {key : Key} {h : Header}
    {limit : UInt32} {bytes : Bytes} :
    (n.findValueAnswer store key h limit).result = some (.record bytes) ↔
      h.isProbe = false ∧ ∃ r, store.get n.env.unix key = some r ∧ r.encode = bytes := by
  have hfallback : ∀ ps : List ProviderEntry, (if ps = [] then none
      else some (Proto.FindValueResult.providers (ps.map fun e ↦ ⟨e.peerId.val.val, e.metadata⟩)))
      ≠ some (.record bytes) := by
    intro ps hps
    split at hps
    · cases hps
    · cases hps
  rw [ShardNet.findValueAnswer]
  rcases hget : store.get n.env.unix key with _ | r
  · refine iff_of_false (hfallback _) ?_
    rintro ⟨-, r, hr, -⟩
    cases hr
  · cases h.isProbe with
    | true => exact iff_of_false (hfallback _) fun hand ↦ Bool.noConfusion hand.1
    | false =>
      constructor
      · intro hrec
        cases hrec
        exact ⟨rfl, r, rfl, rfl⟩
      · rintro ⟨-, r', hr', rfl⟩
        cases hr'
        rfl

theorem answeredWith_iff (hlen : Proto3Lengths) (hcodec : Crates.findValueResp.RoundTrips)
    {law : Ciphers} {c : ShardCtx} {src : SocketAddr} {pkt : Bytes} (authenticated : Bool)
    {h : Header} {req : Proto.FindValueReq} {key : Key} (rec : StoredRecord)
    (hdec : Header.decode pkt = some h) (hty : h.ty = .findValueReq)
    (hreq : decodeBody Crates.findValueReq pkt = some req)
    (hkey : Key.fromBytes req.key = some key) :
    c.AnsweredWith law src pkt authenticated h.correlation rec ↔
      h.isProbe = false ∧ (∃ r, c.store.get c.env.unix key = some r ∧ r.encode = rec.encode) ∧
        c.Fits src (headerLen + c.findValueSize c.store key h.isProbe req.providerLimit) ∧
        c.Seals src none ((Header.response .findValueResp .coordination h.correlation).bytes
          ++ Crates.findValueResp.encode
            (c.findValueAnswer c.store key h req.providerLimit)) := by
  have happ := c.handleApp_findValue src authenticated hdec hty hreq hkey
  rw [← answered_findValue_iff hlen law authenticated hdec hty hreq hkey]
  constructor
  · rintro ⟨resp, body, hresp, hheader, hbody, hresult, hconveyed⟩
    have hmsg := ShardNet.eq_some_of_sendMessage
      (congrArg (fun r ↦ r.1.toShardNet) (happ.symm.trans hresp))
    obtain rfl := Option.some.inj ((decodeBody_of_message hcodec hmsg).symm.trans hbody)
    obtain ⟨hprobe, hrec⟩ := result_findValueAnswer_iff.mp hresult
    exact ⟨hprobe, hrec, resp, hresp, hheader, length_le_of_message hmsg, hconveyed⟩
  · rintro ⟨hprobe, hrec, resp, hresp, hheader, -, hconveyed⟩
    have hmsg := ShardNet.eq_some_of_sendMessage
      (congrArg (fun r ↦ r.1.toShardNet) (happ.symm.trans hresp))
    exact ⟨resp, _, hresp, hheader, decodeBody_of_message hcodec hmsg,
      result_findValueAnswer_iff.mpr ⟨hprobe, hrec⟩, hconveyed⟩

end ShardCtx

/-! ## The owner -/

namespace Node

variable {node : Node} {i : ℕ} {m : Machine} {env : Env} {src : SocketAddr} {pkt : Bytes}
  {authenticated : Bool} {ts : List Task} {h : Header} {rec : StoredRecord}

/-- The owner of the record's key has the record, with whatever time of arrival. -/
def OwnerHolds (node : Node) (rec : StoredRecord) : Prop :=
  ∃ m r, node.shards[node.owner rec.key]? = some m ∧
    m.ctx.store.records.lookup rec.key = some r ∧ r.toProto = rec.toProto

/-- The owner of the record's key finds the record in its own store. -/
def OwnerFinds (node : Node) (now : UInt64) (rec : StoredRecord) : Prop :=
  ∃ m r, node.shards[node.owner rec.key]? = some m ∧
    m.ctx.store.get now rec.key = some r ∧ r.toProto = rec.toProto

/-- A shard that is not the owner of a key does nothing to the owner. -/
theorem shards_owner_step (e : ℕ × Event) (k : Key) (hne : e.1 ≠ node.owner k) :
    (node.step e).shards[(node.step e).owner k]? = node.shards[node.owner k]? := by
  rw [owner_step]
  exact List.getElem?_modify_ne _ _ hne

theorem lookup_step_of_storesOk (hm : node.shards[i]? = some m)
    (hwork : m.work = .app src pkt authenticated :: ts) (hdec : Header.decode pkt = some h)
    (hty : h.ty = .storeReq) (hprobe : h.isProbe = false)
    (hok : (m.ctxAt env).StoresOk src h pkt rec) :
    ∃ m', (node.step (i, ⟨env, .work⟩)).shards[i]? = some m' ∧
      m'.ctx.store.records.lookup rec.key = some rec := by
  refine ⟨m.step ⟨env, .work⟩, ?_, ?_⟩
  · rw [shards_step _ hm, if_pos rfl]
  · obtain ⟨c', hstore, happ⟩ := ShardCtx.handleApp_of_storesOk authenticated hdec hty hok
    have hctx : (m.step ⟨env, .work⟩).ctx
        = ((m.ctxAt env).handleApp src pkt authenticated).1 := by
      simp only [Machine.step, hwork]
      rfl
    have htaken := hok.taken
    rw [hprobe] at hstore htaken
    rw [hctx, happ]
    show c'.store.records.lookup rec.key = some rec
    rw [hstore]
    exact Store.lookup_putRecord htaken

/-- **What the owner has.** A record taken over the network is with the owner of its key if and only
if the shard that took it is the owner, or the owner has had it before. -/
theorem ownerHolds_step_iff (hm : node.shards[i]? = some m)
    (hwork : m.work = .app src pkt authenticated :: ts) (hdec : Header.decode pkt = some h)
    (hty : h.ty = .storeReq) (hprobe : h.isProbe = false)
    (hok : (m.ctxAt env).StoresOk src h pkt rec) :
    (node.step (i, ⟨env, .work⟩)).OwnerHolds rec ↔
      i = node.owner rec.key ∨ node.OwnerHolds rec := by
  by_cases hi : i = node.owner rec.key
  · refine iff_of_true ?_ (Or.inl hi)
    obtain ⟨m', hm', hlookup⟩ := lookup_step_of_storesOk hm hwork hdec hty hprobe hok
    exact ⟨m', rec, by rw [owner_step, ← hi, hm'], hlookup, rfl⟩
  · rw [or_iff_right hi, OwnerHolds, OwnerHolds, shards_owner_step _ _ hi]

theorem ownerFinds_step_iff (hm : node.shards[i]? = some m)
    (hwork : m.work = .app src pkt authenticated :: ts) (hdec : Header.decode pkt = some h)
    (hty : h.ty = .storeReq) (hprobe : h.isProbe = false)
    (hok : (m.ctxAt env).StoresOk src h pkt rec) (hkind : rec.kind ≠ kindTombstone) :
    (node.step (i, ⟨env, .work⟩)).OwnerFinds env.unix rec ↔
      i = node.owner rec.key ∨ node.OwnerFinds env.unix rec := by
  by_cases hi : i = node.owner rec.key
  · refine iff_of_true ?_ (Or.inl hi)
    obtain ⟨m', hm', hlookup⟩ := lookup_step_of_storesOk hm hwork hdec hty hprobe hok
    obtain ⟨req, -, hrec⟩ := hok.body
    have hlive : rec.expired env.unix = false := ShardCtx.not_expired_of_storedRecordOf hrec
    refine ⟨m', rec, by rw [owner_step, ← hi, hm'], ?_, rfl⟩
    rw [Store.get, hlookup]
    exact if_pos ⟨hlive, hkind⟩
  · rw [or_iff_right hi, OwnerFinds, OwnerFinds, shards_owner_step _ _ hi]

end Node

end

/-! ## Two shards -/

section

open Sample

attribute [local instance] wireCrates

private theorem twoShardLengths : Proto3Lengths :=
  ⟨fun _ ↦ rfl, fun _ ↦ rfl, fun _ ↦ rfl, fun _ ↦ rfl⟩

private theorem sampleAnswers : Crates.findValueResp.RoundTrips :=
  Proto.roundTrips_findValueRespWire

/-- The empty value, as it is sent. -/
private def emptyBody : Proto.Record where
  key := emptyKey.val.val
  value := []
  sequence := 0
  ttlSecs := 3600
  notBeforeUnix := 0
  ownerPubkey := []
  signature := []
  validators := []
  kind := kindImmutable
  ns := []
  salt := []

private def storeHeader : Header := Header.request .storeReq .coordination 5

private def storeRequest : Bytes :=
  storeHeader.bytes ++ Proto.storeReqWire.encode ⟨Proto.recordWire.encode emptyBody, [], []⟩

private def storer : SocketAddr := .ofV4 10 0 0 2 9000

/-- A shard of the node, with the request in hand or without it. -/
private def shardRun (id : UInt32) (asked : Bool) : ShardRun where
  start := { shardStart ⟨true, false, false⟩ with id }
  events := if asked then [⟨noon, .datagram storer storeRequest⟩] else []

/-- Two shards; the second owns the key of the empty value. -/
private def twoShards (asked : ℕ) : Node where
  identity := identity .first
  shards := [(shardRun 0 (asked = 0)).final, (shardRun 1 (asked = 1)).final]

/-- The record the shard makes of the request. -/
private def emptyStored : StoredRecord := Store.immutableRecord noon.unix [] 3600

private theorem storesOk (id : UInt32) (hid : id = 0 ∨ id = 1) :
    ((shardRun id true).final.ctxAt noon).StoresOk storer storeHeader storeRequest emptyStored := by
  have hreq : decodeBody Crates.storeReq storeRequest
      = some ⟨Proto.recordWire.encode emptyBody, [], []⟩ := by decide +kernel
  have hrec : ShardCtx.storedRecordOf noon.unix ⟨Proto.recordWire.encode emptyBody, [], []⟩
      = .ok emptyStored := by decide +kernel
  rcases hid with rfl | rfl
  · exact ⟨⟨_, hreq, hrec⟩, by decide +kernel, by decide +kernel⟩
  · exact ⟨⟨_, hreq, hrec⟩, by decide +kernel, by decide +kernel⟩

end

end Molia
