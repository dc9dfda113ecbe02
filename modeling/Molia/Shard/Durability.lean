import Molia.Shard.Following
import Molia.Shard.History
import Molia.Store.Names
import Molia.Store.Slot

/-!
# Restarts

A shard that is shut down writes what is queued for its log and ends. Started again over the same
directory, it serves every record that it held: with the same fields, as if stored anew. This goes
for every run, whatever datagrams, commands and timers there are in it, as long as the disk takes
what is written and no record is put with a time to live of zero.

The log is not changed by the garbage collector, so it may hold more than the memory does. The
invariant therefore speaks of a second map of records, of which the first is a part: the one that a
shard without a garbage collector would have. It is in step with the log in the sense of
`DataDir.Logged`, and each record in it was recovered at the start or taken in the run. The memory
and the log share the file with the rows of the peer index, which every handler may queue.

The log at the end continues the log at the start, so that the theorem can be used again for the run
that follows.
-/

namespace Molia

section

variable [Crates]

open Crates

attribute [local irreducible] message

/-! ## Rows of the peer index -/

namespace ShardNet

/-- Some peers are entered into the index. -/
def Rows (n n' : ShardNet) : Prop :=
  ∃ infos : List PeerInfo, n'.peers = infos.foldl Peerstore.upsert n.peers

namespace Rows

variable {n n' : ShardNet}

theorem of_eq (h : n'.peers = n.peers) : Rows n n' := ⟨[], h⟩

theorem single {info : PeerInfo} (h : n'.peers = n.peers.upsert info) : Rows n n' := ⟨[info], h⟩

theorem followsPunches : FollowsPunches Rows where
  refl _ := of_eq rfl
  trans := by
    rintro n n' n'' ⟨infos, h⟩ ⟨infos', h'⟩
    exact ⟨infos ++ infos', by rw [h', h, List.foldl_append]⟩
  posts h := of_eq (congrArg Knowledge.peers h.sends.knowledge)
  attempts _ _ := of_eq rfl
  schedule _ _ := of_eq rfl

theorem notePeerKeys (n : ShardNet) (src : SocketAddr) (x25519 ed25519 sig : Bytes) :
    Rows n (n.notePeerKeys src x25519 ed25519 sig).2 := by
  rw [ShardNet.notePeerKeys]
  split
  · exact of_eq rfl
  · split_ifs
    · exact of_eq rfl
    · exact of_eq rfl
    · exact single rfl

theorem learnAddr (n : ShardNet) (src : SocketAddr) (id : Option NodeId) :
    Rows n (n.learnAddr src id) := by
  rcases id with _ | id
  · exact single rfl
  · exact single rfl

theorem injectPeer (n : ShardNet) (info : PeerInfo) : Rows n (ShardCtx.injectPeer n info) := by
  rw [ShardCtx.injectPeer]
  rcases info.x25519 with _ | x
  · exact single rfl
  · rcases info.primaryAddr with _ | addr
    · exact single rfl
    · exact single rfl

theorem follows : FollowsHandlers Rows where
  toFollowsPosts := followsPunches.toFollowsPosts
  relays _ _ _ := of_eq rfl
  sybil _ _ := of_eq rfl
  notePeerKeys := notePeerKeys
  learnAddr := learnAddr
  mapped _ _ := of_eq rfl
  insertPeer _ _ := of_eq rfl
  upsertPeer _ _ := single rfl
  injectPeer := injectPeer
  startPunch n rendezvous peer := followsPunches.startPunch rendezvous n peer
  answerPunch := followsPunches.answerPunch fun _ _ ↦ of_eq rfl
  replied _ _ := of_eq rfl

end Rows

end ShardNet

namespace ShardCtx

open ShardNet

theorem rows_onTimer (c : ShardCtx) {kind : TimerKind} (h : kind ≠ .peerstoreFlush) :
    Rows c.toShardNet (c.onTimer kind).toShardNet :=
  follows_onTimer Rows.follows.toFollowsRelays Rows.followsPunches (fun _ _ ↦ Rows.of_eq rfl)
    (fun _ _ ↦ Rows.of_eq rfl) (fun n ↦ Rows.of_eq (Punches.onKeepalive n).peers) c h

/-- The store and the peer index, which share a directory. -/
def dataDir (c : ShardCtx) : DataDir := ⟨c.store, c.peers⟩

theorem flushWal_not_mem_appOps (c : ShardCtx) (src : SocketAddr) (pkt : Bytes) :
    .flushWal ∉ c.appOps src pkt := by
  intro hmem
  rw [appOps] at hmem
  split at hmem
  · cases hmem
  · split at hmem
    · rw [findValueRespOps] at hmem
      split at hmem
      · cases hmem
      · split at hmem
        · split at hmem
          · split_ifs at hmem
            · cases hmem
            · cases List.mem_singleton.mp hmem
          · cases hmem
        · cases hmem
    · rw [storeReqOps] at hmem
      split at hmem
      · cases hmem
      · split_ifs at hmem
        · cases hmem
        · split at hmem
          · cases hmem
          · cases List.mem_singleton.mp hmem
    · rw [announceReqOps] at hmem
      split at hmem
      · cases hmem
      · split_ifs at hmem
        · cases hmem
        · split at hmem
          · cases hmem
          · split at hmem
            · cases List.mem_singleton.mp hmem
            · cases hmem
    · cases hmem

/-- A task that is not the flush queues rows and carries out other operations of the store. -/
theorem rows_runTask (c : ShardCtx) {t : Task} (h : t ≠ .timer .peerstoreFlush) :
    Rows c.toShardNet (c.runTask t).1.toShardNet ∧ .flushWal ∉ c.taskOps t := by
  rcases t with ⟨src, pkt, authenticated⟩ | src | src | kind
  · exact ⟨follows_handleApp Rows.follows c src pkt authenticated,
      c.flushWal_not_mem_appOps src pkt⟩
  · refine ⟨?_, List.not_mem_nil⟩
    obtain ⟨wg, sent, heq⟩ := c.drainTurn_fst src
    rw [runTask, heq]
    exact Rows.of_eq rfl
  · exact ⟨Rows.of_eq (congrArg Knowledge.peers (Sends.flushPendingWg c.toShardNet src).knowledge),
      List.not_mem_nil⟩
  · have hkind : kind ≠ .peerstoreFlush := fun heq ↦ h (congrArg Task.timer heq)
    refine ⟨c.rows_onTimer hkind, ?_⟩
    rcases kind with _ | _ | _ | _ | _
    · exact List.not_mem_nil
    · exact absurd rfl hkind
    · intro hmem
      cases List.mem_singleton.mp hmem
    · exact List.not_mem_nil
    · exact List.not_mem_nil

theorem flushWal_not_mem_commandOps (c : ShardCtx) (cmd : ShardCmd) :
    .flushWal ∉ c.commandOps cmd := by
  intro hmem
  rcases cmd with seeds | ⟨value, ttlSecs⟩ | key | rec | ⟨key, metadata⟩ | key | info | _
  · cases hmem
  · rw [commandOps] at hmem
    split_ifs at hmem
    · cases List.mem_singleton.mp hmem
    · cases List.mem_singleton.mp hmem
  · cases hmem
  · cases List.mem_singleton.mp hmem
  · cases List.mem_singleton.mp hmem
  · cases hmem
  · cases hmem
  · cases hmem

end ShardCtx

namespace Machine

open ShardNet

/-- A step flushes the directory, or it queues rows and carries out other operations of the
store. -/
theorem dataDir_step (m : Machine) (e : Event) :
    (m.step e).ctx.dataDir = (m.ctx.dataDir.flush e.env.room).2 ∨
      Rows m.ctx.toShardNet (m.step e).ctx.toShardNet ∧ .flushWal ∉ m.storeOps e := by
  obtain ⟨env, input⟩ := e
  cases input with
  | datagram src pkt =>
    refine Or.inr ⟨?_, List.not_mem_nil⟩
    by_cases hready : m.Ready
    · obtain ⟨wg, sybil, sent, heq⟩ := (m.ctxAt env).handleDatagram_fst src pkt
      have hstep : (m.step ⟨env, .datagram src pkt⟩).ctx
          = ((m.ctxAt env).handleDatagram src pkt).1 := by simp [step, hready]
      rw [hstep, heq]
      exact Rows.of_eq rfl
    · rw [show m.step ⟨env, .datagram src pkt⟩ = m from if_neg hready]
      exact Rows.of_eq rfl
  | command cmd =>
    right
    by_cases hready : m.Ready
    · have hstep : (m.step ⟨env, .command cmd⟩).ctx
          = (m.ctxAt env).handleCmd cmd m.asked.length := by simp [step, hready, takeCommand]
      have hops : m.storeOps ⟨env, .command cmd⟩ = (m.ctxAt env).commandOps cmd := if_pos hready
      rw [hstep, hops]
      exact ⟨ShardCtx.follows_handleCmd Rows.follows (m.ctxAt env) cmd _,
        (m.ctxAt env).flushWal_not_mem_commandOps cmd⟩
    · have hops : m.storeOps ⟨env, .command cmd⟩ = [] := if_neg hready
      rw [show m.step ⟨env, .command cmd⟩ = m from if_neg hready, hops]
      exact ⟨Rows.of_eq rfl, List.not_mem_nil⟩
  | tick =>
    refine Or.inr ⟨?_, List.not_mem_nil⟩
    by_cases hidle : m.work = [] ∧ m.phase ≠ .exited
    · simp only [step, if_pos hidle]
      exact Rows.of_eq rfl
    · rw [show m.step ⟨env, .tick⟩ = m from if_neg hidle]
      exact Rows.of_eq rfl
  | work =>
    rcases hwork : m.work with _ | ⟨t, ts⟩
    · have hops : m.storeOps ⟨env, .work⟩ = [] := by simp [storeOps, hwork]
      rw [step_work_nil hwork, hops]
      exact Or.inr ⟨Rows.of_eq rfl, List.not_mem_nil⟩
    · have hops : m.storeOps ⟨env, .work⟩ = (m.ctxAt env).taskOps t := by simp [storeOps, hwork]
      rw [step_work hwork, hops]
      by_cases ht : t = .timer .peerstoreFlush
      · rw [ht]
        exact Or.inl rfl
      · exact Or.inr ((m.ctxAt env).rows_runTask ht)
  | reorder r => exact Or.inr ⟨Rows.of_eq rfl, List.not_mem_nil⟩
  | exit =>
    by_cases hstop : m.phase = .stopping ∧ m.work = []
    · simp only [step, if_pos hstop]
      exact Or.inl rfl
    · have hops : m.storeOps ⟨env, .exit⟩ = [] := if_neg hstop
      rw [show m.step ⟨env, .exit⟩ = m from if_neg hstop, hops]
      exact Or.inr ⟨Rows.of_eq rfl, List.not_mem_nil⟩

end Machine

/-! ## The memory and the log -/

namespace StoreOp

/-- The record that an operation offers to the store. -/
def offered : StoreOp → Option StoredRecord
  | putImmutableTtl now value ttlSecs => some (Store.immutableRecord now value ttlSecs)
  | putRecord r _ => some r
  | cacheHit _ _ _ | announceProvider _ _ _ _ | gc _ | flushWal => none

theorem offered_of_inserted {s : Store} {op : StoreOp} {r : StoredRecord}
    (h : op.inserted s = some r) : op.offered = some r := by
  rcases op with ⟨now, value, ttlSecs⟩ | ⟨q, probe⟩ | _ | _ | _ | _
  · rw [inserted] at h
    split_ifs at h
    exact h
  · obtain ⟨-, -, -, rfl⟩ := inserted_putRecord_eq_some.mp h
    rfl
  all_goals cases h

/-- What is offered has a time to live and fits in a frame. -/
def Durable (op : StoreOp) : Prop :=
  ∀ r, op.offered = some r → r.ttlSecs ≠ 0 ∧ r.encode.length < 2 ^ 32

instance (op : StoreOp) : Decidable op.Durable :=
  inferInstanceAs (Decidable (∀ r ∈ op.offered, r.ttlSecs ≠ 0 ∧ r.encode.length < 2 ^ 32))

end StoreOp

namespace DataDir

variable {now : UInt64} {d d' : DataDir} {fs : List Framing.Frame}

/-- The cache and the providers have no part in it. -/
theorem Logged.congr (h : Logged now d fs) (hdir : d'.store.dir = d.store.dir)
    (hwal : d'.store.pendingWal = d.store.pendingWal)
    (hrecords : d'.store.records = d.store.records) (hpeers : d'.peers = d.peers) :
    Logged now d' fs := by
  have hqueue : d'.queue = d.queue := by rw [queue, hwal, hpeers, queue]
  have hview : d'.store.recordView = d.store.recordView := by
    funext k
    rw [Store.recordView, hrecords, Store.recordView]
  refine ⟨?_, ?_, ?_, ?_⟩
  · rw [hdir]
    exact h.dir
  · rw [hpeers]
    exact h.wal
  · rw [hqueue]
    exact h.short
  · rw [hview, hqueue]
    exact h.replays

theorem queue_flush (d : DataDir) (room : Option ℕ) : (d.flush room).2.queue = [] := by
  have hpending : ((d.store.flushWal d.peers).2.flush room).2.pending = [] := by
    rw [Peerstore.flush]
    split
    · rfl
    · dsimp only
      split
      · rfl
      · split_ifs
        · rfl
        · rfl
  change ((d.store.flushWal d.peers).2.flush room).2.pending ++ [] = []
  rw [hpending]
  rfl

/-- The directory with other records in memory. -/
def withRecords (d : DataDir) (records : HashMap Key StoredRecord) : DataDir :=
  { d with store := { d.store with records } }

/-- The log is in step with some records, of which those in memory are a part. All of them are
known. -/
structure Backed (now : UInt64) (known : StoredRecord → Prop) (d : DataDir)
    (fs : List Framing.Frame) (shadow : HashMap Key StoredRecord) : Prop where
  logged : Logged now (d.withRecords shadow) fs
  part : ∀ k r, d.store.records.lookup k = some r → shadow.lookup k = some r
  known : ∀ k r, shadow.lookup k = some r → known r ∧ r.key = k

namespace Backed

variable {known : StoredRecord → Prop} {shadow : HashMap Key StoredRecord}

theorem stored (h : Backed now known d fs shadow) (hcodec : Crates.record.RoundTrips)
    {r : StoredRecord} (hauth : r.authentic = true) (httl : r.ttlSecs ≠ 0)
    (hlen : r.encode.length < 2 ^ 32) (hknown : known r) :
    Backed now known { d with store := (d.store.queueRecord r).insertRecord r } fs
      (shadow.insert r.key r) where
  logged := by
    have hqueue : ∀ s : Store, s.dir = d.store.dir →
        s.queueRecord r = { s with pendingWal := s.pendingWal ++ [r.encode] } := by
      intro s hs
      rw [Store.queueRecord, hs]
      exact if_pos h.logged.dir
    have hlog := h.logged.stored hcodec hauth httl hlen
    rw [hqueue (d.withRecords shadow).store rfl] at hlog
    rw [hqueue d.store rfl]
    exact hlog
  part k r' hr' := by
    rw [Store.records_insertRecord, Store.records_queueRecord, HashMap.lookup_insert_of] at hr'
    rw [HashMap.lookup_insert_of]
    split_ifs at hr' ⊢
    · exact hr'
    · exact h.part k r' hr'
  known k r' hr' := by
    rw [HashMap.lookup_insert_of] at hr'
    split_ifs at hr' with hk
    · obtain rfl := Option.some.inj hr'
      exact ⟨hknown, hk.symm⟩
    · exact h.known k r' hr'

/-- An operation on the store. The garbage collector only takes from the memory. -/
theorem exec (h : Backed now known d fs shadow) (hcodec : Crates.record.RoundTrips) {op : StoreOp}
    (hop : op ≠ .flushWal) (hdurable : op.Durable) (hknown : ∀ r, op.offered = some r → known r) :
    ∃ shadow', Backed now known { d with store := op.exec d.store } fs shadow' := by
  have hput : op.IsPut →
      ∃ shadow', Backed now known { d with store := op.exec d.store } fs shadow' := by
    intro hput
    rw [op.exec_put d.store hput]
    rcases hr : op.inserted d.store with _ | r
    · exact ⟨shadow, h⟩
    · have hoffered := StoreOp.offered_of_inserted hr
      obtain ⟨httl, hlen⟩ := hdurable r hoffered
      exact ⟨_, h.stored hcodec (StoreOp.accepts_of_inserted hr).authentic httl hlen
        (hknown r hoffered)⟩
  rcases op with ⟨t, value, ttlSecs⟩ | ⟨r, probe⟩ | ⟨t, r, checked⟩ | ⟨t, key, peerId, metadata⟩ |
    t | _
  · exact hput trivial
  · exact hput trivial
  · refine ⟨shadow, ?_⟩
    rw [StoreOp.exec, Store.cacheHit]
    split_ifs
    · exact h
    · exact ⟨h.logged.congr rfl rfl rfl rfl, h.part, h.known⟩
  · exact ⟨shadow, h.logged.congr rfl rfl rfl rfl, h.part, h.known⟩
  · refine ⟨shadow, h.logged.congr rfl rfl rfl rfl, fun k r hr ↦ ?_, h.known⟩
    exact h.part k r (HashMap.mem_lookup_retain.mp hr).1
  · exact absurd rfl hop

theorem ops (h : Backed now known d fs shadow) (hcodec : Crates.record.RoundTrips)
    {ops : List StoreOp} (hops : .flushWal ∉ ops) (hdurable : ∀ op ∈ ops, op.Durable)
    (hknown : ∀ op ∈ ops, ∀ r, op.offered = some r → known r) :
    ∃ shadow', Backed now known { d with store := ops.foldl StoreOp.exec d.store } fs shadow' := by
  induction ops generalizing d shadow with
  | nil => exact ⟨shadow, h⟩
  | cons op ops ih =>
    rw [List.forall_mem_cons] at hdurable hknown
    obtain ⟨hop, hrest⟩ := not_or.mp (mt List.mem_cons.mpr hops)
    obtain ⟨shadow', h'⟩ := h.exec hcodec (Ne.symm hop) hdurable.1 hknown.1
    exact ih h' hrest hdurable.2 hknown.2

theorem rows (h : Backed now known d fs shadow)
    (hdisplay : ∀ a, (addrDisplay a).length < 2 ^ 31) (infos : List PeerInfo) :
    Backed now known { d with peers := infos.foldl Peerstore.upsert d.peers } fs shadow := by
  induction infos generalizing d with
  | nil => exact h
  | cons info infos ih =>
    have hlen : (Peerstore.rowPayload info).length < 2 ^ 32 := by
      rw [Peerstore.rowPayload, List.length_append, info.id.val.length_val]
      rcases info.primaryAddr with _ | a
      · simp only [Option.map_none, Option.getD_none, List.length_nil]
        omega
      · have ha := hdisplay a
        simp only [Option.map_some, Option.getD_some]
        omega
    have hty : typeUpsert ≠ Store.typeRecord := by decide
    exact ih (d := { d with peers := d.peers.upsert info })
      ⟨h.logged.row rfl rfl hty hlen, h.part, h.known⟩

theorem flush (h : Backed now known d fs shadow) :
    Backed now known (d.flush none).2 (fs ++ d.queue) shadow := by
  have hok : ((d.withRecords shadow).flush none).1 = .ok () := by
    change ((d.store.flushWal d.peers).2.flush none).1 = .ok ()
    rw [Peerstore.flush]
    split
    · rfl
    · rfl
  exact ⟨(h.logged.flush hok).1, h.part, h.known⟩

end Backed

end DataDir

namespace Store

theorem received_of_frameRecord {now : UInt64} {f : Framing.Frame} {r : StoredRecord}
    (h : frameRecord now f = some r) : r = r.received now := by
  rw [frameRecord] at h
  split at h
  · cases h
  · split at h
    · cases h
    · split at h
      · cases h
      · rename_i hproto
        split at h
        · obtain rfl := Option.some.inj h
          obtain ⟨key, -, hsome⟩ := Option.bind_eq_some_iff.mp hproto
          rw [← Option.some.inj hsome]
          rfl
        · cases h

theorem frameEffect_eq (now now' : UInt64) (f : Framing.Frame) :
    frameEffect now f = frameEffect now' f := by
  have hread : ∀ pr, recordFromProto now pr
      = (recordFromProto now' pr).map fun r ↦ r.received now := by
    intro pr
    rw [recordFromProto, recordFromProto]
    rcases Key.fromBytes pr.key with _ | key
    · rfl
    · rfl
  rw [frameEffect, frameEffect, frameRecord, frameRecord]
  split
  · rfl
  · rcases Crates.record.decode f.payload with _ | pr
    · rfl
    · dsimp only
      rw [hread pr]
      rcases recordFromProto now' pr with _ | r
      · rfl
      · by_cases hauth : r.authentic = true
        · have hsame : (r.received now).authentic = true := hauth
          simp only [Option.map_some, if_pos hauth, if_pos hsame]
          rfl
        · have hsame : ¬(r.received now).authentic = true := hauth
          simp only [Option.map_some, if_neg hauth, if_neg hsame]

theorem recordView_openDir (now : UInt64) (dir : String) {fs : List Framing.Frame}
    (hshort : ∀ f ∈ fs, f.payload.length < 2 ^ 32) :
    (openDir now dir (some (fs.flatMap (Framing.frameBytes crc32)))).recordView
      = Overwrites.replay (frameEffect now) (fun _ ↦ none) fs := by
  rw [openDir, replayWal, walRecords, Framing.frames_flatMap hshort]
  exact recordView_foldl now fs { new with dir := some dir }

theorem received_of_lookup_openDir {now : UInt64} {dir : String} {wal : Bytes} {k : Key}
    {r : StoredRecord} (h : (openDir now dir (some wal)).records.lookup k = some r) :
    r = r.received now := by
  have hstart : (StoreStart.openDir now dir (some wal)).store.records.lookup k = some r := h
  obtain ⟨f, -, hf⟩ := List.mem_filterMap.mp (StoreStart.lookup_store hstart).1
  exact received_of_frameRecord hf

omit [Crates] in
theorem queued_foldl_insertRecord (l : List StoredRecord) (s : Store) :
    (l.foldl insertRecord s).dir = s.dir ∧ (l.foldl insertRecord s).pendingWal = s.pendingWal := by
  induction l generalizing s with
  | nil => exact ⟨rfl, rfl⟩
  | cons r l ih => exact ih (s.insertRecord r)

end Store

omit [Crates] in
/-- What is written of a record determines it, but for the two fields that are not. -/
theorem StoredRecord.received_eq_of_toProto {r r' : StoredRecord} (h : r'.toProto = r.toProto)
    (now : UInt64) : r'.received now = r.received now := by
  have hkey : r'.key = r.key := by
    obtain ⟨⟨⟨_, _⟩⟩, _⟩ := r
    obtain ⟨⟨⟨_, _⟩⟩, _⟩ := r'
    obtain rfl := congrArg Proto.Record.key h
    rfl
  have hfields := h
  simp only [toProto, Proto.Record.mk.injEq] at hfields
  obtain ⟨-, hvalue, hseq, httl, hnb, howner, hsig, -, hkind, hns, hsalt⟩ := hfields
  rw [received, received, hkey, hvalue, hseq, httl, hnb, howner, hsig, hkind, hns, hsalt]

/-! ## Runs -/

/-- The disk has room, and what is offered to the store can be kept. -/
def Machine.Durable (m : Machine) (e : Event) : Prop :=
  e.env.room = none ∧ ∀ op ∈ m.storeOps e, op.Durable

instance (m : Machine) (e : Event) : Decidable (m.Durable e) :=
  inferInstanceAs (Decidable (e.env.room = none ∧ ∀ op ∈ m.storeOps e, op.Durable))

/-- The shard starts over a directory whose log holds these frames. -/
structure ShardStart.Over (s : ShardStart) (dir : String) (fs : List Framing.Frame) : Prop where
  short : ∀ f ∈ fs, f.payload.length < 2 ^ 32
  store : ∃ now, s.store = .openDir now dir (some (fs.flatMap (Framing.frameBytes crc32)))
  wal : s.peers.wal = some (fs.flatMap (Framing.frameBytes crc32))
  pending : s.peers.pending = []

/-- The record was in the log at the start, or was offered to the store in the run. -/
def StoreRun.Knows (run : StoreRun) (r : StoredRecord) : Prop :=
  r ∈ run.start.recovered ∨ ∃ op ∈ run.ops, op.offered = some r

theorem ShardStart.Over.backed {s : ShardStart} {dir : String} {fs : List Framing.Frame}
    (h : s.Over dir fs) (now : UInt64) {known : StoredRecord → Prop}
    (hknown : ∀ r ∈ s.store.recovered, known r) :
    s.machine.ctx.dataDir.Backed now known fs s.store.store.records := by
  obtain ⟨start, hstore⟩ := h.store
  have hsame : s.store.store
      = Store.openDir start dir (some (fs.flatMap (Framing.frameBytes crc32))) := by
    rw [hstore]
    rfl
  have hqueued := Store.queued_foldl_insertRecord
    (Store.walRecords start (fs.flatMap (Framing.frameBytes crc32)))
    { Store.new with dir := some dir }
  have hqueue : s.machine.ctx.dataDir.queue = [] := by
    change s.peers.pending ++ s.store.store.pendingWal.map Store.recordFrame = []
    rw [h.pending, hsame]
    exact congrArg (List.map Store.recordFrame) hqueued.2
  refine ⟨⟨?_, h.wal, ?_, ?_⟩, fun k r hr ↦ hr, fun k r hr ↦ ?_⟩
  · change s.store.store.dir.isSome = true
    rw [hsame]
    exact congrArg Option.isSome hqueued.1
  · change ∀ f ∈ fs ++ s.machine.ctx.dataDir.queue, _
    rw [hqueue, List.append_nil]
    exact h.short
  · change s.store.store.recordView = Overwrites.replay (Store.frameEffect now) (fun _ ↦ none)
      (fs ++ s.machine.ctx.dataDir.queue)
    rw [hqueue, List.append_nil, hsame, Store.recordView_openDir start dir h.short,
      funext (Store.frameEffect_eq start now)]
  · obtain ⟨hmem, hkey⟩ := StoreStart.lookup_store hr
    exact ⟨hknown r hmem, hkey⟩

namespace Machine

variable {known : StoredRecord → Prop} {now : UInt64} {fs : List Framing.Frame}

/-- The log goes on from these frames, and nothing is left of a shard that has exited. -/
structure Keeps (now : UInt64) (known : StoredRecord → Prop) (fs : List Framing.Frame)
    (m : Machine) : Prop where
  backed : ∃ fs' shadow, fs <+: fs' ∧ m.ctx.dataDir.Backed now known fs' shadow
  exited : m.phase = .exited → m.work = [] ∧ m.ctx.dataDir.queue = []

theorem backed_step (hcodec : Crates.record.RoundTrips)
    (hdisplay : ∀ a, (addrDisplay a).length < 2 ^ 31) {m : Machine} {e : Event}
    {shadow : HashMap Key StoredRecord} (h : m.ctx.dataDir.Backed now known fs shadow)
    (hdurable : m.Durable e) (hknown : ∀ op ∈ m.storeOps e, ∀ r, op.offered = some r → known r) :
    ∃ fs' shadow', fs <+: fs' ∧ (m.step e).ctx.dataDir.Backed now known fs' shadow' := by
  rcases m.dataDir_step e with hflush | ⟨⟨infos, hpeers⟩, hops⟩
  · rw [hflush, hdurable.1]
    exact ⟨_, _, List.prefix_append fs _, h.flush⟩
  · obtain ⟨shadow', h'⟩ := (h.rows hdisplay infos).ops hcodec hops hdurable.2 hknown
    refine ⟨fs, shadow', List.prefix_rfl, ?_⟩
    have hdir : (m.step e).ctx.dataDir = ⟨(m.storeOps e).foldl StoreOp.exec m.ctx.store,
        infos.foldl Peerstore.upsert m.ctx.peers⟩ := by
      rw [ShardCtx.dataDir, m.store_step e, hpeers]
    rw [hdir]
    exact h'

/-- Only the exit leads out of a run, and it leaves nothing in the queue. -/
theorem exited_step {m : Machine} (e : Event)
    (h : m.phase = .exited → m.work = [] ∧ m.ctx.dataDir.queue = []) :
    (m.step e).phase = .exited → (m.step e).work = [] ∧ (m.step e).ctx.dataDir.queue = [] := by
  obtain ⟨env, input⟩ := e
  cases input with
  | datagram src pkt =>
    by_cases hready : m.Ready
    · have hphase : (m.step ⟨env, .datagram src pkt⟩).phase = m.phase := by simp [step, hready]
      rw [hphase]
      exact fun hexited ↦ absurd hexited hready.ne_exited
    · rw [show m.step ⟨env, .datagram src pkt⟩ = m from if_neg hready]
      exact h
  | command cmd =>
    by_cases hready : m.Ready
    · have hphase : (m.step ⟨env, .command cmd⟩).phase
          = if cmd = .shutdown then .stopping else m.phase := by simp [step, hready, takeCommand]
      rw [hphase]
      split_ifs
      · rintro ⟨⟩
      · exact fun hexited ↦ absurd hexited hready.ne_exited
    · rw [show m.step ⟨env, .command cmd⟩ = m from if_neg hready]
      exact h
  | tick =>
    by_cases hidle : m.work = [] ∧ m.phase ≠ .exited
    · have hphase : (m.step ⟨env, .tick⟩).phase = m.phase := by simp [step, hidle]
      rw [hphase]
      exact fun hexited ↦ absurd hexited hidle.2
    · rw [show m.step ⟨env, .tick⟩ = m from if_neg hidle]
      exact h
  | work =>
    rcases hwork : m.work with _ | ⟨t, ts⟩
    · rw [step_work_nil hwork]
      exact h
    · rw [step_work hwork]
      intro hexited
      have hnone := (h hexited).1
      rw [hwork] at hnone
      cases hnone
  | reorder r => exact h
  | exit =>
    by_cases hstop : m.phase = .stopping ∧ m.work = []
    · have hstep : m.step ⟨env, .exit⟩
          = { m with ctx := (m.ctxAt env).flushStore, phase := .exited } := if_pos hstop
      rw [hstep]
      exact fun _ ↦ ⟨hstop.2, (m.ctxAt env).dataDir.queue_flush env.room⟩
    · rw [show m.step ⟨env, .exit⟩ = m from if_neg hstop]
      exact h

end Machine

theorem ShardRun.along_offers (run : ShardRun) :
    Runs.Along Machine.step
      (fun m e ↦ ∀ op ∈ m.storeOps e, ∀ r, op.offered = some r → run.storeRun.Knows r)
      run.start.machine run.events := by
  have hall : ∀ (es : List Event) (m : Machine),
      (∀ op ∈ opsFrom m es, op ∈ run.storeRun.ops) →
      Runs.Along Machine.step
        (fun m e ↦ ∀ op ∈ m.storeOps e, ∀ r, op.offered = some r → run.storeRun.Knows r) m es := by
    intro es
    induction es with
    | nil => exact fun _ _ ↦ trivial
    | cons e es ih =>
      intro m hops
      refine ⟨fun op hop r hr ↦ ?_, ih (m.step e) fun op hop ↦ ?_⟩
      · exact Or.inr ⟨op, hops op (List.mem_append_left _ hop), hr⟩
      · exact hops op (List.mem_append_right _ hop)
  exact hall run.events run.start.machine fun _ hop ↦ hop

/-- A record of the log that is not a tombstone is served for a whole time to live from the time
at which the log is read. -/
theorem Store.get_openDir {now later : UInt64} {dir : String} {wal : Bytes} {k : Key}
    {r : StoredRecord}
    (h : (openDir now dir (some wal)).recordView k = some r.toProto)
    (hkind : r.kind ≠ kindTombstone)
    (hlater : later.toNat ≤ now.toNat + r.ttlSecs.toNat) :
    (openDir now dir (some wal)).get later k = some (r.received now) := by
  obtain ⟨r', hr', hproto⟩ := Option.map_eq_some_iff.mp h
  have heq : r' = r.received now :=
    (received_of_lookup_openDir hr').trans (StoredRecord.received_eq_of_toProto hproto now)
  rw [heq] at hr'
  have hlive : ¬later.toNat - now.toNat > r.ttlSecs.toNat := by omega
  exact get_of_lookup hr' (decide_eq_false hlive) hkind

/-- **A restart loses no record.** In every run of a shard over a log, with room on the disk and
records that can be kept, that ends with the exit: the log goes on from what it was, and a shard
that is started over it at any time serves every record that was in memory, with the same fields,
for a whole time to live from then. What it has beyond that was once in the log or offered to the
store. -/
theorem restart_recovers (hcodec : Crates.record.RoundTrips)
    (hdisplay : ∀ a, (addrDisplay a).length < 2 ^ 31) (run : ShardRun) (dir : String)
    (fs : List Framing.Frame) (hstart : run.start.Over dir fs)
    (hdurable : Runs.Along Machine.step Machine.Durable run.start.machine run.events)
    (hexited : run.final.phase = .exited) (now : UInt64) :
    ∃ fs', fs <+: fs' ∧ (∀ f ∈ fs', f.payload.length < 2 ^ 32) ∧
      run.final.ctx.peers.wal = some (fs'.flatMap (Framing.frameBytes crc32)) ∧
      (∀ k r, run.final.ctx.store.records.lookup k = some r → r.kind ≠ kindTombstone →
        ∀ later : UInt64, later.toNat ≤ now.toNat + r.ttlSecs.toNat →
          (Store.openDir now dir (some (fs'.flatMap (Framing.frameBytes crc32)))).get later k
            = some (r.received now)) ∧
      ∀ k r', (Store.openDir now dir
          (some (fs'.flatMap (Framing.frameBytes crc32)))).records.lookup k = some r' →
        ∃ r, run.storeRun.Knows r ∧ r.key = k ∧ r' = r.received now := by
  have hinit : Machine.Keeps now run.storeRun.Knows fs run.start.machine :=
    ⟨⟨fs, _, List.prefix_rfl, hstart.backed now fun _ hr ↦ Or.inl hr⟩, by rintro ⟨⟩⟩
  have hkeeps : Machine.Keeps now run.storeRun.Knows fs run.final := by
    refine (Runs.along_and.mpr ⟨hdurable, run.along_offers⟩).invariant (fun m e h he ↦ ?_) hinit
    obtain ⟨fs₁, shadow, hfs, hbacked⟩ := h.backed
    obtain ⟨fs₂, shadow', hfs', hbacked'⟩ :=
      Machine.backed_step hcodec hdisplay hbacked he.1 he.2
    exact ⟨⟨fs₂, shadow', hfs.trans hfs', hbacked'⟩, Machine.exited_step e h.exited⟩
  obtain ⟨fs', shadow, hfs, hbacked⟩ := hkeeps.backed
  have hqueue : (run.final.ctx.dataDir.withRecords shadow).queue = [] := (hkeeps.exited hexited).2
  have hshort := hbacked.logged.short
  have hreplays := hbacked.logged.replays
  rw [hqueue, List.append_nil] at hshort hreplays
  -- the log replays to the shadow, whatever the memory has lost of it
  have hview : ∀ k, (Store.openDir now dir
      (some (fs'.flatMap (Framing.frameBytes crc32)))).recordView k
        = (shadow.lookup k).map StoredRecord.toProto := by
    intro k
    rw [Store.recordView_openDir now dir hshort, ← hreplays]
    rfl
  refine ⟨fs', hfs, hshort, hbacked.logged.wal, fun k r hr hkind later hlater ↦ ?_,
    fun k r' hr' ↦ ?_⟩
  · refine Store.get_openDir ?_ hkind hlater
    rw [hview k, hbacked.part k r hr, Option.map_some]
  · have hsome := hview k
    rw [Store.recordView, hr', Option.map_some, eq_comm, Option.map_eq_some_iff] at hsome
    obtain ⟨r, hr, hproto⟩ := hsome
    obtain ⟨hknown, hkey⟩ := hbacked.known k r hr
    exact ⟨r, hknown, hkey, (Store.received_of_lookup_openDir hr').trans
      (StoredRecord.received_eq_of_toProto hproto.symm now)⟩

end

namespace Sample

attribute [local instance] wireCrates

private theorem length_addrDisplay_lt (a : SocketAddr) : (addrDisplay a).length < 2 ^ 31 := by
  have hdecimal : ∀ n < 65536, (decimal n).length ≤ 5 := by
    intro n hn
    rw [decimal, List.length_map]
    exact (Nat.length_toDigits_le_iff (by decide) (by decide)).mpr (by omega)
  have hbyte : ∀ b : UInt8, (decimal b.toNat).length ≤ 5 := fun b ↦
    hdecimal b.toNat (b.toNat_lt.trans (by decide))
  have hport := hdecimal a.port.toNat a.port.toNat_lt
  rw [addrDisplay]
  split
  · rename_i w x y z _
    have hw := hbyte w
    have hx := hbyte x
    have hy := hbyte y
    have hz := hbyte z
    simp only [List.length_append, List.length_singleton]
    omega
  · decide

/-- The log has a value already. -/
private def loggedFrames : List Framing.Frame :=
  [Store.recordFrame (Store.immutableRecord 0 [] 90).encode]

private def loggedBytes : Bytes := loggedFrames.flatMap (Framing.frameBytes crc32)

private def restartStart : ShardStart :=
  { shardStart ⟨true, false, false⟩ with
    peers := Peerstore.openDir [] loggedBytes
    store := .openDir 7 "data" (some loggedBytes) }

/-- A stranger greets the shard, a value is put, and the shard is shut down. -/
private def restartRun : ShardRun where
  start := restartStart
  events :=
    [⟨noon, .datagram (.ofV4 10 0 0 9 9000) (Header.request .ping .control 7).bytes⟩,
      ⟨noon, .work⟩, ⟨noon, .command (.put [1, 2] 60)⟩, ⟨noon, .command .shutdown⟩, ⟨noon, .exit⟩]

private theorem restartStart_over : restartStart.Over "data" loggedFrames :=
  ⟨by decide +kernel, ⟨7, rfl⟩, rfl, rfl⟩

/-- An hour later both values are there again, each for its time to live. -/
theorem restart_recovers_put :
    ∃ fs', loggedFrames <+: fs' ∧
      restartRun.final.ctx.peers.wal = some (fs'.flatMap (Framing.frameBytes crc32)) ∧
      (Store.openDir 4600 "data" (some (fs'.flatMap (Framing.frameBytes crc32)))).get 4690 emptyKey
        = some (Store.immutableRecord 4600 [] 90) ∧
      (Store.openDir 4600 "data" (some (fs'.flatMap (Framing.frameBytes crc32)))).get 4660
        (hashValue [1, 2]) = some (Store.immutableRecord 4600 [1, 2] 60) := by
  obtain ⟨fs', hfs, -, hwal, hserved, -⟩ := restart_recovers Proto.roundTrips_recordWire
    length_addrDisplay_lt restartRun "data" loggedFrames restartStart_over
    (by decide +kernel) (by decide +kernel) 4600
  exact ⟨fs', hfs, hwal,
    hserved emptyKey (Store.immutableRecord 7 [] 90) (by decide +kernel) (by decide) 4690
      (by decide),
    hserved _ (Store.immutableRecord 1000 [1, 2] 60) (by decide +kernel) (by decide) 4660
      (by decide)⟩

end Sample

end Molia
