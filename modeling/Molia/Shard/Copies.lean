import Molia.Net.Tunnels
import Molia.Shard.Moves

/-!
# How often a message is sent

A message that `send_app` encrypts leaves in one data packet if the tunnel has a session. If it has
none, the tunnel keeps the message, and so does `send_app`, in the queue of the destination. When
the handshake is done, the tunnel is drained and the queue is flushed.

The copies of a message are counted where they are: sent in a data packet, held back by a tunnel, or
waiting in a queue. `transmitted_once_iff` says that there are never more copies than calls exactly
if every call finds a session. The runs are those of `send_app`, of datagrams that come in, of the
drain loop and of the flush, in any order; in between, the shard may do what its handlers do to the
rest of the state. Every step of the loop but the keepalive timer is such a run
(`Machine.exists_ops_step`).
-/

namespace Molia

/-! ## Packets -/

theorem isInitiation_iff {pkt : Bytes} :
    isInitiation pkt = true ↔ packetType pkt = some wgTypeInitiation := by
  rw [isInitiation, packetType]
  rcases parseWgHeader pkt with _ | h
  · simp
  · simp

section

variable [Crates]

open Crates

/-! ## Counting -/

/-- The call is one to be encrypted: its message fits, there is no relay hop, and a key is known. -/
def SendCall.Enters (call : SendCall) : Prop :=
  call.app.length ≤ pmtuFloor ∧ call.hop = none ∧ call.key.isSome = true

instance (call : SendCall) : Decidable call.Enters := inferInstanceAs (Decidable (_ ∧ _))

namespace ShardNet

/-- The calls that gave the message to be encrypted. -/
def entered (app : Bytes) (n : ShardNet) : ℕ :=
  n.calls.countP fun call ↦ call.app = app ∧ call.Enters

/-- The copies in the queues of the destinations. -/
def waiting (app : Bytes) (n : ShardNet) : ℕ :=
  n.pendingWg.values.flatten.countP fun q ↦ q.app = app

end ShardNet

namespace Queueing

variable (law : Queueing)

/-- The copies that have been sent, each in a data packet. -/
def carried (app : Bytes) (n : ShardNet) : ℕ :=
  n.sent.countP fun s ↦ s.form = .tunnel ∧ law.carries s.bytes = some (wrapRpc app)

/-- The copies that the tunnels hold back. -/
def held (app : Bytes) (n : ShardNet) : ℕ :=
  (n.wg.sessions.values.flatMap fun s ↦ law.queue s.tunn).count (wrapRpc app)

def copies (app : Bytes) (n : ShardNet) : ℕ := law.carried app n + law.held app n + n.waiting app

variable {law} {n n' : ShardNet} {app : Bytes}

theorem carried_transmit (law : Queueing) (app : Bytes) (n : ShardNet) (dest : SocketAddr)
    (bytes : Bytes) (form : Form) :
    law.carried app (n.transmit dest bytes form) = law.carried app n +
      if form = .tunnel ∧ law.carries bytes = some (wrapRpc app) then 1 else 0 := by
  rw [carried, ShardNet.transmit, List.countP_append, List.countP_singleton]
  simp only [decide_eq_true_eq]
  rfl

theorem carried_transmit_clear (law : Queueing) (n : ShardNet) (dest : SocketAddr) (bytes : Bytes)
    (call : Option ℕ) :
    law.carried app (n.transmit dest bytes (.clear call)) = law.carried app n := by
  rw [carried_transmit, if_neg (c := _ ∧ _) (fun h ↦ by cases h.1), Nat.add_zero]

theorem carried_transmit_bare (n : ShardNet) (dest : SocketAddr) {bytes : Bytes} (form : Form)
    (h : law.Bare bytes) : law.carried app (n.transmit dest bytes form) = law.carried app n := by
  rw [carried_transmit, if_neg (c := _ ∧ _) fun hc ↦ wrapRpc_ne_nil app (h _ hc.2), Nat.add_zero]

end Queueing

namespace ShardNet

theorem entered_logCall (n : ShardNet) (dest : SocketAddr) (x25519 : Option Bytes32)
    (app app' : Bytes) : (n.logCall dest x25519 app).entered app' = n.entered app' +
      if app = app' ∧ app.length ≤ pmtuFloor ∧ n.hopFor dest = none ∧
        (n.keyFor dest x25519).isSome = true then 1 else 0 := by
  rw [entered, logCall, List.countP_append, List.countP_singleton]
  simp only [SendCall.Enters, Option.map_eq_none_iff, decide_eq_true_eq]
  rfl

/-! ## One call -/

variable {law : Queueing} {n : ShardNet} {dest : SocketAddr} {x25519 : Option Bytes32}
  {app : Bytes} {pk : Bytes32}

/-- A message to be encrypted goes into the tunnel, after some bookkeeping. -/
theorem deliver_of_key {q : Queued} (hcfg : n.cfg.plaintext = false)
    (hlen : q.app.length ≤ pmtuFloor) (hhop : n.hopFor dest = none)
    (hkey : n.keyFor dest x25519 = some pk) :
    ∃ relay, n.deliver dest x25519 q = { n with relay }.sendSealed dest pk q := by
  rw [keyFor] at hkey
  rw [deliver, if_neg (Nat.not_lt.mpr hlen), hhop]
  simp only [keyFor, hkey, hcfg]
  exact ⟨_, rfl⟩

theorem deliver_of_not_key (law : Queueing) {q : Queued} (h : ¬(q.app.length ≤ pmtuFloor ∧
    n.hopFor dest = none ∧ (n.keyFor dest x25519).isSome = true)) :
    ∃ relay nextCorrId sent, n.deliver dest x25519 q = { n with relay, nextCorrId, sent } ∧
      ∀ app, law.carried app { n with sent } = law.carried app n := by
  rw [deliver]
  split
  · exact ⟨_, _, _, rfl, fun _ ↦ rfl⟩
  · rename_i hlen
    rcases hhop : n.hopFor dest with _ | ⟨id, hop⟩
    · rcases hkey : n.keyFor dest x25519 with _ | pk
      · rw [keyFor] at hkey
        simp only [keyFor, hkey]
        exact ⟨_, _, _, rfl, fun app ↦ law.carried_transmit_clear n dest q.app (some q.call)⟩
      · exact absurd ⟨Nat.not_lt.mp hlen, hhop, by rw [hkey]; rfl⟩ h
    · dsimp only
      rw [sendRelayFrame]
      split
      · exact ⟨_, _, _, rfl, fun _ ↦ rfl⟩
      · dsimp only
        split
        · exact ⟨_, _, _, rfl, fun app ↦ law.carried_transmit_clear n _ _ (some q.call)⟩
        · exact ⟨_, _, _, rfl, fun _ ↦ rfl⟩

theorem sendSealed_open (h : law.Clear n.wg) (hpk : law.Reaches n.wg pk) (dest : SocketAddr)
    (q : Queued) : ∃ pkt wg, law.carries pkt = some (wrapRpc q.app) ∧ law.Clear wg ∧
      n.sendSealed dest pk q = { n with wg }.transmit dest pkt .tunnel := by
  obtain ⟨pkt, wg, heq, hcarries, hclear⟩ :=
    h.encapsulateTo_open hpk n.now dest none (wrapRpc q.app)
  have hdata : ¬isInitiation pkt = true := by
    rw [isInitiation_iff, law.data hcarries]
    decide
  refine ⟨pkt, wg, hcarries, hclear, ?_⟩
  rw [sendSealed, encapsulateTo, heq]
  dsimp only
  rw [if_neg hdata]

/-- Without a session, the message is held back twice. -/
theorem sendSealed_closed (h : law.Clear n.wg) (hpk : ¬law.Reaches n.wg pk) (dest : SocketAddr)
    (q : Queued) :
    law.Holds (n.sendSealed dest pk q).wg pk (wrapRpc q.app) ∧
      (n.sendSealed dest pk q).pendingWg = (n.enqueue dest q).pendingWg ∧
      (n.sendSealed dest pk q).calls = n.calls := by
  obtain ⟨hholds, hshake⟩ := h.encapsulateTo_closed hpk n.now dest none (wrapRpc q.app)
  rw [sendSealed, encapsulateTo]
  generalize n.wg.encapsulateTo n.now dest pk none (wrapRpc q.app) = r at hholds hshake ⊢
  obtain ⟨_ | pkt, w⟩ := r
  · have hmore := hholds.encapsulateTo n.now dest none []
    change law.Holds (w.encapsulateTo n.now dest pk none []).2 pk (wrapRpc q.app) at hmore
    dsimp only [enqueue, encapsulateTo, now] at hmore ⊢
    generalize w.encapsulateTo n.env.instant dest pk none [] = r' at hmore ⊢
    obtain ⟨_ | pkt', w'⟩ := r'
    · exact ⟨hmore, rfl, rfl⟩
    · exact ⟨hmore, rfl, rfl⟩
  · dsimp only
    rw [if_pos (isInitiation_iff.mpr (hshake pkt rfl))]
    exact ⟨hholds, rfl, rfl⟩

end ShardNet

/-! ## Operations -/

/-- What is done to the link of a shard. -/
inductive LinkOp where
  /-- Something changes in the rest of the state. -/
  | learn (other : ShardCtx)
  | meet (peer : Bytes32) (peerId : Option NodeId) (endpoint : Option SocketAddr)
  /-- A message of the control plane. -/
  | control (dest : SocketAddr) (bytes : Bytes)
  | send (dest : SocketAddr) (x25519 : Option Bytes32) (app : Bytes)
  | datagram (src : SocketAddr) (pkt : Bytes)
  /-- One turn of the drain loop. -/
  | drain (src : SocketAddr)
  | flush (dest : SocketAddr)
  | reorder (r : HashMap.Reorder)

namespace ShardCtx

def exec (c : ShardCtx) : LinkOp → ShardCtx
  | .learn other =>
    { other with
      cfg := c.cfg
      wg := c.wg
      pendingWg := c.pendingWg
      sent := c.sent
      calls := c.calls }
  | .meet peer peerId endpoint => { c with wg := c.wg.addPeer peer peerId endpoint }
  | .control dest bytes => c.transmit dest bytes (.clear none)
  | .send dest x25519 app => c.withNet (c.toShardNet.sendApp dest x25519 app)
  | .datagram src pkt => (c.handleDatagram src pkt).1
  | .drain src => (c.drainTurn src).1
  | .flush dest => c.withNet (c.toShardNet.flushPendingWg dest)
  | .reorder r => c.reorder r

theorem exec_learn {c c' : ShardCtx} (hwire : c'.wire = c.wire) (hwg : c'.wg = c.wg) :
    c.exec (.learn c') = c' := by
  simp only [ShardNet.wire, Prod.mk.injEq] at hwire
  obtain ⟨hcfg, hsent, hcalls, hpending⟩ := hwire
  rw [exec, ← hcfg, ← hsent, ← hcalls, ← hpending, ← hwg]

/-- What handlers do on the network side is a run of operations. -/
theorem exists_ops_of_moves {c c' : ShardCtx}
    (h : ShardNet.Moves c.toShardNet c'.toShardNet) :
    ∃ ops : List LinkOp, ops.foldl exec c = c' := by
  generalize hn : c'.toShardNet = n at h
  induction h generalizing c' with
  | refl =>
    refine ⟨[.learn c'], exec_learn ?_ ?_⟩
    · rw [hn]
    · rw [hn]
  | tail hpre hlast ih =>
    rename_i n₁ n₂
    obtain ⟨ops, hops⟩ : ∃ ops : List LinkOp, ops.foldl exec c = c.withNet n₁ := ih rfl
    -- one operation for the move, and one for the rest of the state
    have hdone : ∀ op, ((c.withNet n₁).exec op).toShardNet = n₂ →
        ∃ ops : List LinkOp, ops.foldl exec c = c' := by
      intro op hop
      refine ⟨ops ++ [op, .learn c'], ?_⟩
      rw [List.foldl_append, hops]
      refine exec_learn ?_ ?_
      · rw [hn, hop]
      · rw [hn, hop]
    rcases hlast with hpost | ⟨hwire, hwg⟩ | ⟨peer, peerId, endpoint⟩
    · rcases hpost with _ | @⟨dest, bytes, -⟩ | ⟨dest, x25519, app⟩
      · exact hdone (.learn (c.withNet n₁.nextCorr.2)) rfl
      · exact hdone (.control dest bytes) rfl
      · exact hdone (.send dest x25519 app) rfl
    · refine hdone (.learn (c.withNet n₂)) (congrArg toShardNet (exec_learn ?_ ?_))
      · exact hwire
      · exact hwg
    · exact hdone (.meet peer peerId endpoint) rfl

/-- A call to be encrypted finds a session. -/
def Open (law : Queueing) (c : ShardCtx) : LinkOp → Prop
  | .send dest x25519 app => app.length ≤ pmtuFloor → c.hopFor dest = none →
    ∀ pk, c.keyFor dest x25519 = some pk → law.Reaches c.wg pk
  | _ => True

/-- Nothing is held back, and every call has been served. -/
structure Idle (law : Queueing) (n : ShardNet) : Prop where
  cfg : n.cfg.plaintext = false
  pending : n.pendingWg = ∅
  clear : law.Clear n.wg
  level : ∀ app, law.carried app n = n.entered app

namespace Idle

variable {law : Queueing} {n n' : ShardNet} {c : ShardCtx}

theorem copies_eq (h : Idle law n) (app : Bytes) : law.copies app n = n.entered app := by
  have hheld : (n.wg.sessions.values.flatMap fun s ↦ law.queue s.tunn) = [] := by
    refine List.flatMap_eq_nil_iff.mpr fun s hs ↦ ?_
    obtain ⟨idx, hidx⟩ := HashMap.mem_values_iff.mp hs
    exact h.clear.queues idx s hidx
  rw [Queueing.copies, Queueing.held, hheld, ShardNet.waiting, h.pending]
  exact h.level app

theorem of_wire (h : Idle law n) (hwire : n'.wire = n.wire) (hwg : law.Clear n'.wg) :
    Idle law n' := by
  simp only [ShardNet.wire, Prod.mk.injEq] at hwire
  obtain ⟨hcfg, hsent, hcalls, hpending⟩ := hwire
  refine ⟨?_, ?_, hwg, fun app ↦ ?_⟩
  · rw [hcfg]
    exact h.cfg
  · rw [hpending]
    exact h.pending
  · rw [Queueing.carried, hsent, ShardNet.entered, hcalls]
    exact h.level app

theorem transmit (h : Idle law n) {dest : SocketAddr} {bytes : Bytes} {form : Form}
    (hsame : ∀ app, law.carried app (n.transmit dest bytes form) = law.carried app n) :
    Idle law (n.transmit dest bytes form) :=
  ⟨h.cfg, h.pending, h.clear, fun app ↦ (hsame app).trans (h.level app)⟩

/-! ## Calls -/

theorem sendApp_of_not_key (h : Idle law n) {dest : SocketAddr} {x25519 : Option Bytes32}
    {app : Bytes} (hkey : ¬(app.length ≤ pmtuFloor ∧ n.hopFor dest = none ∧
      (n.keyFor dest x25519).isSome = true)) : Idle law (n.sendApp dest x25519 app) := by
  obtain ⟨relay, nextCorrId, sent, heq, hsame⟩ :=
    ShardNet.deliver_of_not_key (n := n.logCall dest x25519 app)
      (q := ⟨app, n.calls.length⟩) law hkey
  rw [ShardNet.sendApp, heq]
  refine ⟨h.cfg, h.pending, h.clear, fun app' ↦ ?_⟩
  have hentered := n.entered_logCall dest x25519 app app'
  rw [if_neg (c := _ ∧ _) fun hc ↦ hkey hc.2] at hentered
  exact (hsame app').trans ((h.level app').trans hentered.symm)

theorem sendApp_open (h : Idle law n) {dest : SocketAddr} {x25519 : Option Bytes32} {app : Bytes}
    {pk : Bytes32} (hlen : app.length ≤ pmtuFloor) (hhop : n.hopFor dest = none)
    (hkey : n.keyFor dest x25519 = some pk) (hpk : law.Reaches n.wg pk) :
    Idle law (n.sendApp dest x25519 app) := by
  obtain ⟨relay, heq⟩ := ShardNet.deliver_of_key (n := n.logCall dest x25519 app)
    (q := ⟨app, n.calls.length⟩) h.cfg hlen hhop hkey
  obtain ⟨pkt, wg, hcarries, hclear, hsealed⟩ :=
    ShardNet.sendSealed_open (n := { n.logCall dest x25519 app with relay }) h.clear hpk dest
      ⟨app, n.calls.length⟩
  rw [ShardNet.sendApp, heq, hsealed]
  refine ⟨h.cfg, h.pending, hclear, fun app' ↦ ?_⟩
  have hentered := n.entered_logCall dest x25519 app app'
  have hcarried := law.carried_transmit app' { n.logCall dest x25519 app with relay, wg } dest pkt
    .tunnel
  have hcopy : law.carries pkt = some (wrapRpc app') ↔ app = app' := by
    rw [hcarries, Option.some.injEq, wrapRpc_injective.eq_iff]
  simp only [hkey, hlen, hhop, Option.isSome_some, and_self, and_true] at hentered
  simp only [hcopy, true_and] at hcarried
  refine hcarried.trans (Eq.trans ?_ hentered.symm)
  exact congrArg (· + _) (h.level app')

theorem lt_copies_of_closed (h : Idle law n) {dest : SocketAddr} {x25519 : Option Bytes32}
    {app : Bytes} {pk : Bytes32} (hlen : app.length ≤ pmtuFloor) (hhop : n.hopFor dest = none)
    (hkey : n.keyFor dest x25519 = some pk) (hpk : ¬law.Reaches n.wg pk) :
    (n.sendApp dest x25519 app).entered app < law.copies app (n.sendApp dest x25519 app) := by
  have hsent := (ShardNet.Sends.sendApp n dest x25519 app).sent.sublist.countP_le
    (p := fun s ↦ s.form = .tunnel ∧ law.carries s.bytes = some (wrapRpc app))
  obtain ⟨relay, heq⟩ := ShardNet.deliver_of_key (n := n.logCall dest x25519 app)
    (q := ⟨app, n.calls.length⟩) h.cfg hlen hhop hkey
  obtain ⟨⟨idx, s, -, hs, hp⟩, hpending, hcalls⟩ :=
    ShardNet.sendSealed_closed (n := { n.logCall dest x25519 app with relay }) h.clear hpk dest
      ⟨app, n.calls.length⟩
  rw [← heq] at hs hpending hcalls
  change List.countP _ n.sent ≤ law.carried app (n.sendApp dest x25519 app) at hsent
  have hlevel : List.countP _ n.sent = n.entered app := h.level app
  have hentered : (n.sendApp dest x25519 app).entered app = n.entered app + 1 := by
    have hlogged := n.entered_logCall dest x25519 app app
    simp only [hkey, hlen, hhop, Option.isSome_some, and_self, if_true] at hlogged
    rw [← hlogged, ShardNet.entered, ShardNet.entered]
    exact congrArg (List.countP _) hcalls
  -- one call, and a copy in either queue
  have hheld : 0 < law.held app (n.sendApp dest x25519 app) := by
    exact List.count_pos_iff.mpr
      (List.mem_flatMap.mpr ⟨s, HashMap.mem_values_iff.mpr ⟨idx, hs⟩, hp⟩)
  have hwaiting : 0 < (n.sendApp dest x25519 app).waiting app := by
    have hlookup := (congrArg (AList.lookup dest) hpending).trans (AList.lookup_insert _)
    refine List.countP_pos_iff.mpr ⟨⟨app, n.calls.length⟩, ?_, decide_eq_true rfl⟩
    refine List.mem_flatten.mpr ⟨_, HashMap.mem_values_iff.mpr ⟨dest, hlookup⟩, ?_⟩
    exact List.mem_append_right _ (List.mem_singleton.mpr rfl)
  rw [Queueing.copies]
  omega

/-! ## The other operations -/

theorem decapsulate (h : Idle law c.toShardNet) {src : SocketAddr} {pkt : Bytes} {d : Decap}
    {c' : ShardCtx} (heq : c.decapsulate src pkt = (d, c')) :
    Idle law c'.toShardNet ∧ ∀ reply, d = .network reply → law.Bare reply := by
  obtain ⟨hclear, hbare⟩ := h.clear.decapsulate c.now src pkt
  obtain ⟨rfl, rfl⟩ := Prod.mk.inj heq
  exact ⟨h.of_wire rfl hclear, hbare⟩

theorem handleDatagram (h : Idle law c.toShardNet) (src : SocketAddr) (pkt : Bytes) :
    Idle law (c.handleDatagram src pkt).1.toShardNet := by
  have hsybil : Idle law { c with
      sybil := (c.sybil.allowPreHandshake c.now src).2 }.toShardNet := h.of_wire rfl h.clear
  rw [ShardCtx.handleDatagram]
  dsimp only
  split_ifs
  · exact hsybil
  · split
    · rename_i heq
      exact (hsybil.decapsulate heq).1
    · rename_i reply c' heq
      obtain ⟨hidle, hbare⟩ := hsybil.decapsulate heq
      exact hidle.transmit fun app ↦ Queueing.carried_transmit_bare _ _ _ (hbare reply rfl)
    · rename_i heq
      exact (hsybil.decapsulate heq).1.transmit fun app ↦ law.carried_transmit_clear _ _ _ _
    · rename_i heq
      exact (hsybil.decapsulate heq).1
  · exact h

theorem drainTurn (h : Idle law c.toShardNet) (src : SocketAddr) :
    Idle law (c.drainTurn src).1.toShardNet := by
  rw [ShardCtx.drainTurn]
  split
  · rename_i reply c' heq
    obtain ⟨hidle, hbare⟩ := h.decapsulate heq
    exact hidle.transmit fun app ↦ Queueing.carried_transmit_bare _ _ _ (hbare reply rfl)
  · rename_i heq
    exact (h.decapsulate heq).1
  · rename_i heq
    exact (h.decapsulate heq).1
  · rename_i heq
    exact (h.decapsulate heq).1

theorem flushPendingWg (h : Idle law n) (dest : SocketAddr) :
    n.flushPendingWg dest = n := by
  rw [ShardNet.flushPendingWg, h.pending]
  rfl

theorem exec (h : Idle law c.toShardNet) {op : LinkOp} (hop : c.Open law op) :
    Idle law (c.exec op).toShardNet := by
  rcases op with other | ⟨peer, peerId, endpoint⟩ | ⟨dest, bytes⟩ | ⟨dest, x25519, app⟩ |
    ⟨src, pkt⟩ | src | dest | r
  · exact h.of_wire rfl h.clear
  · exact h.of_wire rfl (h.clear.addPeer peer peerId endpoint)
  · exact h.transmit fun app ↦ law.carried_transmit_clear _ _ _ _
  · by_cases hkey : app.length ≤ pmtuFloor ∧ c.hopFor dest = none ∧
      (c.keyFor dest x25519).isSome = true
    · obtain ⟨hlen, hhop, hsome⟩ := hkey
      obtain ⟨pk, hpk⟩ := Option.isSome_iff_exists.mp hsome
      exact h.sendApp_open hlen hhop hpk (hop hlen hhop pk hpk)
    · exact h.sendApp_of_not_key hkey
  · exact h.handleDatagram src pkt
  · exact h.drainTurn src
  · show Idle law (c.toShardNet.flushPendingWg dest)
    rw [h.flushPendingWg]
    exact h
  · exact h.of_wire rfl (h.clear.reorder r)

theorem open_of_copies_le (h : Idle law c.toShardNet) {op : LinkOp}
    (hle : ∀ app, law.copies app (c.exec op).toShardNet ≤ (c.exec op).entered app) :
    c.Open law op := by
  rcases op with other | ⟨peer, peerId, endpoint⟩ | ⟨dest, bytes⟩ | ⟨dest, x25519, app⟩ |
    ⟨src, pkt⟩ | src | dest | r
  · trivial
  · trivial
  · trivial
  · intro hlen hhop pk hpk
    by_contra hclosed
    exact Nat.not_le.mpr (h.lt_copies_of_closed hlen hhop hpk hclosed) (hle app)
  · trivial
  · trivial
  · trivial
  · trivial

theorem start (law : Queueing) {s : ShardStart} (hcfg : s.cfg.plaintext = false) :
    Idle law s.machine.ctx.toShardNet :=
  ⟨hcfg, rfl, .new law _ _, fun _ ↦ rfl⟩

end Idle

end ShardCtx

/-- Every step of the loop is a run of operations, unless it handles the keepalive timer. -/
theorem Machine.exists_ops_step (m : Machine) (e : Event)
    (h : e.input = .work → ∀ ts, m.work ≠ .timer .keepalive :: ts) :
    ∃ ops : List LinkOp, ops.foldl ShardCtx.exec m.ctx = (m.step e).ctx := by
  have hat : m.ctx.exec (.learn (m.ctxAt e.env)) = m.ctxAt e.env := ShardCtx.exec_learn rfl rfl
  have hop : ∀ op, [.learn (m.ctxAt e.env), op].foldl ShardCtx.exec m.ctx
      = (m.ctxAt e.env).exec op := by
    intro op
    rw [List.foldl_cons, hat]
    rfl
  have hmoves : ∀ c, ShardNet.Moves (m.ctxAt e.env).toShardNet c.toShardNet →
      ∃ ops : List LinkOp, ops.foldl ShardCtx.exec m.ctx = c := by
    intro c hc
    refine ShardCtx.exists_ops_of_moves (Relation.ReflTransGen.trans ?_ hc)
    exact ShardNet.Moves.of_wire rfl rfl
  rcases m.step_cases e with hm | ⟨src, pkt, -, hc, -⟩ | ⟨cmd, -, hc, -⟩ | ⟨timers, -, hc, -⟩ |
    ⟨t, ts, hin, hwork, hc, -⟩ | ⟨r, -, hc, -⟩ | ⟨-, hc, -⟩
  · exact ⟨[], congrArg Machine.ctx hm.symm⟩
  · exact ⟨_, (hop (.datagram src pkt)).trans hc.symm⟩
  · rw [hc]
    exact hmoves _ (ShardCtx.follows_handleCmd ShardNet.Moves.follows (m.ctxAt e.env) cmd _)
  · exact ⟨[.learn { m.ctxAt e.env with timers }], (ShardCtx.exec_learn rfl rfl).trans hc.symm⟩
  · rw [hc]
    rcases t with ⟨src, pkt, authenticated⟩ | src | src | kind
    · exact hmoves _ (ShardCtx.follows_handleApp ShardNet.Moves.follows (m.ctxAt e.env) src pkt
        authenticated)
    · exact ⟨_, hop (.drain src)⟩
    · exact ⟨_, hop (.flush src)⟩
    · refine hmoves _ ((m.ctxAt e.env).moves_onTimer fun hkind ↦ ?_)
      rw [hkind] at hwork
      exact h hin ts hwork
  · exact ⟨[.reorder r], hc.symm⟩
  · exact ⟨[.learn (m.ctxAt e.env).flushStore], (ShardCtx.exec_learn rfl rfl).trans hc.symm⟩

/-- **How often a message is sent.** In encrypted mode, there are never more copies of a message
than calls that gave it to be encrypted exactly if each of these calls finds a session. Then, at any
time, at most so many data packets have carried it. -/
theorem transmitted_once_iff (law : Queueing) (start : ShardStart)
    (hcfg : start.cfg.plaintext = false) (ops : List LinkOp) :
    (Runs.Throughout ShardCtx.exec
        (fun c ↦ ∀ app, law.copies app c.toShardNet ≤ c.entered app) start.machine.ctx ops ↔
      Runs.Along ShardCtx.exec (ShardCtx.Open law) start.machine.ctx ops) ∧
    (Runs.Along ShardCtx.exec (ShardCtx.Open law) start.machine.ctx ops →
      Runs.Throughout ShardCtx.exec
        (fun c ↦ ∀ app, law.carried app c.toShardNet ≤ c.entered app) start.machine.ctx ops) := by
  have hiff : Runs.Throughout ShardCtx.exec
        (fun c ↦ ∀ app, law.copies app c.toShardNet ≤ c.entered app) start.machine.ctx ops ↔
      Runs.Along ShardCtx.exec (ShardCtx.Open law) start.machine.ctx ops :=
    Runs.throughout_iff_along (I := fun c : ShardCtx ↦ ShardCtx.Idle law c.toShardNet)
      Runs.along_true (fun _ h app ↦ Nat.le_of_eq (h.copies_eq app))
      (fun _ _ h _ hop ↦ h.exec hop) (fun _ _ h _ hle ↦ h.open_of_copies_le hle) (.start law hcfg)
  refine ⟨hiff, fun hopen ↦ (hiff.mpr hopen).mono fun c hle app ↦ ?_⟩
  have happ := hle app
  rw [Queueing.copies] at happ
  omega

end

section

open Sample

private def handshakePacket : Bytes := [1, 0, 0, 0, 0, 0, 0, 0]

private def responsePacket : Bytes := [2, 0, 0, 0, 1, 0, 0, 0]

/-- A data packet. The plaintext is not encrypted. -/
private def framePacket (p : Bytes) : Bytes := [4, 0, 0, 0, 1, 0, 0, 0] ++ p

private theorem packetType_framePacket (p : Bytes) :
    packetType (framePacket p) = some wgTypeData := by
  have hlen : ¬(framePacket p).length < 8 := by simp [framePacket]
  rw [packetType, parseWgHeader, if_neg hlen]
  rfl

/-- Tunnels that consist of a queue and of whether there is a session, which the response to a
handshake starts. -/
@[reducible] private def queueCrates : Crates :=
  { crates with
    Tunn := Bool × List Bytes
    tunnNew := fun _ _ _ ↦ (false, [])
    tunnEncapsulate := fun t _ p ↦
      if t.1 then (.writeToNetwork (framePacket p), t)
      else (if t.2 = [] then .writeToNetwork handshakePacket else .done, (false, t.2 ++ [p]))
    tunnDecapsulate := fun t _ _ d ↦
      if d = [] then
        match t with
        | (true, p :: ps) => (.writeToNetwork (framePacket p), (true, ps))
        | t => (.done, t)
      else if packetType d = some wgTypeResponse then
        (.writeToNetwork (framePacket []), (true, t.2))
      else (.done, t)
    tunnUpdateTimers := fun t _ ↦ (.done, t) }

attribute [local instance] queueCrates

private def queueLaw : Queueing where
  established t := t.1
  queue t := t.2
  carries pkt := if packetType pkt = some wgTypeData then some (pkt.drop 8) else none
  data h := by
    split_ifs at h with hty
    exact hty
  new _ _ _ := ⟨rfl, rfl⟩
  encapsulate_open := by
    rintro ⟨_ | _, q⟩ h now p
    · cases h
    · exact ⟨framePacket p, (true, q), rfl, if_pos (packetType_framePacket p), rfl⟩
  encapsulate_closed := by
    rintro ⟨_ | _, q⟩ h now p
    · refine ⟨.inl rfl, fun pkt hpkt ↦ ?_⟩
      change (if q = [] then TunnResult.writeToNetwork handshakePacket else .done) = _ at hpkt
      split_ifs at hpkt
      rw [← TunnResult.writeToNetwork.inj hpkt]
      rfl
    · cases h
  drain_nil := by
    rintro ⟨_ | _, q⟩ h now src
    · exact ⟨rfl, h⟩
    · obtain rfl : q = [] := h
      exact ⟨rfl, rfl⟩
  drain_cons := by
    rintro ⟨_ | _, q⟩ p ps h hq now src
    · cases h
    · obtain rfl : q = p :: ps := hq
      exact ⟨framePacket p, (true, ps), rfl, if_pos (packetType_framePacket p), rfl⟩
  decapsulate := by
    rintro ⟨opened, q⟩ now src pkt hpkt
    dsimp only [Crates.tunnDecapsulate]
    rw [if_neg hpkt]
    split_ifs
    · refine ⟨rfl, fun reply p hreply hp ↦ ?_⟩
      rw [← TunnResult.writeToNetwork.inj hreply, if_pos (packetType_framePacket [])] at hp
      exact (Option.some.inj hp).symm
    · exact ⟨rfl, fun reply p hreply ↦ by cases hreply⟩

private def linkAddr : SocketAddr := .ofV4 10 0 0 9 9000

private def linkKey : Bytes32 := Bytes32.fill 9

private def linkStart : ShardStart where
  id := 0
  identity := ⟨(), Bytes32.fill 1⟩
  cfg := ⟨false, false, false⟩
  localAddr := .ofV4 10 0 0 1 9000
  env := ⟨1000, 1000000, 0, none⟩
  peers := Peerstore.memory
  store := .new

/-- The key of a peer becomes known. -/
private def linkKnown : LinkOp :=
  .learn { linkStart.machine.ctx with keysByAddr := AList.insert linkAddr linkKey ∅ }

/-- The handshake with a peer, and then a message. -/
private def openOps : List LinkOp :=
  [linkKnown, .meet linkKey none (some linkAddr), .datagram linkAddr responsePacket,
    .send linkAddr none [7]]

/-- A message after the handshake is sent once at most. -/
theorem transmitted_once_open :
    queueLaw.carried [7] (openOps.foldl ShardCtx.exec linkStart.machine.ctx).toShardNet ≤
      (openOps.foldl ShardCtx.exec linkStart.machine.ctx).entered [7] := by
  have hopen : Runs.Along ShardCtx.exec (ShardCtx.Open queueLaw) linkStart.machine.ctx openOps := by
    refine ⟨trivial, trivial, trivial, fun _ _ pk hpk ↦ ?_, trivial⟩
    have hkey : ((openOps.take 3).foldl ShardCtx.exec linkStart.machine.ctx).keyFor linkAddr none
        = some linkKey := by decide +kernel
    have htunnel : (((openOps.take 3).foldl ShardCtx.exec linkStart.machine.ctx).wg.sessions.lookup
        1).map (fun s ↦ s.tunn.1) = some true := by decide +kernel
    obtain rfl := Option.some.inj (hkey.symm.trans hpk)
    obtain ⟨s, hs, hestablished⟩ := Option.map_eq_some_iff.mp htunnel
    exact ⟨1, s, by decide +kernel, hs, hestablished⟩
  exact ((transmitted_once_iff queueLaw linkStart rfl openOps).2 hopen).2.2.2.2 [7]

/-- A message, and then the handshake. -/
private def linkOps : List LinkOp :=
  [linkKnown, .send linkAddr none [7], .datagram linkAddr responsePacket, .drain linkAddr,
    .flush linkAddr]

/-- **A message is sent twice.** It is sent when the tunnel is drained, and again when the queue is
flushed. -/
theorem transmitted_once_fails :
    ¬∀ (_ : Crates) (law : Queueing) (start : ShardStart) (ops : List LinkOp),
      start.cfg.plaintext = false →
      Runs.Throughout ShardCtx.exec
        (fun c ↦ ∀ app, law.carried app c.toShardNet ≤ c.entered app) start.machine.ctx ops := by
  intro hall
  have hlast := (hall queueCrates queueLaw linkStart linkOps rfl).2.2.2.2.2 [7]
  revert hlast
  decide +kernel

end

end Molia
