import Molia.Core.Wire
import Molia.Shard.Handlers
import Molia.Store.Run

/-!
# The event loop of a shard

A shard takes datagrams, commands and timer expiries one at a time. Handling one of them may leave
work behind: the payload of a relay frame, a tunnel to drain, a queue to flush, the remaining timers
of a batch. The work is done one task at a time before the next datagram, command or expiry is
taken; an input that comes too early leaves the state as it is.

Each step comes with its own reading of the clocks. A further input reorders the maps the handlers
iterate over, so that a result about all runs holds for every iteration order.
-/

namespace Molia

section

variable [Crates]

open Crates

/-! ## Tasks -/

inductive Task where
  | app (src : SocketAddr) (pkt : Bytes) (authenticated : Bool)
  | drain (src : SocketAddr)
  | flush (src : SocketAddr)
  | timer (kind : TimerKind)
deriving DecidableEq

namespace ShardCtx

/-- Give a packet to the tunnels. -/
def decapsulate (c : ShardCtx) (src : SocketAddr) (pkt : Bytes) : Decap × ShardCtx :=
  let (d, w) := c.wg.decapsulate c.now src pkt
  (d, { c with wg := w })

theorem eq_of_decapsulate {c c' : ShardCtx} {src : SocketAddr} {pkt : Bytes} {d : Decap}
    (h : c.decapsulate src pkt = (d, c')) : c' = { c with wg := c'.wg } := by
  obtain ⟨-, rfl⟩ := Prod.mk.inj h
  rfl

def transmit (c : ShardCtx) (dest : SocketAddr) (bytes : Bytes) (form : Form) : ShardCtx :=
  c.withNet (c.toShardNet.transmit dest bytes form)

/-- A datagram off the socket, and what is to be done next. -/
def handleDatagram (c : ShardCtx) (src : SocketAddr) (pkt : Bytes) : ShardCtx × List Task :=
  if looksLikeWg pkt then
    let (ok, sybil) := c.sybil.allowPreHandshake c.now src
    let c := { c with sybil }
    if ok = false then (c, [])
    else
      match c.decapsulate src pkt with
      | (.plaintext inner, c) => (c, [.app src (unwrapRpc inner) true, .drain src, .flush src])
      | (.network reply, c) => (c.transmit src reply .tunnel, [.drain src, .flush src])
      | (.cookie cookie, c) => (c.transmit src cookie (.clear none), [])
      | (.drop, c) => (c, [])
  else (c, [.app src pkt false])

/-- One turn of the drain loop. -/
def drainTurn (c : ShardCtx) (src : SocketAddr) : ShardCtx × List Task :=
  match c.decapsulate src [] with
  | (.network reply, c) => (c.transmit src reply .tunnel, [.drain src])
  | (.plaintext inner, c) => (c, [.app src (unwrapRpc inner) true, .drain src])
  | (.cookie _, c) => (c, [])
  | (.drop, c) => (c, [])

/-- A datagram off the socket changes the tunnels, the admission budgets and what is sent. -/
theorem handleDatagram_fst (c : ShardCtx) (src : SocketAddr) (pkt : Bytes) :
    ∃ wg sybil sent, (c.handleDatagram src pkt).1 = { c with wg, sybil, sent } := by
  rw [handleDatagram]
  split
  · dsimp only
    split
    · exact ⟨_, _, _, rfl⟩
    · split
      all_goals
        rename_i heq
        rw [eq_of_decapsulate heq]
        exact ⟨_, _, _, rfl⟩
  · exact ⟨_, _, _, rfl⟩

theorem drainTurn_fst (c : ShardCtx) (src : SocketAddr) :
    ∃ wg sent, (c.drainTurn src).1 = { c with wg, sent } := by
  rw [drainTurn]
  split
  all_goals
    rename_i heq
    rw [eq_of_decapsulate heq]
    exact ⟨_, _, rfl⟩

/-- Do one task; the tasks it leaves come before all others. -/
def runTask (c : ShardCtx) : Task → ShardCtx × List Task
  | .app src pkt authenticated =>
    let (c, inner) := c.handleApp src pkt authenticated
    (c, inner.toList.map fun payload ↦ .app src payload false)
  | .drain src => c.drainTurn src
  | .flush src => (c.withNet (c.toShardNet.flushPendingWg src), [])
  | .timer kind => (c.onTimer kind, [])

/-- The same state with other iteration orders. -/
def reorder (c : ShardCtx) (r : HashMap.Reorder) : ShardCtx :=
  { c with
    lookups := c.lookups.reorder r
    punches := c.punches.reorder r
    wg := { c.wg with sessions := c.wg.sessions.reorder r } }

end ShardCtx

/-! ## The machine -/

inductive Phase where
  | running
  | stopping
  | exited
deriving DecidableEq

/-- A shard with its unfinished work and the commands it has taken; the channel of a command is its
position among them. -/
structure Machine where
  ctx : ShardCtx
  work : List Task
  asked : List ShardCmd
  phase : Phase

inductive Input where
  | datagram (src : SocketAddr) (pkt : Bytes)
  | command (cmd : ShardCmd)
  | tick
  | work
  | reorder (r : HashMap.Reorder)
  | exit

structure Event where
  env : Env
  input : Input

namespace Machine

/-- The shard waits for input. -/
def Ready (m : Machine) : Prop := m.phase = .running ∧ m.work = []

instance (m : Machine) : Decidable m.Ready := inferInstanceAs (Decidable (_ ∧ _))

theorem Ready.ne_exited {m : Machine} (h : m.Ready) : m.phase ≠ .exited := by
  rw [h.1]
  decide

/-- The state as a step finds it, with its own reading of the clocks. -/
def ctxAt (m : Machine) (env : Env) : ShardCtx := { m.ctx with env }

/-- Take a command. -/
def takeCommand (m : Machine) (env : Env) (cmd : ShardCmd) : Machine :=
  { m with
    ctx := (m.ctxAt env).handleCmd cmd m.asked.length
    asked := m.asked ++ [cmd]
    phase := if cmd = .shutdown then .stopping else m.phase }

def step (m : Machine) (e : Event) : Machine :=
  match e.input with
  | .datagram src pkt =>
    if m.Ready then
      let (c, tasks) := (m.ctxAt e.env).handleDatagram src pkt
      { m with ctx := c, work := tasks }
    else m
  | .command cmd => if m.Ready then m.takeCommand e.env cmd else m
  | .tick =>
    if m.work = [] ∧ m.phase ≠ .exited then
      let (kinds, timers) := m.ctx.timers.popDue e.env.instant
      { m with ctx := { m.ctxAt e.env with timers }, work := kinds.map .timer }
    else m
  | .work =>
    match m.work with
    | [] => m
    | t :: ts =>
      let (c, tasks) := (m.ctxAt e.env).runTask t
      { m with ctx := c, work := tasks ++ ts }
  | .reorder r => { m with ctx := m.ctx.reorder r }
  | .exit =>
    if m.phase = .stopping ∧ m.work = [] then
      { m with ctx := (m.ctxAt e.env).flushStore, phase := .exited }
    else m

theorem step_work {m : Machine} {t : Task} {ts : List Task} (h : m.work = t :: ts) (env : Env) :
    m.step ⟨env, .work⟩ = { m with
      ctx := ((m.ctxAt env).runTask t).1
      work := ((m.ctxAt env).runTask t).2 ++ ts } := by
  rw [step, h]

theorem step_work_nil {m : Machine} (h : m.work = []) (env : Env) : m.step ⟨env, .work⟩ = m := by
  rw [step, h]

/-- What a step can do to the state: nothing, or one of the six things the loop does. -/
theorem step_cases (m : Machine) (e : Event) :
    m.step e = m ∨
      (∃ src pkt, e.input = .datagram src pkt ∧
        (m.step e).ctx = ((m.ctxAt e.env).handleDatagram src pkt).1 ∧
        (m.step e).asked = m.asked) ∨
      (∃ cmd, e.input = .command cmd ∧
        (m.step e).ctx = (m.ctxAt e.env).handleCmd cmd m.asked.length ∧
        (m.step e).asked = m.asked ++ [cmd]) ∨
      (∃ timers, e.input = .tick ∧ (m.step e).ctx = { m.ctxAt e.env with timers } ∧
        (m.step e).asked = m.asked) ∨
      (∃ t ts, e.input = .work ∧ m.work = t :: ts ∧
        (m.step e).ctx = ((m.ctxAt e.env).runTask t).1 ∧ (m.step e).asked = m.asked) ∨
      (∃ r, e.input = .reorder r ∧ (m.step e).ctx = m.ctx.reorder r ∧
        (m.step e).asked = m.asked) ∨
      (e.input = .exit ∧ (m.step e).ctx = (m.ctxAt e.env).flushStore ∧
        (m.step e).asked = m.asked) := by
  obtain ⟨env, input⟩ := e
  cases input with
  | datagram src pkt =>
    by_cases h : m.Ready
    · refine Or.inr (Or.inl ⟨src, pkt, rfl, ?_⟩)
      simp [step, h]
    · exact Or.inl (if_neg h)
  | command cmd =>
    by_cases h : m.Ready
    · refine Or.inr (Or.inr (Or.inl ⟨cmd, rfl, ?_⟩))
      simp [step, h, takeCommand]
    · exact Or.inl (if_neg h)
  | tick =>
    by_cases h : m.work = [] ∧ m.phase ≠ .exited
    · refine Or.inr (Or.inr (Or.inr (Or.inl ⟨(m.ctx.timers.popDue env.instant).2, rfl, ?_⟩)))
      simp [step, h]
    · exact Or.inl (if_neg h)
  | work =>
    rcases h : m.work with _ | ⟨t, ts⟩
    · left
      simp [step, h]
    · refine Or.inr (Or.inr (Or.inr (Or.inr (Or.inl ⟨t, ts, rfl, rfl, ?_⟩))))
      simp [step, h]
  | reorder r => exact Or.inr (Or.inr (Or.inr (Or.inr (Or.inr (Or.inl ⟨r, rfl, rfl, rfl⟩)))))
  | exit =>
    by_cases h : m.phase = .stopping ∧ m.work = []
    · refine Or.inr (Or.inr (Or.inr (Or.inr (Or.inr (Or.inr ⟨rfl, ?_⟩)))))
      simp [step, h]
    · exact Or.inl (if_neg h)

end Machine

/-- How a shard starts: over any peer index, and any store that can be opened. -/
structure ShardStart where
  id : UInt32
  identity : Identity
  cfg : NodeConfig
  localAddr : SocketAddr
  env : Env
  peers : Peerstore
  store : StoreStart

def ShardStart.machine (s : ShardStart) : Machine where
  ctx := ShardCtx.start s.id s.identity s.cfg s.localAddr s.env s.peers s.store.store
  work := []
  asked := []
  phase := .running

/-- A run of a shard: any events in any order. -/
structure ShardRun where
  start : ShardStart
  events : List Event

def ShardRun.final (run : ShardRun) : Machine := run.events.foldl Machine.step run.start.machine

end

/-! ## A concrete shard -/

namespace Sample

attribute [local instance] wireCrates

/-- A reading of the clocks. -/
def noon : Env := ⟨1000, 1000000, 0, none⟩

def identity (i : Party) : Identity := ⟨i, i.secret⟩

/-- The shard of a node at `10.0.0.1:9000` that starts with nothing. -/
def shardStart (cfg : NodeConfig) : ShardStart where
  id := 0
  identity := identity .first
  cfg := cfg
  localAddr := .ofV4 10 0 0 1 9000
  env := noon
  peers := Peerstore.memory
  store := .new

end Sample

end Molia
