import Molia.Shard.Replies

/-!
# The loop as it is written

The source runs a shard in one loop. A turn of it reads a batch of datagrams and handles each to the
end, with everything that is nested in it and everything that its tunnel still holds; it takes up to
32 commands off the ring; and it fires the timers that are due. A `Shutdown` among the commands ends
the loop after that turn, and the commands behind it are dropped. The flag that the loop reads at
its top is shared with the other shards, so that it may also be cleared from outside.

The event loop of `Molia.Shard.Machine` does the same in small steps, in any order. Here the loop
is translated as it stands, and every run of it is a run of that machine (`refines_machine`). So
whatever holds of all runs of the machine holds of the loop.

What the source reads from its surroundings is passed along: a reading of the clocks and an
iteration order of the maps for every call that looks at them. Handling a datagram need not end,
since a tunnel may go on producing packets; it has a result if the readings suffice.

The number of a command is its position among all that were posted; the machine numbers the commands
that it takes. That the two agree is part of the refinement (`commands_in_order`).
-/

namespace Molia

section

variable [Crates]

open Crates

/-! ## Handling a datagram to the end -/

/-- What a call reads from its surroundings. -/
structure Reading where
  env : Env
  order : HashMap.Reorder

/-- The readings for one turn of the drain loop: its own, and those for a message it brings. -/
structure Round where
  turn : Reading
  message : List Reading

/-- A datagram off the socket, with the readings for all that is done about it. -/
structure Arrival where
  src : SocketAddr
  pkt : Bytes
  start : Reading
  message : List Reading
  rounds : List Round
  flush : Reading

namespace ShardCtx

/-- The state as a call finds it. -/
def observe (c : ShardCtx) (r : Reading) : ShardCtx := { c.reorder r.order with env := r.env }

/-- The recursion of `handle_app`: the payload of a relay frame is handled in turn. -/
def handleMessage (c : ShardCtx) (src : SocketAddr) (pkt : Bytes) (authenticated : Bool) :
    List Reading → Option ShardCtx
  | [] => none
  | r :: rs =>
    match (c.observe r).handleApp src pkt authenticated with
    | (c, none) => some c
    | (c, some payload) => c.handleMessage src payload false rs

def drainWgSession (c : ShardCtx) (src : SocketAddr) : List Round → Option ShardCtx
  | [] => none
  | r :: rounds =>
    match (c.observe r.turn).decapsulate src [] with
    | (.network reply, c) => (c.transmit src reply .tunnel).drainWgSession src rounds
    | (.plaintext inner, c) =>
      (c.handleMessage src (unwrapRpc inner) true r.message).bind fun c ↦
        c.drainWgSession src rounds
    | (.cookie _, c) => some c
    | (.drop, c) => some c

/-- The end of the two arms that go on with the tunnel. -/
def settleTunnel (c : ShardCtx) (a : Arrival) : Option ShardCtx :=
  (c.drainWgSession a.src a.rounds).map fun c ↦
    let c := c.observe a.flush
    c.withNet (c.toShardNet.flushPendingWg a.src)

/-- The whole of `handle_datagram`. -/
def receive (c : ShardCtx) (a : Arrival) : Option ShardCtx :=
  let c := c.observe a.start
  if looksLikeWg a.pkt then
    let (ok, sybil) := c.sybil.allowPreHandshake c.now a.src
    let c := { c with sybil }
    if ok = false then some c
    else
      match c.decapsulate a.src a.pkt with
      | (.plaintext inner, c) =>
        (c.handleMessage a.src (unwrapRpc inner) true a.message).bind fun c ↦ c.settleTunnel a
      | (.network reply, c) => (c.transmit a.src reply .tunnel).settleTunnel a
      | (.cookie cookie, c) => some (c.transmit a.src cookie (.clear none))
      | (.drop, c) => some c
  else c.handleMessage a.src a.pkt false a.message

/-- Fire one timer of a turn. -/
def fire (readings : ℕ → Reading) (c : ShardCtx) (timer : TimerKind × ℕ) : ShardCtx :=
  (c.observe (readings timer.2)).onTimer timer.1

/-- Fire the timers that are due. -/
def fireTimers (c : ShardCtx) (due : Reading) (readings : ℕ → Reading) : ShardCtx :=
  let (kinds, timers) := c.timers.popDue due.env.instant
  kinds.zipIdx.foldl (fire readings) { c.observe due with timers }

end ShardCtx

/-! ## The loop -/

/-- How many commands a turn takes at most. -/
def drainBatch : ℕ := 32

/-- Take up to so many entries off a ring. -/
def drainCmds {T : Type*} : ℕ → List T → List T × List T
  | 0, ring => ([], ring)
  | _ + 1, [] => ([], [])
  | n + 1, x :: ring =>
    let (out, rest) := drainCmds n ring
    (x :: out, rest)

omit [Crates] in
theorem drainCmds_zipIdx {T : Type*} (k : ℕ) (l : List T) (n : ℕ) :
    drainCmds k (l.zipIdx n) = ((l.take k).zipIdx n, (l.drop k).zipIdx (n + k)) := by
  induction k generalizing l n with
  | zero => rfl
  | succ k ih =>
    rcases l with _ | ⟨x, l⟩
    · rfl
    · rw [List.zipIdx_cons, drainCmds, ih, List.take_succ_cons, List.zipIdx_cons,
        List.drop_succ_cons, Nat.add_assoc, Nat.add_comm 1 k]

/-- What a turn of the loop meets with: whether the flag has been cleared from outside, the
datagrams it reads, the commands that are posted until it looks at the ring, and its readings. -/
structure Turn where
  halted : Bool
  batch : List Arrival
  /-- There are 32 buffers. -/
  length_le : batch.length ≤ 32
  posts : List ShardCmd
  commands : Chan → Reading
  due : Reading
  timers : ℕ → Reading

/-- The loop between two turns: the state of the shard, the ring with the number of each command,
how many commands were posted, the flag, and what was taken in so far. The last is a history. -/
structure Loop where
  ctx : ShardCtx
  ring : List (ShardCmd × Chan)
  posted : ℕ
  running : Bool
  inputs : List Input

def Input.command? : Input → Option ShardCmd
  | .command cmd => some cmd
  | .datagram _ _ | .tick | .work | .reorder _ | .exit => none

/-- What an event brings from outside. -/
def Event.outside (e : Event) : List Input :=
  match e.input with
  | .datagram src pkt => [.datagram src pkt]
  | .command cmd => [.command cmd]
  | .tick | .work | .reorder _ | .exit => []

namespace Loop

def start (s : ShardStart) : Loop where
  ctx := s.machine.ctx
  ring := []
  posted := 0
  running := true
  inputs := []

/-- The commands that were taken, in their order. -/
def taken (l : Loop) : List ShardCmd := l.inputs.filterMap Input.command?

def receive (l : Loop) (a : Arrival) : Option Loop :=
  (l.ctx.receive a).map fun c ↦ { l with ctx := c, inputs := l.inputs ++ [.datagram a.src a.pkt] }

/-- Commands come in on the ring. -/
def post (l : Loop) (cmds : List ShardCmd) : Loop :=
  { l with ring := l.ring ++ cmds.zipIdx l.posted, posted := l.posted + cmds.length }

/-- The commands of a turn; those behind a shutdown are dropped. -/
def handleCmds (readings : Chan → Reading) (l : Loop) : List (ShardCmd × Chan) → Loop
  | [] => l
  | (cmd, tx) :: cmds =>
    if cmd = .shutdown then { l with running := false, inputs := l.inputs ++ [.command cmd] }
    else
      handleCmds readings
        { l with
          ctx := (l.ctx.observe (readings tx)).handleCmd cmd tx
          inputs := l.inputs ++ [.command cmd] }
        cmds

def drain (l : Loop) (readings : Chan → Reading) : Loop :=
  let (cmds, ring) := drainCmds drainBatch l.ring
  handleCmds readings { l with ring } cmds

def turn (l : Loop) (t : Turn) : Option Loop :=
  (t.batch.foldlM receive l).map fun l ↦
    let l := (l.post t.posts).drain t.commands
    { l with ctx := l.ctx.fireTimers t.due t.timers }

def run : List Turn → Loop → Option Loop
  | [], l => some l
  | t :: ts, l =>
    if l.running = false ∨ t.halted = true then some { l with running := false }
    else (l.turn t).bind (run ts)

/-- What is done after the loop. -/
def finish (l : Loop) (r : Reading) : ShardCtx := (l.ctx.observe r).flushStore

end Loop

/-! ## The machine does what the loop does -/

namespace Machine

/-- A run of the machine that takes in the given datagrams and commands. -/
abbrev Shows (m : Machine) (inputs : List Input) (m' : Machine) : Prop :=
  Runs.Traces Machine.step Event.outside m inputs m'

/-- The machine with another state and other work. -/
def doing (m : Machine) (c : ShardCtx) (ts : List Task) : Machine := { m with ctx := c, work := ts }

/-- A step under an iteration order of its own. -/
theorem shows_step (m : Machine) (r : Reading) (input : Input) :
    m.Shows (Event.outside ⟨r.env, input⟩)
      (step { m with ctx := m.ctx.reorder r.order } ⟨r.env, input⟩) := by
  have hreorder : m.Shows [] { m with ctx := m.ctx.reorder r.order } :=
    Runs.Traces.single m (⟨r.env, .reorder r.order⟩ : Event)
  exact hreorder.trans (Runs.Traces.single _ _)

variable (m : Machine) {c c' : ShardCtx} {src : SocketAddr} {ts : List Task}

theorem shows_work (c : ShardCtx) (t : Task) (ts : List Task) (r : Reading) :
    (m.doing c (t :: ts)).Shows []
      (m.doing ((c.observe r).runTask t).1 (((c.observe r).runTask t).2 ++ ts)) := by
  have hwork : (m.doing (c.reorder r.order) (t :: ts)).work = t :: ts := rfl
  have hstep := (m.doing c (t :: ts)).shows_step r .work
  change (m.doing c (t :: ts)).Shows []
    ((m.doing (c.reorder r.order) (t :: ts)).step ⟨r.env, .work⟩) at hstep
  rw [step_work hwork] at hstep
  exact hstep

/-- A message is handled, with what is nested in it, before the rest of the work. -/
theorem shows_message {pkt : Bytes} {authenticated : Bool} {rs : List Reading}
    (h : c.handleMessage src pkt authenticated rs = some c') :
    (m.doing c (.app src pkt authenticated :: ts)).Shows [] (m.doing c' ts) := by
  induction rs generalizing c pkt authenticated with
  | nil => cases h
  | cons r rs ih =>
    have hstep := m.shows_work c (.app src pkt authenticated) ts r
    rw [ShardCtx.handleMessage] at h
    rcases happ : (c.observe r).handleApp src pkt authenticated with ⟨c₁, _ | payload⟩
    · rw [happ] at h
      rw [ShardCtx.runTask, happ] at hstep
      rw [← Option.some.inj h]
      exact hstep
    · rw [happ] at h
      rw [ShardCtx.runTask, happ] at hstep
      exact hstep.silent (ih h)

theorem shows_drain {rounds : List Round} (h : c.drainWgSession src rounds = some c') :
    (m.doing c (.drain src :: ts)).Shows [] (m.doing c' ts) := by
  induction rounds generalizing c with
  | nil => cases h
  | cons r rounds ih =>
    have hstep := m.shows_work c (.drain src) ts r.turn
    rw [ShardCtx.drainWgSession] at h
    rw [ShardCtx.runTask, ShardCtx.drainTurn] at hstep
    rcases hdec : (c.observe r.turn).decapsulate src [] with ⟨inner | reply | cookie | _, c₁⟩
    · rw [hdec] at h hstep
      obtain ⟨c₂, hmsg, hrest⟩ := Option.bind_eq_some_iff.mp h
      exact (hstep.silent (m.shows_message hmsg)).silent (ih hrest)
    · rw [hdec] at h hstep
      exact hstep.silent (ih h)
    · rw [hdec] at h hstep
      rw [← Option.some.inj h]
      exact hstep
    · rw [hdec] at h hstep
      rw [← Option.some.inj h]
      exact hstep

theorem shows_settleTunnel {a : Arrival} (h : c.settleTunnel a = some c') :
    (m.doing c [.drain a.src, .flush a.src]).Shows [] (m.doing c' []) := by
  obtain ⟨c₁, hdrain, rfl⟩ := Option.map_eq_some_iff.mp h
  exact (m.shows_drain hdrain).silent (m.shows_work c₁ (.flush a.src) [] a.flush)

theorem shows_tasks {a : Arrival} (h : c.receive a = some c') :
    (m.doing ((c.observe a.start).handleDatagram a.src a.pkt).1
      ((c.observe a.start).handleDatagram a.src a.pkt).2).Shows [] (m.doing c' []) := by
  rw [ShardCtx.receive] at h
  rw [ShardCtx.handleDatagram]
  by_cases hwg : looksLikeWg a.pkt = true
  · rw [if_pos hwg] at h ⊢
    generalize (c.observe a.start).sybil.allowPreHandshake (c.observe a.start).now a.src = res
      at h ⊢
    obtain ⟨_ | _, sybil⟩ := res
    · dsimp only at h ⊢
      rw [if_pos rfl] at h ⊢
      rw [← Option.some.inj h]
      exact .refl _
    · dsimp only at h ⊢
      rw [if_neg Bool.noConfusion] at h ⊢
      generalize { c.observe a.start with sybil := sybil } = c₀ at h ⊢
      rcases hdec : c₀.decapsulate a.src a.pkt with ⟨inner | reply | cookie | _, c₁⟩
      · rw [hdec] at h
        obtain ⟨c₂, hmsg, hrest⟩ := Option.bind_eq_some_iff.mp h
        exact (m.shows_message hmsg).silent (m.shows_settleTunnel hrest)
      · rw [hdec] at h
        exact m.shows_settleTunnel h
      · rw [hdec] at h
        rw [← Option.some.inj h]
        exact .refl _
      · rw [hdec] at h
        rw [← Option.some.inj h]
        exact .refl _
  · rw [if_neg hwg] at h ⊢
    exact m.shows_message h

theorem shows_receive {m : Machine} {a : Arrival} (hready : m.Ready)
    (h : m.ctx.receive a = some c) : m.Shows [.datagram a.src a.pkt] (m.doing c []) := by
  have hstep := m.shows_step a.start (.datagram a.src a.pkt)
  have hdatagram : step { m with ctx := m.ctx.reorder a.start.order }
      ⟨a.start.env, .datagram a.src a.pkt⟩
      = m.doing ((m.ctx.observe a.start).handleDatagram a.src a.pkt).1
        ((m.ctx.observe a.start).handleDatagram a.src a.pkt).2 := if_pos hready
  rw [hdatagram] at hstep
  exact hstep.silent (m.shows_tasks h)

theorem shows_timers (kinds : List TimerKind) (readings : ℕ → Reading) (n : ℕ) (c : ShardCtx) :
    (m.doing c (kinds.map .timer)).Shows []
      (m.doing ((kinds.zipIdx n).foldl (ShardCtx.fire readings) c) []) := by
  induction kinds generalizing n c with
  | nil => exact .refl _
  | cons kind kinds ih =>
    exact (m.shows_work c (.timer kind) (kinds.map .timer) (readings n)).silent (ih (n + 1) _)

theorem shows_fireTimers {m : Machine} (hwork : m.work = []) (hphase : m.phase ≠ .exited)
    (due : Reading) (readings : ℕ → Reading) :
    m.Shows [] (m.doing (m.ctx.fireTimers due readings) []) := by
  have hstep := m.shows_step due .tick
  have htick : step { m with ctx := m.ctx.reorder due.order } ⟨due.env, .tick⟩
      = m.doing { m.ctx.observe due with timers := (m.ctx.timers.popDue due.env.instant).2 }
        ((m.ctx.timers.popDue due.env.instant).1.map .timer) := if_pos ⟨hwork, hphase⟩
  rw [htick] at hstep
  exact hstep.silent (m.shows_timers _ readings 0 _)

/-- A command is taken under the number of commands that were taken before. -/
theorem shows_command {m : Machine} (hready : m.Ready) (r : Reading) {cmd : ShardCmd}
    (hcmd : cmd ≠ .shutdown) :
    m.Shows [.command cmd] { m with
      ctx := (m.ctx.observe r).handleCmd cmd m.asked.length
      asked := m.asked ++ [cmd] } := by
  have hstep := m.shows_step r (.command cmd)
  have htake : step { m with ctx := m.ctx.reorder r.order } ⟨r.env, .command cmd⟩ = { m with
      ctx := (m.ctx.observe r).handleCmd cmd m.asked.length
      asked := m.asked ++ [cmd] } := by
    refine (if_pos hready).trans ?_
    rw [takeCommand, if_neg hcmd]
    rfl
  rw [htake] at hstep
  exact hstep

theorem shows_shutdown {m : Machine} (hready : m.Ready) :
    m.Shows [.command .shutdown] { m with
      asked := m.asked ++ [.shutdown]
      phase := .stopping } := by
  have hstep : m.Shows [.command .shutdown] (m.step ⟨m.ctx.env, .command .shutdown⟩) :=
    Runs.Traces.single m (⟨m.ctx.env, .command .shutdown⟩ : Event)
  have htake : m.step ⟨m.ctx.env, .command .shutdown⟩ = { m with
      asked := m.asked ++ [.shutdown]
      phase := .stopping } := if_pos hready
  rw [htake] at hstep
  exact hstep

theorem shows_exit {m : Machine} (hphase : m.phase = .stopping) (hwork : m.work = [])
    (r : Reading) :
    m.Shows [] { m with ctx := (m.ctx.observe r).flushStore, phase := .exited } := by
  have hstep := m.shows_step r .exit
  have hexit : step { m with ctx := m.ctx.reorder r.order } ⟨r.env, .exit⟩
      = { m with ctx := (m.ctx.observe r).flushStore, phase := .exited } :=
    if_pos ⟨hphase, hwork⟩
  rw [hexit] at hstep
  exact hstep

end Machine

/-! ## Commands in their order -/

namespace Loop

variable {s : ShardStart} {l l' : Loop} {m : Machine} {log : List ShardCmd}

theorem taken_command (l : Loop) (c : ShardCtx) (b : Bool) (cmd : ShardCmd) :
    taken { l with ctx := c, running := b, inputs := l.inputs ++ [.command cmd] }
      = l.taken ++ [cmd] :=
  List.filterMap_append

/-- What a batch of datagrams leaves alone. -/
structure SameRing (l l' : Loop) : Prop where
  ring : l'.ring = l.ring
  posted : l'.posted = l.posted
  running : l'.running = l.running
  taken : l'.taken = l.taken

theorem sameRing_receive {a : Arrival} (h : l.receive a = some l') : SameRing l l' := by
  obtain ⟨c, -, rfl⟩ := Option.map_eq_some_iff.mp h
  refine ⟨rfl, rfl, rfl, ?_⟩
  rw [taken, List.filterMap_append]
  exact List.append_nil _

theorem sameRing_batch {batch : List Arrival} (h : batch.foldlM receive l = some l') :
    SameRing l l' := by
  induction batch generalizing l with
  | nil => exact Option.some.inj h ▸ ⟨rfl, rfl, rfl, rfl⟩
  | cons a batch ih =>
    rw [List.foldlM_cons] at h
    obtain ⟨l₁, hfirst, hrest⟩ := Option.bind_eq_some_iff.mp h
    have h₁ := sameRing_receive hfirst
    have h₂ := ih hrest
    exact ⟨h₂.ring.trans h₁.ring, h₂.posted.trans h₁.posted, h₂.running.trans h₁.running,
      h₂.taken.trans h₁.taken⟩

/-- The commands of a turn are taken from the first on, all of them unless one is a shutdown. -/
theorem handleCmds_spec (readings : Chan → Reading) (l : Loop) (cmds : List ShardCmd) (n : ℕ) :
    (l.handleCmds readings (cmds.zipIdx n)).ring = l.ring ∧
      (l.handleCmds readings (cmds.zipIdx n)).posted = l.posted ∧
      ∃ some, some <+: cmds ∧
        (l.handleCmds readings (cmds.zipIdx n)).taken = l.taken ++ some ∧
        ((l.handleCmds readings (cmds.zipIdx n)).running = true → some = cmds) := by
  induction cmds generalizing l n with
  | nil => exact ⟨rfl, rfl, [], List.prefix_rfl, (List.append_nil _).symm, fun _ ↦ rfl⟩
  | cons cmd cmds ih =>
    rw [List.zipIdx_cons, handleCmds]
    by_cases hcmd : cmd = .shutdown
    · rw [if_pos hcmd]
      refine ⟨rfl, rfl, [cmd], List.prefix_append [cmd] cmds, l.taken_command _ _ cmd, ?_⟩
      rintro ⟨⟩
    · rw [if_neg hcmd]
      obtain ⟨hring, hposted, some, hsome, htaken, hall⟩ := ih
        { l with
          ctx := (l.ctx.observe (readings n)).handleCmd cmd n
          inputs := l.inputs ++ [.command cmd] } (n + 1)
      refine ⟨hring, hposted, cmd :: some, List.cons_prefix_cons.mpr ⟨rfl, hsome⟩, ?_, ?_⟩
      · rw [htaken, l.taken_command _ l.running cmd, List.append_assoc]
        rfl
      · intro hrunning
        rw [hall hrunning]

theorem drain_eq {cmds : List ShardCmd} {n : ℕ} (h : l.ring = cmds.zipIdx n)
    (readings : Chan → Reading) :
    l.drain readings = handleCmds readings
      { l with ring := (cmds.drop drainBatch).zipIdx (n + drainBatch) }
      ((cmds.take drainBatch).zipIdx n) := by
  rw [drain, h, drainCmds_zipIdx]

/-- The ring holds what was posted and not taken, each command under its number. -/
structure Queued (log : List ShardCmd) (l : Loop) : Prop where
  posted : l.posted = log.length
  taken : l.taken <+: log
  ring : l.running = true → l.ring = (log.drop l.taken.length).zipIdx l.taken.length

theorem queued_start (s : ShardStart) : Queued [] (start s) :=
  ⟨rfl, List.prefix_rfl, fun _ ↦ rfl⟩

theorem Queued.receive (h : Queued log l) (hsame : SameRing l l') : Queued log l' := by
  refine ⟨hsame.posted.trans h.posted, hsame.taken ▸ h.taken, fun hrunning ↦ ?_⟩
  rw [hsame.ring, hsame.taken, h.ring (hsame.running.symm.trans hrunning)]

theorem Queued.post (h : Queued log l) (cmds : List ShardCmd) :
    Queued (log ++ cmds) (l.post cmds) := by
  refine ⟨?_, h.taken.trans (List.prefix_append log cmds), fun hrunning ↦ ?_⟩
  · rw [List.length_append, ← h.posted]
    rfl
  · obtain ⟨rest, hrest⟩ := h.taken
    change l.ring ++ cmds.zipIdx l.posted
      = ((log ++ cmds).drop l.taken.length).zipIdx l.taken.length
    rw [h.ring hrunning, h.posted, ← hrest, List.append_assoc, List.drop_left, List.drop_left,
      List.zipIdx_append, List.length_append]

theorem Queued.drain (h : Queued log l) (hrunning : l.running = true)
    (readings : Chan → Reading) :
    Queued log (l.drain readings) ∧ ((l.drain readings).running = true →
      (l.drain readings).taken.length = min (l.taken.length + drainBatch) log.length) := by
  obtain ⟨rest, hrest⟩ := h.taken
  have hring := h.ring hrunning
  rw [← hrest, List.drop_left] at hring
  rw [drain_eq hring]
  obtain ⟨hring', hposted, some, hsome, htaken, hall⟩ := handleCmds_spec readings
    { l with ring := (rest.drop drainBatch).zipIdx (l.taken.length + drainBatch) }
    (rest.take drainBatch) l.taken.length
  change _ = l.taken ++ some at htaken
  rw [← hrest, htaken, List.length_append, List.length_append]
  refine ⟨⟨?_, ?_, fun hgo ↦ ?_⟩, fun hgo ↦ ?_⟩
  · rw [hposted, hrest]
    exact h.posted
  · rw [htaken]
    exact (List.prefix_append_right_inj _).mpr (hsome.trans (List.take_prefix _ _))
  · rw [hring', htaken, hall hgo, List.length_append, List.length_take]
    rcases Nat.le_total drainBatch rest.length with hmany | hfew
    · rw [Nat.min_eq_left hmany, List.drop_length_add_append]
    · rw [Nat.min_eq_right hfew, List.drop_eq_nil_of_le hfew, List.drop_length_add_append,
        List.drop_length]
      rfl
  · rw [hall hgo, List.length_take]
    omega

theorem Queued.turn (h : Queued log l) (hrunning : l.running = true) {t : Turn}
    (hturn : l.turn t = some l') :
    Queued (log ++ t.posts) l' ∧ (l'.running = true →
      l'.taken.length = min (l.taken.length + drainBatch) (log ++ t.posts).length) := by
  obtain ⟨l₁, hbatch, rfl⟩ := Option.map_eq_some_iff.mp hturn
  have hsame := sameRing_batch hbatch
  obtain ⟨⟨hposted, htaken, hring⟩, hmany⟩ := ((h.receive hsame).post t.posts).drain
    (hsame.running.trans hrunning) t.commands
  refine ⟨⟨hposted, htaken, hring⟩, fun hgo ↦ ?_⟩
  rw [← hsame.taken]
  exact hmany hgo

/-! ## The refinement -/

/-- The machine stands where the loop stands. -/
structure Matches (s : ShardStart) (l : Loop) (m : Machine) : Prop where
  shows : s.machine.Shows l.inputs m
  ctx : m.ctx = l.ctx
  work : m.work = []
  asked : m.asked = l.taken
  phase : m.phase = if .shutdown ∈ l.taken then .stopping else .running
  running : l.running = true → .shutdown ∉ l.taken
  /-- Nothing is taken after a shutdown. -/
  last : .shutdown ∉ l.taken.dropLast

namespace Matches

theorem start (s : ShardStart) : Matches s (start s) s.machine :=
  ⟨.refl _, rfl, rfl, rfl, rfl, fun _ ↦ List.not_mem_nil, List.not_mem_nil⟩

theorem ready (h : Matches s l m) (hrunning : l.running = true) : m.Ready :=
  ⟨by rw [h.phase, if_neg (h.running hrunning)], h.work⟩

theorem ne_exited (h : Matches s l m) : m.phase ≠ .exited := by
  rw [h.phase]
  split
  · decide
  · decide

theorem receive (h : Matches s l m) (hrunning : l.running = true) {a : Arrival}
    (hrec : l.receive a = some l') : ∃ m', Matches s l' m' := by
  have hsame := sameRing_receive hrec
  obtain ⟨c, hc, rfl⟩ := Option.map_eq_some_iff.mp hrec
  rw [← h.ctx] at hc
  refine ⟨m.doing c [], h.shows.trans (Machine.shows_receive (h.ready hrunning) hc), rfl, rfl, ?_,
    ?_, ?_, ?_⟩
  · rw [hsame.taken]
    exact h.asked
  · rw [hsame.taken]
    exact h.phase
  · rw [hsame.taken]
    exact h.running
  · rw [hsame.taken]
    exact h.last

theorem batch (h : Matches s l m) (hrunning : l.running = true) {batch : List Arrival}
    (hbatch : batch.foldlM Loop.receive l = some l') : ∃ m', Matches s l' m' := by
  induction batch generalizing l m with
  | nil => exact ⟨m, Option.some.inj hbatch ▸ h⟩
  | cons a batch ih =>
    rw [List.foldlM_cons] at hbatch
    obtain ⟨l₁, hfirst, hrest⟩ := Option.bind_eq_some_iff.mp hbatch
    obtain ⟨m₁, h₁⟩ := h.receive hrunning hfirst
    exact ih h₁ ((sameRing_receive hfirst).running.trans hrunning) hrest

/-- The numbers on the ring are those that the machine gives. -/
theorem handleCmds (h : Matches s l m) (hrunning : l.running = true) (readings : Chan → Reading)
    (cmds : List ShardCmd) :
    ∃ m', Matches s (l.handleCmds readings (cmds.zipIdx l.taken.length)) m' := by
  induction cmds generalizing l m with
  | nil => exact ⟨m, h⟩
  | cons cmd cmds ih =>
    have hready := h.ready hrunning
    rw [List.zipIdx_cons, Loop.handleCmds]
    by_cases hcmd : cmd = .shutdown
    · rw [if_pos hcmd]
      subst hcmd
      have htaken := l.taken_command l.ctx false .shutdown
      refine ⟨_, h.shows.trans (Machine.shows_shutdown hready), h.ctx, h.work, ?_, ?_, ?_, ?_⟩
      · rw [htaken, ← h.asked]
      · rw [htaken, if_pos (List.mem_append_right _ (List.mem_singleton_self _))]
      · rintro ⟨⟩
      · rw [htaken, List.dropLast_concat]
        exact h.running hrunning
    · rw [if_neg hcmd]
      have htaken := l.taken_command
        ((l.ctx.observe (readings l.taken.length)).handleCmd cmd l.taken.length) l.running cmd
      have hstep := Machine.shows_command hready (readings l.taken.length) hcmd
      rw [h.asked, h.ctx] at hstep
      have hnone : .shutdown ∉ l.taken ++ [cmd] := by
        rw [List.mem_append, List.mem_singleton]
        exact not_or.mpr ⟨h.running hrunning, fun heq ↦ hcmd heq.symm⟩
      have hnext : Matches s
          { l with
            ctx := (l.ctx.observe (readings l.taken.length)).handleCmd cmd l.taken.length
            inputs := l.inputs ++ [.command cmd] }
          { m with
            ctx := (l.ctx.observe (readings l.taken.length)).handleCmd cmd l.taken.length
            asked := l.taken ++ [cmd] } := by
        refine ⟨h.shows.trans hstep, rfl, h.work, htaken.symm, ?_, fun _ ↦ ?_, ?_⟩
        · rw [htaken, if_neg hnone]
          exact hready.1
        · rw [htaken]
          exact hnone
        · rw [htaken, List.dropLast_concat]
          exact h.running hrunning
      have hrest := ih hnext hrunning
      rw [htaken, List.length_append, List.length_singleton] at hrest
      exact hrest

theorem turn (h : Matches s l m) (hq : Queued log l) (hrunning : l.running = true) {t : Turn}
    (hturn : l.turn t = some l') : ∃ m', Matches s l' m' := by
  obtain ⟨l₁, hbatch, rfl⟩ := Option.map_eq_some_iff.mp hturn
  have hsame := sameRing_batch hbatch
  have hgo : l₁.running = true := hsame.running.trans hrunning
  obtain ⟨m₁, h₁⟩ := h.batch hrunning hbatch
  have hpost := (hq.receive hsame).post t.posts
  have hdrained : ∃ m', Matches s ((l₁.post t.posts).drain t.commands) m' := by
    rw [drain_eq (hpost.ring hgo)]
    exact handleCmds (l := { l₁.post t.posts with ring := _ })
      ⟨h₁.shows, h₁.ctx, h₁.work, h₁.asked, h₁.phase, h₁.running, h₁.last⟩ hgo t.commands _
  obtain ⟨m₂, h₂⟩ := hdrained
  have htimers := Machine.shows_fireTimers h₂.work h₂.ne_exited t.due t.timers
  rw [h₂.ctx] at htimers
  exact ⟨_, h₂.shows.silent htimers, rfl, rfl, h₂.asked, h₂.phase, h₂.running, h₂.last⟩

/-- After the loop the machine exits; if the flag was cleared from outside, it is told to first. -/
theorem exits (h : Matches s l m) (r : Reading) :
    ∃ inputs m', m.Shows inputs m' ∧ m'.ctx = l.finish r ∧ m'.phase = .exited := by
  rw [finish, ← h.ctx]
  by_cases hshut : .shutdown ∈ l.taken
  · have hphase := h.phase
    rw [if_pos hshut] at hphase
    exact ⟨_, _, Machine.shows_exit hphase h.work r, rfl, rfl⟩
  · have hphase := h.phase
    rw [if_neg hshut] at hphase
    have hstop := Machine.shows_shutdown ⟨hphase, h.work⟩
    have hexit := Machine.shows_exit (m := { m with
      asked := m.asked ++ [.shutdown]
      phase := .stopping }) rfl h.work r
    exact ⟨_, _, hstop.silent hexit, rfl, rfl⟩

end Matches

theorem matches_run {turns : List Turn} (h : Matches s l m) (hq : Queued log l)
    (hrun : run turns l = some l') :
    ∃ m' made, made <+: turns ∧ (l'.running = true → made = turns) ∧ Matches s l' m' ∧
      Queued (log ++ made.flatMap Turn.posts) l' := by
  induction turns generalizing l m log with
  | nil =>
    refine ⟨m, [], List.prefix_rfl, fun _ ↦ rfl, Option.some.inj hrun ▸ h, ?_⟩
    rw [List.flatMap_nil, List.append_nil]
    exact Option.some.inj hrun ▸ hq
  | cons t turns ih =>
    rw [run] at hrun
    split_ifs at hrun with hend
    · rw [← Option.some.inj hrun]
      refine ⟨m, [], List.nil_prefix, by rintro ⟨⟩,
        ⟨h.shows, h.ctx, h.work, h.asked, h.phase, by rintro ⟨⟩, h.last⟩, ?_⟩
      rw [List.flatMap_nil, List.append_nil]
      exact ⟨hq.posted, hq.taken, by rintro ⟨⟩⟩
    · have hrunning : l.running = true := Bool.eq_true_of_not_eq_false (not_or.mp hend).1
      obtain ⟨l₁, hturn, hrest⟩ := Option.bind_eq_some_iff.mp hrun
      obtain ⟨m₁, h₁⟩ := h.turn hq hrunning hturn
      obtain ⟨m', made, hmade, hall, h', hq'⟩ := ih h₁ (hq.turn hrunning hturn).1 hrest
      refine ⟨m', t :: made, List.cons_prefix_cons.mpr ⟨rfl, hmade⟩,
        fun hgo ↦ congrArg (t :: ·) (hall hgo), h', ?_⟩
      rw [List.flatMap_cons, ← List.append_assoc]
      exact hq'

theorem run_append (pre post : List Turn) (l : Loop) :
    run (pre ++ post) l = (run pre l).bind (run post) := by
  induction pre generalizing l with
  | nil => rfl
  | cons t pre ih =>
    rw [List.cons_append, run, run]
    split_ifs
    · rcases post with _ | ⟨t', post⟩
      · rfl
      · rw [Option.bind_some, run, if_pos (Or.inl rfl)]
    · rw [Option.bind_assoc]
      exact Option.bind_congr fun l₁ _ ↦ ih l₁

theorem running_of_run {turns : List Turn} (hrun : run turns l = some l')
    (hrunning : l'.running = true) : l.running = true := by
  rcases turns with _ | ⟨t, turns⟩
  · rw [Option.some.inj hrun]
    exact hrunning
  · rw [run] at hrun
    split_ifs at hrun with hend
    · rw [← Option.some.inj hrun] at hrunning
      cases hrunning
    · exact Bool.eq_true_of_not_eq_false (not_or.mp hend).1

theorem length_taken_run {turns : List Turn} (hq : Queued log l) (hrun : run turns l = some l')
    (hrunning : l'.running = true) :
    min log.length (l.taken.length + drainBatch * turns.length) ≤ l'.taken.length := by
  induction turns generalizing l log with
  | nil =>
    rw [← Option.some.inj hrun]
    exact min_le_right _ _
  | cons t turns ih =>
    have hgo := running_of_run hrun hrunning
    rw [run] at hrun
    split_ifs at hrun with hend
    · rw [← Option.some.inj hrun] at hrunning
      cases hrunning
    · obtain ⟨l₁, hturn, hrest⟩ := Option.bind_eq_some_iff.mp hrun
      obtain ⟨hq₁, htaken⟩ := hq.turn hgo hturn
      have hlater := ih hq₁ hrest
      rw [htaken (running_of_run hrest hrunning), List.length_append] at hlater
      rw [List.length_cons, Nat.mul_succ]
      omega

/-- **The loop is a run of the machine.** For every run of the loop there is a run of the machine
that takes in the same datagrams and commands in the same order and ends in the same state, with no
work left and the same commands taken. When the loop has ended, the machine can go on to where it
has exited, with the state as it is after the final flush. -/
theorem refines_machine (s : ShardStart) (turns : List Turn) (l : Loop)
    (hrun : run turns (start s) = some l) :
    ∃ events : List Event, events.flatMap Event.outside = l.inputs ∧
      (⟨s, events⟩ : ShardRun).final.ctx = l.ctx ∧ (⟨s, events⟩ : ShardRun).final.work = [] ∧
      (⟨s, events⟩ : ShardRun).final.asked = l.taken ∧
      ∀ r : Reading, ∃ last : List Event,
        (⟨s, events ++ last⟩ : ShardRun).final.ctx = l.finish r ∧
        (⟨s, events ++ last⟩ : ShardRun).final.phase = .exited := by
  obtain ⟨m, -, -, -, h, -⟩ := matches_run (Matches.start s) (queued_start s) hrun
  obtain ⟨events, hinputs, hfinal⟩ := h.shows
  change (⟨s, events⟩ : ShardRun).final = m at hfinal
  refine ⟨events, hinputs, ?_, ?_, ?_, fun r ↦ ?_⟩
  · rw [hfinal, h.ctx]
  · rw [hfinal, h.work]
  · rw [hfinal, h.asked]
  · obtain ⟨inputs, m', ⟨last, -, hlast⟩, hctx, hphase⟩ := h.exits r
    have hend : (⟨s, events ++ last⟩ : ShardRun).final = m' := by
      rw [ShardRun.final, List.foldl_append]
      exact (congrArg (last.foldl Machine.step) hfinal).trans hlast
    refine ⟨last, ?_, ?_⟩
    · rw [hend, hctx]
    · rw [hend, hphase]

/-- **Commands are taken in the order they are posted.** In every run of the loop, whatever turns
are made: the commands taken are the first ones posted, each under its own number; none is taken
after a shutdown, and none gets a reply that does not ask for one, or gets two. As long as the loop
runs, all that was posted before the last `n` turns has been taken, or `32 * n` commands. -/
theorem commands_in_order (s : ShardStart) (pre post : List Turn) (l : Loop)
    (hrun : run (pre ++ post) (start s) = some l) :
    l.taken <+: (pre ++ post).flatMap Turn.posts ∧ .shutdown ∉ l.taken.dropLast ∧
      (∀ i, l.ctx.desk.answered i ≤ Machine.due l.taken i) ∧
      (l.running = true →
        min (pre.flatMap Turn.posts).length (32 * post.length) ≤ l.taken.length) := by
  obtain ⟨m, made, hmade, -, h, hq⟩ := matches_run (Matches.start s) (queued_start s) hrun
  obtain ⟨events, -, hfinal⟩ := h.shows
  rw [run_append] at hrun
  obtain ⟨l₁, hpre, hpost⟩ := Option.bind_eq_some_iff.mp hrun
  refine ⟨?_, h.last, fun i ↦ ?_, fun hrunning ↦ ?_⟩
  · rw [List.nil_append] at hq
    obtain ⟨rest, hrest⟩ := hmade
    refine hq.taken.trans ?_
    rw [← hrest, List.flatMap_append]
    exact List.prefix_append _ _
  · have htally := (⟨s, events⟩ : ShardRun).tally_le i
    change (⟨s, events⟩ : ShardRun).final = m at hfinal
    rw [hfinal, h.ctx, h.asked, Desk.tally] at htally
    exact (Nat.le_add_right _ _).trans htally
  · obtain ⟨-, made₁, -, hall, -, hq₁⟩ := matches_run (Matches.start s) (queued_start s) hpre
    rw [hall (running_of_run hpost hrunning), List.nil_append] at hq₁
    have htaken := length_taken_run hq₁ hpost hrunning
    rw [drainBatch] at htaken
    omega

end Loop

end

/-! ## A shard that is stopped -/

namespace Sample

attribute [local instance] wireCrates

private def atNoon : Reading := ⟨noon, ⟨fun l ↦ l, fun l ↦ .refl l⟩⟩

/-- A turn with these datagrams and commands. -/
private def turnWith (batch : List Arrival) (hbatch : batch.length ≤ 32) (posts : List ShardCmd) :
    Turn where
  halted := false
  batch := batch
  length_le := hbatch
  posts := posts
  commands := fun _ ↦ atNoon
  due := atNoon
  timers := fun _ ↦ atNoon

/-- Somebody greets the shard. -/
private def greeting : Arrival where
  src := .ofV4 10 0 0 9 9000
  pkt := (Header.request .ping .control 7).bytes
  start := atNoon
  message := [atNoon]
  rounds := []
  flush := atNoon

/-- A value is put while a greeting comes in; in the next turn the shard is stopped, with a command
still behind that. -/
private def stopped : List Turn :=
  [turnWith [greeting] (by decide) [.put [1, 2] 60],
    turnWith [] (by decide) [.shutdown, .get ⟨Bytes32.fill 7⟩]]

private theorem stopped_run :
    (Loop.run stopped (Loop.start (shardStart ⟨true, false, false⟩))).map
        (fun l ↦ (l.taken, l.running, l.ctx.sent.length, l.ctx.replies.map Prod.fst))
      = some ([.put [1, 2] 60, .shutdown], false, 2, [0]) := by
  decide +kernel

/-- The machine takes in the greeting and the two commands, and exits. -/
theorem refines_machine_stopped :
    ∃ (l : Loop) (events : List Event),
      Loop.run stopped (Loop.start (shardStart ⟨true, false, false⟩)) = some l ∧
      l.ctx.sent.length = 2 ∧ events.flatMap Event.outside = l.inputs ∧
      (⟨shardStart ⟨true, false, false⟩, events⟩ : ShardRun).final.ctx = l.ctx ∧
      (⟨shardStart ⟨true, false, false⟩, events⟩ : ShardRun).final.asked
        = [.put [1, 2] 60, .shutdown] := by
  obtain ⟨l, hrun, hl⟩ := Option.map_eq_some_iff.mp stopped_run
  obtain ⟨events, hinputs, hctx, -, hasked, -⟩ := Loop.refines_machine _ stopped l hrun
  rw [Prod.mk.injEq, Prod.mk.injEq, Prod.mk.injEq] at hl
  exact ⟨l, events, hrun, hl.2.2.1, hinputs, hctx, hasked.trans hl.1⟩

/-- The command behind the shutdown is not taken. -/
theorem commands_in_order_stopped :
    ∃ l : Loop, Loop.run stopped (Loop.start (shardStart ⟨true, false, false⟩)) = some l ∧
      l.taken = [.put [1, 2] 60, .shutdown] ∧ l.taken <+: stopped.flatMap Turn.posts ∧
      l.ctx.desk.answered 0 ≤ Machine.due l.taken 0 := by
  obtain ⟨l, hrun, hl⟩ := Option.map_eq_some_iff.mp stopped_run
  obtain ⟨htaken, -, hanswered, -⟩ := Loop.commands_in_order _ [] stopped l hrun
  exact ⟨l, hrun, congrArg Prod.fst hl, htaken, hanswered 0⟩

end Sample

end Molia
