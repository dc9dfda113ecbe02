import Mathlib.Data.List.Count
import Molia.Shard.Following

/-!
# The timers of a shard

Timers fire once. A handler that is to run again has to arm the next timer itself, and an attempt to
punch is only looked at when a punch timer fires. The number of timers of a kind that are pending,
together with those that have been popped and not yet handled, is what the loop keeps: one for each
periodic kind, and at least one punch timer while there are attempts.

`Arms` says what a handler of messages or commands may do to timers and attempts. All of them are
such steps; the handlers of timers are looked at one by one.
-/

namespace Molia

/-! ## The wheel -/

namespace TimingWheel

/-- How many timers of a kind are pending. -/
def pending (w : TimingWheel) (kind : TimerKind) : ℕ := w.heap.countP fun t ↦ t.kind = kind

theorem pending_schedule (w : TimingWheel) (due : ℕ) (kind kind' : TimerKind) :
    (w.schedule due kind').pending kind = w.pending kind + if kind' = kind then 1 else 0 := by
  rw [schedule, pending, List.countP_cons, pending]
  simp only [decide_eq_true_eq]

/-- No timer gets lost: those of a kind that are popped are the ones that are no longer there. -/
theorem count_popDue (w : TimingWheel) (now : ℕ) (kind : TimerKind) :
    (w.popDue now).1.count kind + (w.popDue now).2.pending kind = w.pending kind := by
  have hpopped : (w.popDue now).1.count kind
      = (w.heap.filter fun t ↦ t.due ≤ now).countP fun t ↦ t.kind = kind := by
    rw [popDue, List.count, List.countP_map]
    refine ((List.perm_insertionSort _ _).countP_eq _).trans (List.countP_congr fun t _ ↦ ?_)
    simp
  have hleft : (w.popDue now).2.pending kind
      = (w.heap.filter fun t ↦ !decide (t.due ≤ now)).countP fun t ↦ t.kind = kind := by
    rw [popDue, pending]
    refine congrArg (List.countP _) (List.filter_congr fun t _ ↦ ?_)
    rw [← decide_not, decide_eq_decide, Nat.not_le]
  rw [hpopped, hleft, pending]
  exact (List.countP_eq_countP_filter_add w.heap _ fun t ↦ decide (t.due ≤ now)).symm

end TimingWheel

section

variable [Crates]

attribute [local irreducible] message

namespace ShardNet

theorem Sends.timers {n n' : ShardNet} (h : Sends n n') : n'.timers = n.timers :=
  congrArg Knowledge.timers h.knowledge

theorem Sends.punches {n n' : ShardNet} (h : Sends n n') : n'.punches = n.punches :=
  congrArg Knowledge.punches h.knowledge

/-! ## Steps that arm no periodic timer -/

/-- The step leaves the periodic timers alone, takes no punch timer away, and starts no attempt
without one. -/
structure Arms (n n' : ShardNet) : Prop where
  periodic : ∀ kind ≠ .punch, n'.timers.pending kind = n.timers.pending kind
  punch : n.timers.pending .punch ≤ n'.timers.pending .punch
  covered : n.punches = ∅ → n'.punches = ∅ ∨ 0 < n'.timers.pending .punch

namespace Arms

variable {n n' n'' : ShardNet}

theorem of_timers_eq (ht : n'.timers = n.timers) (hp : n.punches = ∅ → n'.punches = ∅) :
    Arms n n' := by
  refine ⟨fun kind _ ↦ ?_, ?_, fun h ↦ Or.inl (hp h)⟩
  · rw [ht]
  · rw [ht]

theorem of_sends (h : Sends n n') : Arms n n' :=
  of_timers_eq h.timers fun hp ↦ h.punches.trans hp

theorem refl (n : ShardNet) : Arms n n := of_sends (Sends.refl n)

theorem trans (h : Arms n n') (h' : Arms n' n'') : Arms n n'' := by
  refine ⟨fun kind hkind ↦ (h'.periodic kind hkind).trans (h.periodic kind hkind),
    h.punch.trans h'.punch, fun hp ↦ ?_⟩
  rcases h.covered hp with hempty | hpos
  · exact h'.covered hempty
  · exact Or.inr (hpos.trans_le h'.punch)

theorem of_schedule {due : ℕ} (h : n'.timers = n.timers.schedule due .punch) : Arms n n' := by
  have hpending : ∀ kind, n'.timers.pending kind
      = n.timers.pending kind + if TimerKind.punch = kind then 1 else 0 := by
    intro kind
    rw [h, TimingWheel.pending_schedule]
  refine ⟨fun kind hkind ↦ ?_, ?_, fun _ ↦ Or.inr ?_⟩
  · rw [hpending, if_neg hkind.symm, Nat.add_zero]
  · rw [hpending]
    exact Nat.le_add_right _ _
  · rw [hpending, if_pos rfl]
    exact Nat.succ_pos _

theorem notePeerKeys (n : ShardNet) (src : SocketAddr) (x25519 ed25519 sig : Bytes) :
    Arms n (n.notePeerKeys src x25519 ed25519 sig).2 := by
  rw [ShardNet.notePeerKeys]
  split
  · exact refl n
  · split_ifs
    · exact refl n
    · exact refl n
    · exact of_timers_eq rfl fun h ↦ h

theorem learnAddr (n : ShardNet) (src : SocketAddr) (id : Option NodeId) :
    Arms n (n.learnAddr src id) := by
  rcases id with _ | id
  · exact of_timers_eq rfl fun h ↦ h
  · exact of_timers_eq rfl fun h ↦ h

end Arms

/-! ## Punching -/

theorem timers_burstPunch (n : ShardNet) (id : NodeId) : (n.burstPunch id).timers = n.timers := by
  rw [burstPunch]
  split
  · rfl
  · rename_i p hp
    exact (Sends.foldl Sends.sendPing p.candidates n).timers

theorem lookup_punches_burstPunch (n : ShardNet) (id id' : NodeId) :
    ((n.burstPunch id).punches.lookup id').isSome = (n.punches.lookup id').isSome := by
  rw [burstPunch]
  split
  · rfl
  · rename_i p hp
    dsimp only
    rw [HashMap.lookup_modify, Option.isSome_map,
      (Sends.foldl Sends.sendPing p.candidates n).punches]

theorem timers_startPunch (n : ShardNet) (rendezvous : SocketAddr) (peer : PeerInfo) :
    n.startPunch rendezvous peer = n ∨
      ∃ due, (n.startPunch rendezvous peer).timers = n.timers.schedule due .punch := by
  rw [startPunch]
  split_ifs
  · exact Or.inl rfl
  · exact Or.inl rfl
  · exact Or.inl rfl
  · exact Or.inl rfl
  · refine Or.inr ⟨_, congrArg (TimingWheel.schedule · _ .punch) ?_⟩
    rw [timers_burstPunch, (Sends.sendPunchMsg _ _ _ _).timers]

namespace Arms

theorem startPunch (rendezvous : SocketAddr) (n : ShardNet) (peer : PeerInfo) :
    Arms n (n.startPunch rendezvous peer) := by
  rcases n.timers_startPunch rendezvous peer with hsame | ⟨due, htimers⟩
  · rw [hsame]
    exact refl n
  · exact of_schedule htimers

theorem answerPunch (n : ShardNet) (src : SocketAddr) (sender : NodeId) (cands : List SocketAddr)
    (first : SocketAddr) : Arms n (n.answerPunch src sender cands first) := by
  rw [ShardNet.answerPunch]
  refine of_schedule (congrArg (TimingWheel.schedule · _ .punch) ?_)
  rw [timers_burstPunch]
  split
  · rfl
  · exact (Sends.sendPunchMsg _ _ _ _).timers

theorem injectPeer (n : ShardNet) (info : PeerInfo) : Arms n (ShardCtx.injectPeer n info) := by
  rw [ShardCtx.injectPeer]
  rcases info.x25519 with _ | x
  · exact of_timers_eq rfl fun h ↦ h
  · rcases info.primaryAddr with _ | addr
    · exact of_timers_eq rfl fun h ↦ h
    · exact of_timers_eq rfl fun h ↦ h

theorem replied (n : ShardNet) (id : NodeId) :
    Arms n { n with viaRelay := n.viaRelay.erase id, punches := n.punches.erase id } := by
  refine of_timers_eq rfl fun h ↦ ?_
  rw [h]
  rfl

theorem follows : FollowsHandlers Arms where
  refl := refl
  trans h h' := h.trans h'
  posts h := of_sends h.sends
  relays _ _ _ := of_timers_eq rfl fun h ↦ h
  sybil _ _ := of_timers_eq rfl fun h ↦ h
  notePeerKeys := notePeerKeys
  learnAddr := learnAddr
  mapped _ _ := of_timers_eq rfl fun h ↦ h
  insertPeer _ _ := of_timers_eq rfl fun h ↦ h
  upsertPeer _ _ := of_timers_eq rfl fun h ↦ h
  injectPeer := injectPeer
  startPunch n rendezvous peer := startPunch rendezvous n peer
  answerPunch := answerPunch
  replied := replied

end Arms

end ShardNet

/-! ## The timers themselves -/

namespace ShardNet

/-- What the punch timer does with one attempt. It asks to come back unless the attempt is gone. -/
structure Ticked (acc acc' : ShardNet × Bool) (ids : List NodeId) : Prop where
  timers : acc'.1.timers = acc.1.timers
  gone : ∀ id, acc.1.punches.lookup id = none → acc'.1.punches.lookup id = none
  again : acc'.2 = false → acc.2 = false ∧ ∀ id ∈ ids, acc'.1.punches.lookup id = none

theorem Ticked.refl (acc : ShardNet × Bool) : Ticked acc acc [] :=
  ⟨rfl, fun _ h ↦ h, fun h ↦ ⟨h, by simp⟩⟩

theorem ticked_burst (n : ShardNet) (again : Bool) (id : NodeId) (due : Prop) [Decidable due] :
    Ticked (n, again) (if due then (n.burstPunch id, true) else (n, again)) [] := by
  split_ifs
  · refine ⟨timers_burstPunch n id, fun id' hnone ↦ ?_, fun h ↦ by cases h⟩
    rw [← Option.isNone_iff_eq_none, ← Option.not_isSome, lookup_punches_burstPunch, hnone]
    rfl
  · exact .refl (n, again)

theorem Ticked.erase {acc acc' : ShardNet × Bool} (h : Ticked acc acc' []) {id : NodeId}
    {n : ShardNet} (htimers : n.timers = acc'.1.timers)
    (hpunches : n.punches = acc'.1.punches.erase id) : Ticked acc (n, acc'.2) [id] where
  timers := htimers.trans h.timers
  gone id' hnone := by
    rw [hpunches, HashMap.lookup_erase_of, h.gone id' hnone, ite_self]
  again hagain := ⟨(h.again hagain).1, by simp [hpunches]⟩

theorem Ticked.of_gone {acc acc' : ShardNet × Bool} (h : Ticked acc acc' []) {id : NodeId}
    (hnone : acc'.1.punches.lookup id = none) : Ticked acc acc' [id] :=
  ⟨h.timers, h.gone, fun hagain ↦ ⟨(h.again hagain).1, by simpa using hnone⟩⟩

theorem ticked_punchTick (acc : ShardNet × Bool) (id : NodeId) :
    Ticked acc (punchTick acc id) [id] := by
  obtain ⟨n, again⟩ := acc
  rw [punchTick]
  dsimp only
  split
  · exact (Ticked.refl (n, again)).erase rfl rfl
  split
  · rename_i hnone
    exact (Ticked.refl (n, again)).of_gone hnone
  rename_i p hp
  have hburst := ticked_burst n again id (p.burstsDone < 2 ∧ n.now ≥ p.nextBurst)
  generalize (if p.burstsDone < 2 ∧ n.now ≥ p.nextBurst then (n.burstPunch id, true)
    else (n, again)) = acc at hburst ⊢
  split
  · rename_i hnone
    exact hburst.of_gone hnone
  split
  · split
    · exact hburst.erase rfl rfl
    · exact hburst.erase rfl rfl
  · exact ⟨hburst.timers, hburst.gone, fun h ↦ by cases h⟩

theorem ticked_foldl (ids : List NodeId) (acc : ShardNet × Bool) :
    Ticked acc (ids.foldl punchTick acc) ids := by
  induction ids generalizing acc with
  | nil => exact .refl acc
  | cons id ids ih =>
    have hone := ticked_punchTick acc id
    have hrest := ih (punchTick acc id)
    refine ⟨hrest.timers.trans hone.timers, fun id' h ↦ hrest.gone id' (hone.gone id' h),
      fun h ↦ ?_⟩
    obtain ⟨hagain, hids⟩ := hrest.again h
    obtain ⟨hagain', hid⟩ := hone.again hagain
    exact ⟨hagain', List.forall_mem_cons.mpr
      ⟨hrest.gone id (hid id (List.mem_singleton_self id)), hids⟩⟩

/-- The punch timer arms itself unless it has seen the last attempt. -/
theorem timers_onPunchTimer (n : ShardNet) :
    (n.onPunchTimer.timers = n.timers ∧ n.onPunchTimer.punches = ∅) ∨
      ∃ due, n.onPunchTimer.timers = n.timers.schedule due .punch := by
  have hticked := ticked_foldl n.punches.keys (n, false)
  rw [onPunchTimer]
  rcases hfold : n.punches.keys.foldl punchTick (n, false) with ⟨n', _ | _⟩
  · rw [hfold] at hticked
    refine Or.inl ⟨hticked.timers, HashMap.eq_empty_iff.mpr fun id ↦ ?_⟩
    by_cases hid : id ∈ n.punches.keys
    · exact (hticked.again rfl).2 id hid
    · exact hticked.gone id (AList.lookup_eq_none.mpr hid)
  · rw [hfold] at hticked
    exact Or.inr ⟨_, congrArg (TimingWheel.schedule · _ .punch) hticked.timers⟩

end ShardNet

namespace ShardCtx

theorem timers_onTimer (c : ShardCtx) {kind : TimerKind} (hkind : kind ≠ .punch) :
    (∃ due, (c.onTimer kind).timers = c.timers.schedule due kind) ∧
      (c.onTimer kind).punches = c.punches := by
  rcases kind with _ | _ | _ | _ | _
  · obtain ⟨n', hsends, heq⟩ := ShardNet.Sends.onKeepalive c.toShardNet
    rw [onTimer, heq]
    exact ⟨⟨_, congrArg (TimingWheel.schedule · _ _) hsends.timers⟩, hsends.punches⟩
  · exact ⟨⟨_, rfl⟩, rfl⟩
  · exact ⟨⟨_, rfl⟩, rfl⟩
  · have hsweep := (posts_sweepLookups (({ c with
      lookups := c.lookups.mapValues fun _ p ↦
        { p with lookup := (p.lookup.onTimeouts c.now).2 } } : ShardCtx).withNet
      (c.timedOut.foldl blame c.toShardNet))).sends
    have hblame : (c.timedOut.foldl blame c.toShardNet).timers = c.timers ∧
        (c.timedOut.foldl blame c.toShardNet).punches = c.punches :=
      List.foldlRecOn (motive := fun n : ShardNet ↦
        n.timers = c.timers ∧ n.punches = c.punches) c.timedOut blame ⟨rfl, rfl⟩
        fun _ hn _ _ ↦ hn
    exact ⟨⟨_, congrArg (TimingWheel.schedule · _ _) (hsweep.timers.trans hblame.1)⟩,
      hsweep.punches.trans hblame.2⟩
  · exact absurd rfl hkind

end ShardCtx

/-! ## The loop -/

open ShardNet

namespace Machine

/-- The timers of a kind that are pending, or have been popped and wait to be handled. -/
def outstanding (m : Machine) (kind : TimerKind) : ℕ :=
  m.ctx.timers.pending kind + m.work.count (.timer kind)

/-- Each periodic timer is outstanding once, and a punch timer while there are attempts. -/
structure Armed (m : Machine) : Prop where
  periodic : ∀ kind ≠ .punch, m.outstanding kind = 1
  punch : m.ctx.punches ≠ ∅ → 0 < m.outstanding .punch

end Machine

namespace ShardCtx

theorem arms_handleDatagram (c : ShardCtx) (src : SocketAddr) (pkt : Bytes) :
    Arms c.toShardNet (c.handleDatagram src pkt).1.toShardNet ∧
      ∀ kind, (c.handleDatagram src pkt).2.count (.timer kind) = 0 := by
  refine ⟨?_, fun kind ↦ ?_⟩
  · obtain ⟨wg, sybil, sent, heq⟩ := c.handleDatagram_fst src pkt
    rw [heq]
    exact Arms.of_timers_eq rfl fun h ↦ h
  · rw [handleDatagram]
    split
    · dsimp only
      split
      · rfl
      · split
        all_goals rfl
    · rfl

theorem arms_drainTurn (c : ShardCtx) (src : SocketAddr) :
    Arms c.toShardNet (c.drainTurn src).1.toShardNet ∧
      ∀ kind, (c.drainTurn src).2.count (.timer kind) = 0 := by
  refine ⟨?_, fun kind ↦ ?_⟩
  · obtain ⟨wg, sent, heq⟩ := c.drainTurn_fst src
    rw [heq]
    exact Arms.of_timers_eq rfl fun h ↦ h
  · rw [drainTurn]
    split
    all_goals rfl

theorem arms_runTask (c : ShardCtx) {t : Task} (ht : ∀ kind, t ≠ .timer kind) :
    Arms c.toShardNet (c.runTask t).1.toShardNet ∧
      ∀ kind, (c.runTask t).2.count (.timer kind) = 0 := by
  rcases t with ⟨src, pkt, authenticated⟩ | src | src | kind
  · refine ⟨follows_handleApp Arms.follows c src pkt authenticated, fun kind ↦ ?_⟩
    rw [runTask]
    rcases c.handleApp src pkt authenticated with ⟨c', _ | payload⟩
    · rfl
    · rfl
  · exact arms_drainTurn c src
  · exact ⟨Arms.of_sends (Sends.flushPendingWg _ src), fun _ ↦ rfl⟩
  · exact absurd rfl (ht kind)

end ShardCtx

theorem ShardNet.Arms.clock (m : Machine) (env : Env) :
    Arms m.ctx.toShardNet (m.ctxAt env).toShardNet := Arms.of_timers_eq rfl fun h ↦ h

namespace Machine.Armed

variable {m m' : Machine}

theorem start (s : ShardStart) : s.machine.Armed := by
  refine ⟨fun kind hkind ↦ ?_, fun h ↦ absurd rfl h⟩
  rcases kind with _ | _ | _ | _ | _
  · rfl
  · rfl
  · rfl
  · rfl
  · exact absurd rfl hkind

theorem of_eq (h : m.Armed) (hout : ∀ kind, m'.outstanding kind = m.outstanding kind)
    (hpunches : m.ctx.punches = ∅ → m'.ctx.punches = ∅) : m'.Armed := by
  refine ⟨fun kind hkind ↦ (hout kind).trans (h.periodic kind hkind), fun hne ↦ ?_⟩
  rw [hout]
  exact h.punch fun hempty ↦ hne (hpunches hempty)

theorem of_arms (h : m.Armed) (harms : Arms m.ctx.toShardNet m'.ctx.toShardNet)
    (hwork : ∀ kind, m'.work.count (.timer kind) = m.work.count (.timer kind)) : m'.Armed := by
  refine ⟨fun kind hkind ↦ ?_, fun hne ↦ ?_⟩
  · rw [outstanding, harms.periodic kind hkind, hwork]
    exact h.periodic kind hkind
  · rw [outstanding, hwork]
    by_cases hempty : m.ctx.punches = ∅
    · rcases harms.covered hempty with hempty' | hpos
      · exact absurd hempty' hne
      · exact Nat.add_pos_left hpos _
    · exact (h.punch hempty).trans_le (Nat.add_le_add_right harms.punch _)

theorem onTimer (h : m.Armed) {kind : TimerKind} {ts : List Task}
    (hwork : m.work = .timer kind :: ts) (env : Env) :
    Armed { m with ctx := (m.ctxAt env).onTimer kind, work := ts } := by
  have hout : ∀ kind', m.outstanding kind' = m.ctx.timers.pending kind' +
      (if kind = kind' then 1 else 0) + ts.count (.timer kind') := by
    intro kind'
    rw [outstanding, hwork, List.count_cons]
    simp only [beq_iff_eq, Task.timer.injEq]
    omega
  -- it arms the next one
  have hagain : ∀ due, ((m.ctxAt env).onTimer kind).timers = m.ctx.timers.schedule due kind →
      ∀ kind', outstanding { m with ctx := (m.ctxAt env).onTimer kind, work := ts } kind'
        = m.outstanding kind' := by
    intro due htimers kind'
    rw [hout, outstanding, htimers, TimingWheel.pending_schedule]
  -- only the punch timer may be the last of its kind
  by_cases hkind : kind = .punch
  · subst hkind
    rcases timers_onPunchTimer (m.ctxAt env).toShardNet with ⟨htimers, hempty⟩ | ⟨due, htimers⟩
    · refine ⟨fun kind' hkind' ↦ ?_, fun hne ↦ absurd hempty hne⟩
      have hperiodic := h.periodic kind' hkind'
      rw [hout, if_neg hkind'.symm] at hperiodic
      exact (congrArg (fun w : TimingWheel ↦ w.pending kind' + ts.count (.timer kind'))
        htimers).trans hperiodic
    · have hpos : 0 < m.outstanding .punch := by
        rw [hout, if_pos rfl]
        omega
      refine ⟨fun kind' hkind' ↦ (hagain due htimers kind').trans (h.periodic kind' hkind'),
        fun _ ↦ ?_⟩
      rw [hagain due htimers]
      exact hpos
  · obtain ⟨⟨due, htimers⟩, hpunches⟩ := (m.ctxAt env).timers_onTimer hkind
    exact h.of_eq (hagain due htimers) fun hempty ↦ hpunches.trans hempty

theorem tick (h : m.Armed) (hwork : m.work = []) (env : Env) :
    Armed { m with
      ctx := { m.ctxAt env with timers := (m.ctx.timers.popDue env.instant).2 }
      work := (m.ctx.timers.popDue env.instant).1.map .timer } := by
  refine h.of_eq (fun kind ↦ ?_) fun hempty ↦ hempty
  have hcount := m.ctx.timers.count_popDue env.instant kind
  have hpopped : ((m.ctx.timers.popDue env.instant).1.map Task.timer).count (.timer kind)
      = (m.ctx.timers.popDue env.instant).1.count kind :=
    List.count_map_of_injective _ _ (fun _ _ heq ↦ Task.timer.inj heq) kind
  rw [outstanding, outstanding, hwork, List.count_nil]
  dsimp only
  rw [hpopped]
  omega

theorem reorder (h : m.Armed) (r : HashMap.Reorder) :
    Armed { m with ctx := m.ctx.reorder r } := by
  refine h.of_eq (fun _ ↦ rfl) fun hempty ↦ ?_
  rw [HashMap.eq_empty_iff] at hempty ⊢
  intro id
  exact (HashMap.lookup_reorder r m.ctx.punches id).trans (hempty id)

theorem runTask (h : m.Armed) {t : Task} {ts : List Task} (hwork : m.work = t :: ts) (env : Env) :
    Armed { m with
      ctx := ((m.ctxAt env).runTask t).1
      work := ((m.ctxAt env).runTask t).2 ++ ts } := by
  by_cases ht : ∃ kind, t = .timer kind
  · obtain ⟨kind, rfl⟩ := ht
    exact h.onTimer hwork env
  · rw [not_exists] at ht
    obtain ⟨harms, htasks⟩ := (m.ctxAt env).arms_runTask ht
    refine h.of_arms ((Arms.clock m env).trans harms) fun kind ↦ ?_
    rw [hwork, List.count_append, htasks, List.count_cons_of_ne (ht kind), Nat.zero_add]

theorem step (h : m.Armed) (e : Event) : (m.step e).Armed := by
  obtain ⟨env, input⟩ := e
  rw [Machine.step]
  rcases input with ⟨src, pkt⟩ | cmd | _ | _ | r | _
  · dsimp only
    split
    · rename_i hready
      obtain ⟨harms, htasks⟩ := (m.ctxAt env).arms_handleDatagram src pkt
      refine h.of_arms ((Arms.clock m env).trans harms) fun kind ↦ ?_
      rw [hready.2]
      exact htasks kind
    · exact h
  · dsimp only
    split
    · refine h.of_arms ((Arms.clock m env).trans ?_) fun _ ↦ rfl
      exact ShardCtx.follows_handleCmd Arms.follows (m.ctxAt env) cmd _
    · exact h
  · dsimp only
    split
    · rename_i hidle
      exact h.tick hidle.1 env
    · exact h
  · dsimp only
    split
    · exact h
    · rename_i hwork
      exact h.runTask hwork env
  · exact h.reorder r
  · dsimp only
    split
    · exact h.of_eq (fun _ ↦ rfl) fun hempty ↦ hempty
    · exact h

end Machine.Armed

theorem armed_final (run : ShardRun) : run.final.Armed :=
  Runs.Along.invariant (I := Machine.Armed) Runs.along_true (fun _ e h _ ↦ Machine.Armed.step h e)
    (Machine.Armed.start run.start)

/-- **The timers of a shard.** Between two inputs, one timer of each periodic kind is pending, and
at least one punch timer if any attempt is on record. -/
theorem timers_armed (run : ShardRun) (hwork : run.final.work = []) :
    (∀ kind ≠ .punch, run.final.ctx.timers.pending kind = 1) ∧
      (run.final.ctx.punches ≠ ∅ → 0 < run.final.ctx.timers.pending .punch) := by
  have hpending : ∀ kind, run.final.outstanding kind = run.final.ctx.timers.pending kind := by
    intro kind
    rw [Machine.outstanding, hwork, List.count_nil, Nat.add_zero]
  obtain ⟨hperiodic, hpunch⟩ := armed_final run
  simp only [hpending] at hperiodic hpunch
  exact ⟨hperiodic, hpunch⟩

end

section

attribute [local instance] Sample.wireCrates

open Sample

/-- A request to punch, for the node of the sample shard. -/
private def punchRequest : Bytes :=
  (Header.request .punch .control 1).bytes ++ Proto.punchWire.encode
    { targetId := (identity .first).nodeId.val.val
      fromId := List.replicate 32 5
      candidates := encodeAddrs [.ofV4 10 0 0 9 9000] }

private def punchedRun : ShardRun where
  start := shardStart ⟨true, false, false⟩
  events := [⟨noon, .datagram (.ofV4 10 0 0 2 9000) punchRequest⟩, ⟨noon, .work⟩]

/-- A shard that has just been asked to punch. -/
theorem timers_armed_punched :
    punchedRun.final.ctx.punches ≠ ∅ ∧ 0 < punchedRun.final.ctx.timers.pending .punch ∧
      ∀ kind ≠ .punch, punchedRun.final.ctx.timers.pending kind = 1 := by
  have harmed := timers_armed punchedRun (by decide +kernel)
  have hone : punchedRun.final.ctx.punches.keys.length = 1 := by decide +kernel
  have hpunches : punchedRun.final.ctx.punches ≠ ∅ := by
    intro hempty
    rw [hempty] at hone
    cases hone
  exact ⟨hpunches, harmed.2 hpunches, harmed.1⟩

end

end Molia
