import Molia.Shard.Replies
import Molia.Shard.SelfQueries
import Molia.Shard.Timers

/-!
# Deadlines

A lookup has 1500 ms. Nothing ends it when they are over; it is looked at when an answer comes in,
or else when the lookup timer fires, which is armed anew, for 50 ms, each time it does. So a client
waits for one and a half seconds and 50 ms at most, as long as the loop keeps taking its timers.

The invariant `Timely` is about the last time at which the lookup timer was handled. Whatever was
pending then had time left, whatever was started since has begun later, and the next timer is due
50 ms after it. From that the age of every pending lookup is bounded whenever the timers have been
looked at (`started_of_idle`), and a command that was taken long enough ago has its reply
(`answered_in_time`).
-/

namespace Molia

/-! ## The clock of a lookup -/

namespace Lookup

variable {l l' : Lookup} {now : ℕ}

/-- When the lookup was started, and how long it may take. -/
def term (l : Lookup) : ℕ × ℕ := (l.started, l.budget)

theorem Grows.term_eq (h : Grows now l l') : l'.term = l.term := by
  have hterm := congrArg term h.rest
  exact hterm

theorem term_onTimeouts (l : Lookup) (now : ℕ) : (l.onTimeouts now).2.term = l.term := by
  rw [onTimeouts_snd]
  rfl

theorem term_onCloser (l : Lookup) (sender : NodeId) (peers : List PeerInfo) (rttUs : UInt32) :
    (l.onCloser sender peers rttUs).term = l.term := by
  rw [onCloser_eq]
  rfl

theorem term_onProviders (l : Lookup) (sender : NodeId) (providers : List (NodeId × Bytes))
    (closer : List PeerInfo) : (l.onProviders sender providers closer).term = l.term :=
  term_onCloser _ _ _ _

theorem term_step (l : Lookup) (op : LookupOp) : (l.step op).term = l.term := by
  rcases op with ⟨now, sends⟩ | now | ⟨sender, peers, rttUs⟩ | ⟨sender, providers, closer⟩ |
    ⟨sender, rec⟩
  · refine List.foldlRecOn (motive := fun l' : Lookup ↦ l'.term = l.term) sends note ?_
      fun _ h _ _ ↦ h
    rw [nextBatch_snd]
    rfl
  · exact l.term_onTimeouts now
  · exact l.term_onCloser sender peers rttUs
  · exact l.term_onProviders sender providers closer
  · rfl

theorem Evolves.term_eq {peers : List PeerInfo} (h : Evolves peers l l') : l'.term = l.term := by
  obtain ⟨ops, rfl, -, -⟩ := h
  exact List.foldlRecOn (motive := fun l' : Lookup ↦ l'.term = l.term) ops step rfl
    fun l' h op _ ↦ (l'.term_step op).trans h

/-- A property of the clock is stable if it holds of a new lookup. -/
theorem stable_term {Q : ℕ × ℕ → Prop} (hnew : Q (now, 1500 * millis)) :
    Stable now fun l ↦ Q l.term where
  new _ _ _ _ := hnew
  grows l l' hgrows h := by rwa [hgrows.term_eq]
  onTimeouts l h := by rwa [l.term_onTimeouts]
  onCloser l sender peers rttUs h := by rwa [l.term_onCloser]
  onProviders l sender providers closer h := by rwa [l.term_onProviders]
  onRecord l _ _ h := h

end Lookup

/-! ## Timers that wait -/

namespace TimingWheel

theorem mem_popDue {w : TimingWheel} {t : Timer} (h : t ∈ w.heap) (now : ℕ) :
    t.kind ∈ (w.popDue now).1 ∨ (now < t.due ∧ t ∈ (w.popDue now).2.heap) := by
  rcases Nat.lt_or_ge now t.due with hlater | hdue
  · exact Or.inr ⟨hlater, List.mem_filter.mpr ⟨h, decide_eq_true hlater⟩⟩
  · refine Or.inl (List.mem_map_of_mem ((List.mem_insertionSort _).mpr ?_))
    exact List.mem_filter.mpr ⟨h, decide_eq_true hdue⟩

end TimingWheel

/-! ## Whom a lookup is for -/

namespace Desk

variable {d d' : Desk} {id : UInt32} {p' : PendingLookup}

theorem reply_of_tended (h : Tended d d') (hp' : d'.lookups.lookup id = some p') :
    ∃ p, d.lookups.lookup id = some p ∧ p'.reply = p.reply := by
  rcases h with ⟨f, -⟩ | ⟨hp, -⟩ | ⟨hp, -⟩ | r
  · rw [HashMap.lookup_mapValues] at hp'
    obtain ⟨p, hp, rfl⟩ := Option.map_eq_some_iff.mp hp'
    exact ⟨p, hp, rfl⟩
  · rw [HashMap.lookup_insert_of, HashMap.lookup_erase_of] at hp'
    split_ifs at hp' with heq
    · rw [← Option.some.inj hp', heq]
      exact ⟨_, hp, rfl⟩
    · exact ⟨p', hp', rfl⟩
  · rw [HashMap.lookup_erase_of] at hp'
    split_ifs at hp'
    exact ⟨p', hp', rfl⟩
  · rw [HashMap.lookup_reorder] at hp'
    exact ⟨p', hp', rfl⟩

theorem reply_of_receives {taken : Option (UInt32 × Found)} (h : d.Receives taken d')
    (hp' : d'.lookups.lookup id = some p') :
    ∃ p, d.lookups.lookup id = some p ∧ p'.reply = p.reply := by
  have htends : ∀ {d₁ : Desk}, d₁.Tends d' →
      ∃ p, d₁.lookups.lookup id = some p ∧ p'.reply = p.reply := by
    intro d₁ h₁
    refine h₁.invariant (I := fun d' ↦ ∀ p', d'.lookups.lookup id = some p' →
      ∃ p, d₁.lookups.lookup id = some p ∧ p'.reply = p.reply) (fun _ _ htended ih p' hp' ↦ ?_)
      (fun p hp ↦ ⟨p, hp, rfl⟩) p' hp'
    obtain ⟨p, hp, hreply⟩ := reply_of_tended htended hp'
    obtain ⟨p₁, hp₁, hreply₁⟩ := ih p hp
    exact ⟨p₁, hp₁, hreply.trans hreply₁⟩
  rcases taken with _ | ⟨id', found⟩
  · exact htends h
  · obtain ⟨f, -, hgiven⟩ := h
    obtain ⟨p₁, hp₁, hreply⟩ := htends hgiven
    rcases lookup_give hp₁ with ⟨rfl, p, hp, rfl⟩ | ⟨-, hp⟩
    · exact ⟨p, hp, hreply⟩
    · exact ⟨p₁, hp, hreply⟩

theorem held_eq_zero {i : Chan}
    (h : ∀ id p, d.lookups.lookup id = some p → p.reply ≠ some i) : d.held i = 0 := by
  refine List.countP_eq_zero.mpr fun e he ↦ ?_
  rw [decide_eq_true_eq]
  exact h e.1 e.2 (AList.mem_lookup_iff.mpr he)

end Desk

section

variable [Crates]

open Crates

attribute [local irreducible] message

namespace ShardNet

/-- No timer is taken off the wheel. -/
def Waits (n n' : ShardNet) : Prop := n.timers.heap ⊆ n'.timers.heap

namespace Waits

theorem of_eq {n n' : ShardNet} (h : n'.timers = n.timers) : Waits n n' := by
  rw [Waits, h]
  exact List.Subset.refl _

theorem followsPunches : FollowsPunches Waits where
  refl _ := of_eq rfl
  trans h h' := List.Subset.trans h h'
  posts h := of_eq (congrArg Knowledge.timers h.sends.knowledge)
  attempts _ _ := of_eq rfl
  schedule _ _ := List.subset_cons_self _ _

theorem notePeerKeys (n : ShardNet) (src : SocketAddr) (x25519 ed25519 sig : Bytes) :
    Waits n (n.notePeerKeys src x25519 ed25519 sig).2 := by
  rw [ShardNet.notePeerKeys]
  split
  · exact of_eq rfl
  · split_ifs
    · exact of_eq rfl
    · exact of_eq rfl
    · exact of_eq rfl

theorem learnAddr (n : ShardNet) (src : SocketAddr) (id : Option NodeId) :
    Waits n (n.learnAddr src id) := by
  rcases id with _ | id
  · exact of_eq rfl
  · exact of_eq rfl

theorem injectPeer (n : ShardNet) (info : PeerInfo) : Waits n (ShardCtx.injectPeer n info) := by
  rw [ShardCtx.injectPeer]
  rcases info.x25519 with _ | x
  · exact of_eq rfl
  · rcases info.primaryAddr with _ | addr
    · exact of_eq rfl
    · exact of_eq rfl

theorem follows : FollowsHandlers Waits where
  toFollowsPosts := followsPunches.toFollowsPosts
  relays _ _ _ := of_eq rfl
  sybil _ _ := of_eq rfl
  notePeerKeys := notePeerKeys
  learnAddr := learnAddr
  mapped _ _ := of_eq rfl
  insertPeer _ _ := of_eq rfl
  upsertPeer _ _ := of_eq rfl
  injectPeer := injectPeer
  startPunch n rendezvous peer := followsPunches.startPunch rendezvous n peer
  answerPunch := followsPunches.answerPunch fun _ _ ↦ of_eq rfl
  replied _ _ := of_eq rfl

end Waits

end ShardNet

namespace ShardCtx

open ShardNet

theorem waits_onTimer (c : ShardCtx) (kind : TimerKind) :
    Waits c.toShardNet (c.onTimer kind).toShardNet := by
  by_cases hpunch : kind = .punch
  · rw [hpunch]
    exact Waits.follows.onPunchTimer Waits.followsPunches c.toShardNet
  · obtain ⟨⟨due, htimers⟩, -⟩ := c.timers_onTimer hpunch
    rw [Waits, htimers]
    exact List.subset_cons_self _ _

theorem waits_runTask (c : ShardCtx) (t : Task) :
    Waits c.toShardNet (c.runTask t).1.toShardNet := by
  rcases t with ⟨src, pkt, authenticated⟩ | src | src | kind
  · exact follows_handleApp Waits.follows c src pkt authenticated
  · obtain ⟨wg, sent, heq⟩ := c.drainTurn_fst src
    rw [runTask, heq]
    exact Waits.of_eq rfl
  · exact Waits.of_eq (Sends.flushPendingWg c.toShardNet src).timers
  · exact c.waits_onTimer kind

theorem now_blame (c : ShardCtx) : (c.timedOut.foldl blame c.toShardNet).now = c.now :=
  List.foldlRecOn (motive := fun n : ShardNet ↦ n.now = c.now) _ blame rfl fun _ hn _ _ ↦ hn

theorem now_onLookupTick (c : ShardCtx) : c.onLookupTick.now = c.now :=
  (congrArg Env.instant (posts_sweepLookups _).sends.env).trans c.now_blame

theorem pending_onLookupTick {c : ShardCtx} (h : c.AllPending fun l ↦ l.term.2 = 1500 * millis) :
    c.onLookupTick.AllPending fun l ↦ c.now < l.term.1 + 1500 * millis := by
  intro id p' hp'
  rw [onLookupTick] at hp'
  obtain ⟨n, hsends, hlookup⟩ := lookup_sweepLookups (({ c with
    lookups := c.lookups.mapValues fun _ p ↦
      { p with lookup := (p.lookup.onTimeouts c.now).2 } } : ShardCtx).withNet
    (c.timedOut.foldl blame c.toShardNet)) id
  rw [hlookup] at hp'
  obtain ⟨p, hp, hswept⟩ := Option.bind_eq_some_iff.mp hp'
  have hnow : n.now = c.now := (congrArg Env.instant hsends.env).trans c.now_blame
  -- a lookup whose time is over is not put back
  have hlive : ¬n.now - p.lookup.term.1 ≥ p.lookup.term.2 := by
    intro hover
    rw [swept_of_ends (Or.inl (Or.inr hover))] at hswept
    cases hswept
  change (HashMap.mapValues _ c.lookups).lookup id = some p at hp
  rw [HashMap.lookup_mapValues] at hp
  obtain ⟨p₀, hp₀, rfl⟩ := Option.map_eq_some_iff.mp hp
  have hbudget := h id p₀ hp₀
  have htimeouts := p₀.lookup.term_onTimeouts c.now
  rw [(grows_of_swept hswept).term_eq, htimeouts]
  rw [htimeouts, hnow, hbudget] at hlive
  omega

end ShardCtx

/-! ## The loop -/

open ShardNet

namespace Machine

/-- The lookup timer was last handled at `last`, and the timers were last looked at at `seen`. -/
structure Timely (seen last : ℕ) (m : Machine) : Prop where
  pending : m.ctx.AllPending fun l ↦
    l.term.2 = 1500 * millis ∧ last < l.term.1 + 1500 * millis
  timer : .timer .lookupTick ∈ m.work ∨
    ∃ t ∈ m.ctx.timers.heap, t.kind = .lookupTick ∧ t.due ≤ last + 50 * millis
  seen : .timer .lookupTick ∈ m.work ∨ seen < last + 50 * millis

namespace Timely

variable {seen last : ℕ} {m m' : Machine} {env : Env}

theorem start (s : ShardStart) : Timely 0 s.env.instant s.machine where
  pending id p hp := by cases hp
  timer := Or.inr ⟨_, List.mem_cons_self, rfl, Nat.le_refl _⟩
  seen := Or.inr (by rw [millis]; omega)

theorem of_waits (h : Timely seen last m)
    (hpending : m'.ctx.AllPending fun l ↦
      l.term.2 = 1500 * millis ∧ last < l.term.1 + 1500 * millis)
    (hwaits : Waits m.ctx.toShardNet m'.ctx.toShardNet)
    (hwork : .timer .lookupTick ∈ m.work → .timer .lookupTick ∈ m'.work) :
    Timely seen last m' where
  pending := hpending
  timer := h.timer.imp hwork fun ⟨t, ht, hkind, hdue⟩ ↦ ⟨t, hwaits ht, hkind, hdue⟩
  seen := h.seen.imp_left hwork

theorem tick (h : Timely seen last m) (hwork : m.work = []) (hphase : m.phase ≠ .exited) :
    Timely env.instant last (m.step ⟨env, .tick⟩) := by
  have hstep : m.step ⟨env, .tick⟩ = { m with
      ctx := { m.ctxAt env with timers := (m.ctx.timers.popDue env.instant).2 }
      work := (m.ctx.timers.popDue env.instant).1.map .timer } := if_pos ⟨hwork, hphase⟩
  rw [hstep]
  have hidle : ¬.timer .lookupTick ∈ m.work := by
    rw [hwork]
    exact List.not_mem_nil
  obtain ⟨t, ht, hkind, hdue⟩ := h.timer.resolve_left hidle
  rcases TimingWheel.mem_popDue ht env.instant with hpopped | ⟨hlater, hstays⟩
  · rw [hkind] at hpopped
    have hmem := List.mem_map_of_mem (f := Task.timer) hpopped
    exact ⟨h.pending, Or.inl hmem, Or.inl hmem⟩
  · exact ⟨h.pending, Or.inr ⟨t, hstays, hkind, hdue⟩, Or.inr (hlater.trans_le hdue)⟩

/-- **What a step does.** -/
theorem step (h : Timely seen last m) (e : Event) (hseen : seen ≤ e.env.instant)
    (hlast : last ≤ e.env.instant) :
    ∃ last', last' ≤ e.env.instant ∧ Timely seen last' (m.step e) := by
  have hpending : (m.step e).ctx.AllPending fun l ↦
      l.term.2 = 1500 * millis ∧ last < l.term.1 + 1500 * millis := by
    refine ShardCtx.AllPending.step (Lookup.stable_term (Q := fun t ↦
      t.2 = 1500 * millis ∧ last < t.1 + 1500 * millis) ⟨rfl, ?_⟩) h.pending
    rw [millis]
    omega
  have hkeep : Waits m.ctx.toShardNet (m.step e).ctx.toShardNet →
      (.timer .lookupTick ∈ m.work → .timer .lookupTick ∈ (m.step e).work) →
      ∃ last', last' ≤ e.env.instant ∧ Timely seen last' (m.step e) :=
    fun hwaits hwork ↦ ⟨last, hlast, h.of_waits hpending hwaits hwork⟩
  have hsame : m.step e = m → ∃ last', last' ≤ e.env.instant ∧ Timely seen last' (m.step e) := by
    intro heq
    rw [heq]
    exact ⟨last, hlast, h⟩
  have hnil : m.work = [] →
      .timer .lookupTick ∈ m.work → .timer .lookupTick ∈ (m.step e).work := by
    intro hwork hmem
    rw [hwork] at hmem
    cases hmem
  obtain ⟨env, input⟩ := e
  cases input with
  | datagram src pkt =>
    by_cases hready : m.Ready
    · refine hkeep ?_ (hnil hready.2)
      obtain ⟨wg, sybil, sent, heq⟩ := (m.ctxAt env).handleDatagram_fst src pkt
      have hctx : (m.step ⟨env, .datagram src pkt⟩).ctx
          = ((m.ctxAt env).handleDatagram src pkt).1 := by simp [Machine.step, hready]
      rw [hctx, heq]
      exact Waits.of_eq rfl
    · exact hsame (if_neg hready)
  | command cmd =>
    by_cases hready : m.Ready
    · refine hkeep ?_ (hnil hready.2)
      have hctx : (m.step ⟨env, .command cmd⟩).ctx
          = (m.ctxAt env).handleCmd cmd m.asked.length := by
        simp [Machine.step, hready, takeCommand]
      rw [hctx]
      exact ShardCtx.follows_handleCmd Waits.follows (m.ctxAt env) cmd _
    · exact hsame (if_neg hready)
  | tick =>
    by_cases hidle : m.work = [] ∧ m.phase ≠ .exited
    · have hticked : Timely env.instant last (m.step ⟨env, .tick⟩) := h.tick hidle.1 hidle.2
      have hbefore : seen < last + 50 * millis := h.seen.resolve_left fun hmem ↦ by
        rw [hidle.1] at hmem
        cases hmem
      exact ⟨last, hlast, hticked.pending, hticked.timer, Or.inr hbefore⟩
    · exact hsame (if_neg hidle)
  | work =>
    rcases hwork : m.work with _ | ⟨t, ts⟩
    · exact hsame (step_work_nil hwork env)
    by_cases ht : t = .timer .lookupTick
    · -- the lookup timer is handled at the time of this step
      subst ht
      refine ⟨env.instant, Nat.le_refl _, ?_⟩
      rw [step_work hwork]
      have hbudget : (m.ctxAt env).AllPending fun l ↦ l.term.2 = 1500 * millis :=
        fun id p hp ↦ (h.pending id p hp).1
      have hleft := ShardCtx.pending_onLookupTick hbudget
      rw [step_work hwork] at hpending
      refine ⟨fun id p hp ↦ ⟨(hpending id p hp).1, hleft id p hp⟩, Or.inr ?_, Or.inr ?_⟩
      · refine ⟨_, List.mem_cons_self, rfl, Nat.add_le_add_right ?_ _⟩
        exact Nat.le_of_eq (m.ctxAt env).now_onLookupTick
      · exact Nat.lt_of_le_of_lt hseen (Nat.lt_add_of_pos_right (by decide))
    · refine hkeep ?_ ?_
      · rw [step_work hwork]
        exact (m.ctxAt env).waits_runTask t
      · rw [step_work hwork, hwork]
        intro hmem
        rcases List.mem_cons.mp hmem with heq | hrest
        · exact absurd heq.symm ht
        · exact List.mem_append_right _ hrest
  | reorder r => exact hkeep (Waits.of_eq rfl) fun hmem ↦ hmem
  | exit =>
    by_cases hstop : m.phase = .stopping ∧ m.work = []
    · refine hkeep ?_ (hnil hstop.2)
      simp only [Machine.step, if_pos hstop]
      exact Waits.of_eq rfl
    · exact hsame (if_neg hstop)

/-- **What a run does**, with a clock that does not go back. -/
theorem foldl {es later : List Event} (h : Timely seen last m)
    (hseen : ∀ e ∈ es, seen ≤ e.env.instant) (hlast : ∀ e ∈ es ++ later, last ≤ e.env.instant)
    (hclock : (es ++ later).Pairwise fun e e' ↦ e.env.instant ≤ e'.env.instant) :
    ∃ last', Timely seen last' (es.foldl Machine.step m) ∧
      ∀ e ∈ later, last' ≤ e.env.instant := by
  induction es generalizing m last with
  | nil => exact ⟨last, h, hlast⟩
  | cons e es ih =>
    obtain ⟨hfirst, hrest⟩ := List.pairwise_cons.mp hclock
    obtain ⟨hseen₀, hseen'⟩ := List.forall_mem_cons.mp hseen
    obtain ⟨last', hle, hstep⟩ := h.step e hseen₀ (hlast e List.mem_cons_self)
    exact ih hstep hseen' (fun e' he' ↦ hle.trans (hfirst e' he')) hrest

/-- With the timers handled no lookup is older than a budget and a period of the timer. -/
theorem started_of_idle (h : Timely seen last m) (hwork : m.work = []) :
    m.ctx.AllPending fun l ↦ seen < l.term.1 + 1550 * millis := by
  intro id p hp
  have hpending := (h.pending id p hp).2
  have hseen : seen < last + 50 * millis := h.seen.resolve_left fun hmem ↦ by
    rw [hwork] at hmem
    cases hmem
  rw [millis] at hpending hseen ⊢
  omega

end Timely

end Machine

namespace Machine

variable {m : Machine} {k bound : ℕ}

/-- A pending lookup was pending before the step, for the same client and since the same time, or
it is for the command that the step takes. -/
theorem pending_step (e : Event) {id : UInt32} {p' : PendingLookup}
    (hp' : (m.step e).ctx.lookups.lookup id = some p') :
    (∃ p, m.ctx.lookups.lookup id = some p ∧ p'.reply = p.reply ∧
        p'.lookup.term = p.lookup.term) ∨ p'.reply = some m.asked.length := by
  have hkept : m.ctx.lookups.lookup id = some p' → (∃ p, m.ctx.lookups.lookup id = some p ∧
      p'.reply = p.reply ∧ p'.lookup.term = p.lookup.term) ∨ p'.reply = some m.asked.length :=
    fun hp ↦ Or.inl ⟨p', hp, rfl, rfl⟩
  rcases m.step_cases e with hsame | ⟨src, pkt, -, hctx, -⟩ | ⟨cmd, -, hctx, -⟩ |
    ⟨timers, -, hctx, -⟩ | ⟨t, ts, hinput, -, -, hasked⟩ | ⟨r, -, hctx, -⟩ | ⟨-, hctx, -⟩
  · rw [hsame] at hp'
    exact hkept hp'
  · obtain ⟨wg, sybil, sent, heq⟩ := (m.ctxAt e.env).handleDatagram_fst src pkt
    rw [hctx, heq] at hp'
    exact hkept hp'
  · rw [hctx] at hp'
    change ((m.ctxAt e.env).handleCmd cmd m.asked.length).desk.lookups.lookup id = some p' at hp'
    rcases (m.ctxAt e.env).serves_handleCmd cmd m.asked.length with
      ⟨-, hdesk⟩ | ⟨-, hdesk⟩ | ⟨-, -, -, hdesk⟩
    · rw [hdesk] at hp'
      exact hkept hp'
    · rw [hdesk] at hp'
      exact hkept hp'
    · rw [hdesk, HashMap.lookup_insert_of] at hp'
      split_ifs at hp'
      · rw [← Option.some.inj hp']
        exact Or.inr rfl
      · exact hkept hp'
  · rw [hctx] at hp'
    exact hkept hp'
  · -- the handlers keep the clocks, and the desk says for whom the lookups are
    obtain ⟨env, input⟩ := e
    obtain rfl : input = .work := hinput
    obtain ⟨p, hp, hevolves⟩ := m.kept_work env id p' hp'
    rcases m.desk_step ⟨env, .work⟩ with ⟨-, hreceives⟩ | ⟨cmd, -, hmore, -⟩
    · obtain ⟨q, hq, hreply⟩ := Desk.reply_of_receives hreceives hp'
      have heq : q = p := Option.some.inj (hq.symm.trans hp)
      rw [heq] at hreply
      exact Or.inl ⟨p, hp, hreply, hevolves.term_eq⟩
    · have hlength := congrArg List.length (hasked.symm.trans hmore)
      rw [List.length_append, List.length_singleton] at hlength
      omega
  · rw [hctx] at hp'
    change (m.ctx.lookups.reorder r).lookup id = some p' at hp'
    rw [HashMap.lookup_reorder] at hp'
    exact hkept hp'
  · rw [hctx] at hp'
    exact hkept hp'

/-- The lookups for the first `k` commands were started by the given time. -/
def Begun (k bound : ℕ) (m : Machine) : Prop :=
  ∀ id p, m.ctx.lookups.lookup id = some p → ∀ i < k, p.reply = some i → p.lookup.term.1 ≤ bound

theorem Begun.step (h : Begun k bound m) (e : Event) (hk : k ≤ m.asked.length) :
    Begun k bound (m.step e) := by
  intro id p' hp' i hi hreply
  rcases pending_step e hp' with ⟨p, hp, hsame, hterm⟩ | hnew
  · rw [hterm]
    exact h id p hp i hi (hsame ▸ hreply)
  · rw [hnew] at hreply
    have heq := Option.some.inj hreply
    omega

theorem length_asked_le (m : Machine) (e : Event) : m.asked.length ≤ (m.step e).asked.length := by
  rcases m.desk_step e with ⟨hasked, -⟩ | ⟨cmd, -, hasked, -⟩
  · rw [hasked]
  · rw [hasked, List.length_append]
    exact Nat.le_add_right _ _

theorem begun_foldl (h : Begun k bound m) (hk : k ≤ m.asked.length) (es : List Event) :
    Begun k bound (es.foldl Machine.step m) := by
  induction es generalizing m with
  | nil => exact h
  | cons e es ih => exact ih (h.step e hk) (hk.trans (m.length_asked_le e))

end Machine

/-- **Replies come in time.** In every run of a shard with a clock that does not go back, and in
which fewer than `2 ^ 32 - 1` ids are used up while a lookup is pending: once the timers have been
looked at and handled, every command that was taken at least 1550 ms before has been given its
reply, if it asks for one, whatever the network does. No pending lookup is older than that. -/
theorem answered_in_time (start : ShardStart) (early between later : List Event) (env : Env)
    (hclock : (early ++ between ++ ⟨env, .tick⟩ :: later).Pairwise
      fun e e' ↦ e.env.instant ≤ e'.env.instant)
    (hstart : ∀ e ∈ early ++ between ++ ⟨env, .tick⟩ :: later, start.env.instant ≤ e.env.instant)
    (hearly : ∀ e ∈ early, e.env.instant + 1550 * millis ≤ env.instant)
    (hidle : ((early ++ between).foldl Machine.step start.machine).work = [])
    (hphase : ((early ++ between).foldl Machine.step start.machine).phase ≠ .exited)
    (hmetered : start.machine.Metered (early ++ between ++ ⟨env, .tick⟩ :: later))
    (hdone : (⟨start, early ++ between ++ ⟨env, .tick⟩ :: later⟩ : ShardRun).final.work = []) :
    let final := (⟨start, early ++ between ++ ⟨env, .tick⟩ :: later⟩ : ShardRun).final
    (∀ i < (early.foldl Machine.step start.machine).asked.length,
        final.ctx.desk.answered i = Machine.due final.asked i) ∧
      final.ctx.AllPending fun l ↦ env.instant < l.started + 1550 * millis := by
  intro final
  -- the lookup timer has been handled since the timers were looked at
  obtain ⟨last, hbefore, hlast⟩ := (Machine.Timely.start start).foldl (fun _ _ ↦ Nat.zero_le _)
    hstart hclock
  obtain ⟨-, hrest, -⟩ := List.pairwise_append.mp hclock
  obtain ⟨hfirst, hrest⟩ := List.pairwise_cons.mp hrest
  rw [← List.append_nil later] at hrest
  obtain ⟨last', hafter, -⟩ := (hbefore.tick hidle hphase).foldl hfirst
    (fun e he ↦ hlast e (List.mem_cons_of_mem _ (List.append_nil later ▸ he))) hrest
  have hfinal : final = later.foldl Machine.step
      (((early ++ between).foldl Machine.step start.machine).step ⟨env, .tick⟩) :=
    List.foldl_append
  rw [← hfinal] at hafter
  have hyoung := hafter.started_of_idle hdone
  refine ⟨fun i hi ↦ ?_, hyoung⟩
  -- the lookups of early commands have begun early
  have hbegun : Machine.Begun (early.foldl Machine.step start.machine).asked.length
      (env.instant - 1550 * millis) final := by
    have hpending : (early.foldl Machine.step start.machine).ctx.AllPending
        fun l ↦ l.term.1 ≤ env.instant - 1550 * millis := by
      refine (Runs.along_of_forall hearly).invariant
        (I := fun m : Machine ↦ m.ctx.AllPending fun l ↦ l.term.1 ≤ env.instant - 1550 * millis)
        (fun m e h he ↦ ?_) fun id p hp ↦ by cases hp
      exact ShardCtx.AllPending.step
        (Lookup.stable_term (Q := fun t ↦ t.1 ≤ env.instant - 1550 * millis)
          (Nat.le_sub_of_add_le he)) h
    have hsplit : final = (between ++ ⟨env, .tick⟩ :: later).foldl Machine.step
        (early.foldl Machine.step start.machine) := by
      rw [← List.foldl_append, ← List.append_assoc]
      rfl
    rw [hsplit]
    exact Machine.begun_foldl (fun id p hp _ _ _ ↦ hpending id p hp) (Nat.le_refl _) _
  have hheld : final.ctx.desk.held i = 0 := by
    refine Desk.held_eq_zero fun id p hp hreply ↦ ?_
    have hold := hbegun id p hp i hi hreply
    have hnew : env.instant < p.lookup.term.1 + 1550 * millis := hyoung id p hp
    obtain ⟨e, he⟩ : ∃ e, e ∈ early := List.exists_mem_of_ne_nil early fun hnil ↦ by
      rw [hnil] at hi
      cases hi
    have hlong := hearly e he
    omega
  have htally := ShardRun.tally_eq
    ⟨start, early ++ between ++ ⟨env, .tick⟩ :: later⟩ hmetered i
  rw [Desk.tally, hheld] at htally
  exact htally

end

section

open Sample

attribute [local instance] wireCrates

private def clockAt (ms : ℕ) : Env := { noon with instant := ms * millis }

/-- A shard asks its only peer for a key, and the peer never answers. -/
private def unheardAsk : List Event :=
  [⟨clockAt 0, .command (.injectPeer (.new ⟨Bytes32.fill 5⟩ (.ofV4 10 0 0 9 9000)))⟩,
    ⟨clockAt 0, .command (.get ⟨Bytes32.fill 7⟩)⟩]

/-- The timers are looked at once more in time, and then when it is late. -/
private def unheardWait : List Event :=
  [⟨clockAt 1499, .tick⟩, ⟨clockAt 1499, .work⟩, ⟨clockAt 1499, .work⟩]

private def unheardEnd : List Event := [⟨clockAt 1550, .work⟩]

private def unheardRun : ShardRun :=
  ⟨shardStart ⟨true, false, false⟩,
    unheardAsk ++ unheardWait ++ ⟨clockAt 1550, .tick⟩ :: unheardEnd⟩

/-- Nothing was found in time, and the client is told so. -/
theorem answered_in_time_silent :
    unheardRun.final.ctx.desk.answered 1 = 1 ∧
      unheardRun.final.ctx.replies = [(1, .value none)] := by
  have hfew : unheardRun.start.machine.allocated unheardRun.events < 2 ^ 32 - 1 := by
    decide +kernel
  have hreplies := (answered_in_time unheardRun.start unheardAsk unheardWait unheardEnd
    (clockAt 1550) (by decide +kernel) (by decide +kernel) (by decide +kernel) (by decide +kernel)
    (by decide +kernel) (Machine.metered_of_allocated hfew) (by decide +kernel)).1 1
    (by decide +kernel)
  have hdue : Machine.due unheardRun.final.asked 1 = 1 := by decide +kernel
  exact ⟨hreplies.trans hdue, by decide +kernel⟩

end

end Molia
