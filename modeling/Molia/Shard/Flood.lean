import Molia.Net.RateLimit
import Molia.Shard.Moves

/-!
# Floods

A shard does three things for a sender only if `allow_pre_handshake` lets it through: it gives a
WireGuard datagram to the tunnels, it carries out a STORE, and it carries out an ANNOUNCE_PROVIDER.
All three draw from the same buckets. Everything else a shard does leaves these buckets alone, so in
a whole run of the shard the bounds of the buckets apply to the three together
(`served_window_le`). The bounds are those of buckets that count tokens exactly. The buckets of the
source count in doubles, and over a long time rounding may add up to a token.

What is refused is dropped: the bytes of a datagram do not reach a tunnel, and nothing is written to
the store.
-/

namespace Molia

open TokenBuckets

namespace Sybil

/-- The buckets of addresses and networks. -/
def gates (s : Sybil) :
    HashMap IpAddr TokenBucket × HashMap (UInt8 × UInt8 × UInt8) TokenBucket :=
  (s.ipBuckets, s.prefixBuckets)

variable {s s' : Sybil}

theorem ipLevel_congr (h : s'.gates = s.gates) (ip : IpAddr) : s'.ipLevel ip = s.ipLevel ip := by
  rw [ipLevel, show s'.ipBuckets = s.ipBuckets from congrArg Prod.fst h]
  rfl

theorem prefixLevel_congr (h : s'.gates = s.gates) (p : UInt8 × UInt8 × UInt8) :
    s'.prefixLevel p = s.prefixLevel p := by
  rw [prefixLevel, show s'.prefixBuckets = s.prefixBuckets from congrArg Prod.snd h]
  rfl

theorem Steady.congr {t : ℕ} (hs : s.Steady t) (h : s'.gates = s.gates) : s'.Steady t := by
  refine ⟨?_, ?_⟩
  · rw [show s'.ipBuckets = s.ipBuckets from congrArg Prod.fst h]
    exact hs.ip
  · rw [show s'.prefixBuckets = s.prefixBuckets from congrArg Prod.snd h]
    exact hs.net

end Sybil

section

variable [Crates]

open Crates

attribute [local irreducible] message

/-! ## What leaves the buckets alone -/

namespace ShardNet

/-- The buckets of addresses and networks are the same. -/
def SameGates (n n' : ShardNet) : Prop := n'.sybil.gates = n.sybil.gates

namespace SameGates

theorem followsPunches : FollowsPunches SameGates where
  refl _ := rfl
  trans h h' := h'.trans h
  posts h := congrArg (fun k : Knowledge ↦ k.sybil.gates) h.sends.knowledge
  attempts _ _ := rfl
  schedule _ _ := rfl

theorem notePeerKeys (n : ShardNet) (src : SocketAddr) (x25519 ed25519 sig : Bytes) :
    SameGates n (n.notePeerKeys src x25519 ed25519 sig).2 := by
  rw [ShardNet.notePeerKeys]
  split
  · exact rfl
  · split_ifs
    · exact rfl
    · exact rfl
    · exact rfl

theorem learnAddr (n : ShardNet) (src : SocketAddr) (id : Option NodeId) :
    SameGates n (n.learnAddr src id) := by
  rcases id with _ | id
  · exact rfl
  · exact rfl

theorem injectPeer (n : ShardNet) (info : PeerInfo) :
    SameGates n (ShardCtx.injectPeer n info) := by
  rw [ShardCtx.injectPeer]
  rcases info.x25519 with _ | x
  · exact rfl
  · rcases info.primaryAddr with _ | addr
    · exact rfl
    · exact rfl

theorem follows : FollowsMeetings SameGates where
  toFollowsPosts := followsPunches.toFollowsPosts
  relays _ _ _ := rfl
  notePeerKeys := notePeerKeys
  learnAddr := learnAddr
  mapped _ _ := rfl
  insertPeer _ _ := rfl
  upsertPeer _ _ := rfl
  injectPeer := injectPeer
  startPunch n rendezvous peer := followsPunches.startPunch rendezvous n peer
  answerPunch := followsPunches.answerPunch fun _ _ ↦ rfl
  replied _ _ := rfl

end SameGates

end ShardNet

namespace ShardCtx

open ShardNet

theorem sameGates_onTimer (c : ShardCtx) (kind : TimerKind) :
    SameGates c.toShardNet (c.onTimer kind).toShardNet := by
  by_cases hflush : kind = .peerstoreFlush
  · rw [hflush]
    exact rfl
  · exact follows_onTimer SameGates.follows.toFollowsRelays SameGates.followsPunches
      (fun _ _ ↦ rfl) (fun _ _ ↦ rfl)
      (fun n ↦ congrArg (fun k : Knowledge ↦ k.sybil.gates) (Punches.onKeepalive n)) c hflush

/-! ## What draws from them -/

/-- The message is checked against the limits of its sender: a STORE or an ANNOUNCE_PROVIDER whose
body can be read. -/
def limited (pkt : Bytes) : Bool :=
  match Header.decode pkt with
  | none => false
  | some h =>
    match h.ty with
    | .storeReq => (decodeBody Crates.storeReq pkt).isSome
    | .announceProviderReq => (decodeBody Crates.announceProviderReq pkt).isSome
    | _ => false

variable {c : ShardCtx} {src : SocketAddr} {h : Header} {pkt : Bytes}

/-- A request is carried out only if it is let through, and draws in any case. -/
theorem gates_onStore {req : Proto.StoreReq} (hreq : decodeBody Crates.storeReq pkt = some req) :
    (c.onStore src h pkt).sybil.gates = (c.sybil.knock ⟨c.now, src⟩).gates ∧
      (¬c.sybil.Admits ⟨c.now, src⟩ → (c.onStore src h pkt).store = c.store) := by
  rw [onStore, hreq]
  dsimp only
  by_cases hok : (c.sybil.allowPreHandshake c.now src).1 = false
  · rw [if_pos hok]
    exact ⟨SameGates.follows.posts (Posts.sendMessage _ src none _), fun _ ↦ rfl⟩
  · rw [if_neg hok]
    refine ⟨(SameGates.follows.posts (Posts.sendMessage _ _ _ _)).trans ?_,
      fun hrefused ↦ absurd (Bool.eq_true_of_not_eq_false hok) hrefused⟩
    rw [storeVerdict]
    split
    · rfl
    · split
      · rfl
      · rfl

theorem gates_onAnnounce {req : Proto.AnnounceProviderReq}
    (hreq : decodeBody Crates.announceProviderReq pkt = some req) :
    (c.onAnnounce src h pkt).sybil.gates = (c.sybil.knock ⟨c.now, src⟩).gates ∧
      (¬c.sybil.Admits ⟨c.now, src⟩ → (c.onAnnounce src h pkt).store = c.store) := by
  rw [onAnnounce, hreq]
  dsimp only
  by_cases hok : (c.sybil.allowPreHandshake c.now src).1 = false
  · rw [if_pos hok]
    exact ⟨rfl, fun _ ↦ rfl⟩
  · rw [if_neg hok]
    refine ⟨?_, fun hrefused ↦ absurd (Bool.eq_true_of_not_eq_false hok) hrefused⟩
    split
    · rfl
    · refine (SameGates.follows.posts (Posts.sendMessage _ _ _ _)).trans ?_
      split
      · rfl
      · rfl

theorem gates_handleApp_of_limited (authenticated : Bool) (hlim : limited pkt = true) :
    (c.handleApp src pkt authenticated).1.sybil.gates = (c.sybil.knock ⟨c.now, src⟩).gates ∧
      (¬c.sybil.Admits ⟨c.now, src⟩ → (c.handleApp src pkt authenticated).1.store = c.store) := by
  rw [limited] at hlim
  split at hlim
  · cases hlim
  · rename_i h hdec
    split at hlim
    · rename_i hty
      obtain ⟨req, hreq⟩ := Option.isSome_iff_exists.mp hlim
      simp only [handleApp, hdec, hty]
      exact gates_onStore hreq
    · rename_i hty
      obtain ⟨req, hreq⟩ := Option.isSome_iff_exists.mp hlim
      simp only [handleApp, hdec, hty]
      exact gates_onAnnounce hreq
    · cases hlim

theorem gates_handleApp_of_not_limited (c : ShardCtx) (src : SocketAddr) (authenticated : Bool)
    (hlim : limited pkt = false) :
    (c.handleApp src pkt authenticated).1.sybil.gates = c.sybil.gates := by
  refine follows_handleApp_of_ty SameGates.follows c src authenticated ?_ ?_
  · intro h hdec hty
    simp only [limited, hdec, hty, Option.isSome_eq_false_iff, Option.isNone_iff_eq_none] at hlim
    rw [onStore, hlim]
    exact rfl
  · intro h hdec hty
    simp only [limited, hdec, hty, Option.isSome_eq_false_iff, Option.isNone_iff_eq_none] at hlim
    rw [onAnnounce, hlim]
    exact rfl

/-- The call of `allow_pre_handshake` that a task makes. -/
def taskKnock? (c : ShardCtx) : Task → Option Knock
  | .app src pkt _ => if limited pkt = true then some ⟨c.now, src⟩ else none
  | _ => none

theorem gates_runTask (c : ShardCtx) (t : Task) :
    (c.taskKnock? t = none → (c.runTask t).1.sybil.gates = c.sybil.gates) ∧
      ∀ q, c.taskKnock? t = some q → (c.runTask t).1.sybil.gates = (c.sybil.knock q).gates ∧
        (¬c.sybil.Admits q → (c.runTask t).1.store = c.store) := by
  rcases t with ⟨src, pkt, authenticated⟩ | src | src | kind
  · by_cases hlim : limited pkt = true
    · rw [taskKnock?, if_pos hlim]
      refine ⟨nofun, fun q hq ↦ ?_⟩
      rw [← Option.some.inj hq]
      exact gates_handleApp_of_limited authenticated hlim
    · rw [taskKnock?, if_neg hlim]
      exact ⟨fun _ ↦ c.gates_handleApp_of_not_limited src authenticated
        (Bool.eq_false_of_not_eq_true hlim), nofun⟩
  · obtain ⟨wg, sent, hdrain⟩ := c.drainTurn_fst src
    refine ⟨fun _ ↦ ?_, nofun⟩
    show (c.drainTurn src).1.sybil.gates = _
    rw [hdrain]
  · exact ⟨fun _ ↦ congrArg (fun k : Knowledge ↦ k.sybil.gates)
      (Sends.flushPendingWg c.toShardNet src).knowledge, nofun⟩
  · exact ⟨fun _ ↦ c.sameGates_onTimer kind, nofun⟩

/-- A datagram that looks like WireGuard draws, and if it is refused nothing else happens. -/
theorem handleDatagram_of_wg (hwg : looksLikeWg pkt = true) :
    (c.handleDatagram src pkt).1.sybil = c.sybil.knock ⟨c.now, src⟩ ∧
      (¬c.sybil.Admits ⟨c.now, src⟩ → c.handleDatagram src pkt
        = ({ c with sybil := c.sybil.knock ⟨c.now, src⟩ }, [])) := by
  rw [handleDatagram, if_pos hwg]
  dsimp only
  by_cases hok : (c.sybil.allowPreHandshake c.now src).1 = false
  · rw [if_pos hok]
    exact ⟨rfl, fun _ ↦ rfl⟩
  · rw [if_neg hok]
    refine ⟨?_, fun hrefused ↦ absurd (Bool.eq_true_of_not_eq_false hok) hrefused⟩
    split
    all_goals
      rename_i heq
      rw [eq_of_decapsulate heq]
      rfl

end ShardCtx

/-! ## Runs -/

namespace Machine

open ShardNet

/-- The call of `allow_pre_handshake` that a step makes. -/
def knock? (m : Machine) (e : Event) : Option Knock :=
  match e.input with
  | .datagram src pkt =>
    if m.Ready ∧ looksLikeWg pkt = true then some ⟨e.env.instant, src⟩ else none
  | .work => m.work.head?.bind (m.ctxAt e.env).taskKnock?
  | _ => none

/-- The sender whose datagram is given to the tunnels, or whose request is carried out. -/
def served (m : Machine) (e : Event) : Option SocketAddr :=
  ((m.knock? e).filter fun q ↦ m.ctx.sybil.Admits q).map Knock.src

theorem now_of_knock? {m : Machine} {e : Event} {q : Knock} (h : m.knock? e = some q) :
    q.now = e.env.instant := by
  rw [knock?] at h
  split at h
  · split_ifs at h
    rw [← Option.some.inj h]
  · obtain ⟨t, -, ht⟩ := Option.bind_eq_some_iff.mp h
    rcases t with ⟨src, pkt, _⟩ | _ | _ | _
    · rw [ShardCtx.taskKnock?] at ht
      split_ifs at ht
      rw [← Option.some.inj ht]
      rfl
    · cases ht
    · cases ht
    · cases ht
  · cases h

theorem gates_step (m : Machine) (e : Event) :
    (m.knock? e = none → (m.step e).ctx.sybil.gates = m.ctx.sybil.gates) ∧
      ∀ q, m.knock? e = some q → (m.step e).ctx.sybil.gates = (m.ctx.sybil.knock q).gates := by
  obtain ⟨env, input⟩ := e
  cases input with
  | datagram src pkt =>
    by_cases hready : m.Ready
    · have hstep : (m.step ⟨env, .datagram src pkt⟩).ctx
          = ((m.ctxAt env).handleDatagram src pkt).1 := by simp [step, hready]
      rw [hstep]
      by_cases hwg : looksLikeWg pkt = true
      · have hknock : m.knock? ⟨env, .datagram src pkt⟩ = some ⟨env.instant, src⟩ :=
          if_pos ⟨hready, hwg⟩
        rw [hknock]
        refine ⟨by rintro ⟨⟩, fun q hq ↦ ?_⟩
        rw [← Option.some.inj hq, (ShardCtx.handleDatagram_of_wg hwg).1]
        rfl
      · have hknock : m.knock? ⟨env, .datagram src pkt⟩ = none := if_neg fun h ↦ hwg h.2
        rw [hknock, ShardCtx.handleDatagram, if_neg hwg]
        exact ⟨fun _ ↦ rfl, by rintro q ⟨⟩⟩
    · have hstep : m.step ⟨env, .datagram src pkt⟩ = m := if_neg hready
      have hknock : m.knock? ⟨env, .datagram src pkt⟩ = none := if_neg fun h ↦ hready h.1
      rw [hstep, hknock]
      exact ⟨fun _ ↦ rfl, by rintro q ⟨⟩⟩
  | command cmd =>
    refine ⟨fun _ ↦ ?_, by rintro q ⟨⟩⟩
    by_cases hready : m.Ready
    · have hstep : (m.step ⟨env, .command cmd⟩).ctx
          = (m.ctxAt env).handleCmd cmd m.asked.length := by simp [step, hready, takeCommand]
      rw [hstep]
      exact ShardCtx.follows_command SameGates.follows (m.ctxAt env) cmd _
    · rw [show m.step ⟨env, .command cmd⟩ = m from if_neg hready]
  | tick =>
    refine ⟨fun _ ↦ ?_, by rintro q ⟨⟩⟩
    by_cases hidle : m.work = [] ∧ m.phase ≠ .exited
    · simp only [step, if_pos hidle]
      rfl
    · rw [show m.step ⟨env, .tick⟩ = m from if_neg hidle]
  | work =>
    rcases hwork : m.work with _ | ⟨t, ts⟩
    · have hknock : m.knock? ⟨env, .work⟩ = none := by simp [knock?, hwork]
      rw [step_work_nil hwork, hknock]
      exact ⟨fun _ ↦ rfl, by rintro q ⟨⟩⟩
    · have hknock : m.knock? ⟨env, .work⟩ = (m.ctxAt env).taskKnock? t := by simp [knock?, hwork]
      obtain ⟨hnone, hsome⟩ := (m.ctxAt env).gates_runTask t
      rw [step_work hwork, hknock]
      exact ⟨hnone, fun q hq ↦ (hsome q hq).1⟩
  | reorder r => exact ⟨fun _ ↦ rfl, by rintro q ⟨⟩⟩
  | exit =>
    refine ⟨fun _ ↦ ?_, by rintro q ⟨⟩⟩
    by_cases hstop : m.phase = .stopping ∧ m.work = []
    · simp only [step, if_pos hstop]
      rfl
    · rw [show m.step ⟨env, .exit⟩ = m from if_neg hstop]

/-- What is refused is dropped: nothing is written to the store, and a datagram does not reach the
tunnels, is not answered and leaves no work. -/
theorem step_of_refused {m : Machine} {e : Event} {q : Knock} (hq : m.knock? e = some q)
    (hrefused : ¬m.ctx.sybil.Admits q) :
    (m.step e).ctx.store = m.ctx.store ∧
      ∀ src pkt, e.input = .datagram src pkt → m.step e = { m with
        ctx := { m.ctxAt e.env with sybil := m.ctx.sybil.knock q }, work := [] } := by
  obtain ⟨env, input⟩ := e
  cases input with
  | datagram src pkt =>
    by_cases hcond : m.Ready ∧ looksLikeWg pkt = true
    · have hknock : m.knock? ⟨env, .datagram src pkt⟩ = some ⟨env.instant, src⟩ := if_pos hcond
      obtain rfl := Option.some.inj (hknock.symm.trans hq)
      have hdrop := (ShardCtx.handleDatagram_of_wg (c := m.ctxAt env) hcond.2).2 hrefused
      have hstep : m.step ⟨env, .datagram src pkt⟩ = { m with
          ctx := ((m.ctxAt env).handleDatagram src pkt).1
          work := ((m.ctxAt env).handleDatagram src pkt).2 } := by simp [step, hcond.1]
      rw [hstep, hdrop]
      exact ⟨rfl, fun _ _ _ ↦ rfl⟩
    · have hknock : m.knock? ⟨env, .datagram src pkt⟩ = none := if_neg hcond
      rw [hknock] at hq
      cases hq
  | work =>
    refine ⟨?_, by rintro src pkt ⟨⟩⟩
    rcases hwork : m.work with _ | ⟨t, ts⟩
    · have hknock : m.knock? ⟨env, .work⟩ = none := by simp [knock?, hwork]
      rw [hknock] at hq
      cases hq
    · have hknock : m.knock? ⟨env, .work⟩ = (m.ctxAt env).taskKnock? t := by simp [knock?, hwork]
      rw [step_work hwork]
      exact (((m.ctxAt env).gates_runTask t).2 q (hknock.symm.trans hq)).2 hrefused
  | command cmd => cases hq
  | tick => cases hq
  | reorder r => cases hq
  | exit => cases hq

variable {m : Machine} {e : Event} {es window : List Event}

/-- A step that serves nobody gives no datagram to the tunnels and carries out no request to write.
-/
theorem step_of_not_served (h : m.served e = none) :
    (∀ src pkt, e.input = .datagram src pkt → (m.step e).ctx.wg = m.ctx.wg) ∧
      ∀ src pkt authenticated ts h, e.input = .work → m.work = .app src pkt authenticated :: ts →
        Header.decode pkt = some h → h.ty = .storeReq ∨ h.ty = .announceProviderReq →
        (m.step e).ctx.store = m.ctx.store := by
  obtain ⟨env, input⟩ := e
  rcases hq : m.knock? ⟨env, input⟩ with _ | q
  · refine ⟨?_, ?_⟩
    · rintro src pkt rfl
      by_cases hready : m.Ready
      · have hwg : ¬looksLikeWg pkt = true := by
          intro hwg
          have hsome : m.knock? ⟨env, .datagram src pkt⟩ = some ⟨env.instant, src⟩ :=
            if_pos ⟨hready, hwg⟩
          rw [hsome] at hq
          cases hq
        simp only [step, if_pos hready, ShardCtx.handleDatagram, if_neg hwg]
        rfl
      · rw [show m.step ⟨env, .datagram src pkt⟩ = m from if_neg hready]
    · rintro src pkt authenticated ts h rfl hwork hdec hty
      have hlim : ¬ShardCtx.limited pkt = true := by
        intro hlim
        simp [knock?, hwork, ShardCtx.taskKnock?, hlim] at hq
      rw [step_work hwork]
      show ((m.ctxAt env).handleApp src pkt authenticated).1.store = m.ctx.store
      rcases hty with hty | hty
      · simp only [ShardCtx.limited, hdec, hty, Option.not_isSome_iff_eq_none] at hlim
        simp only [ShardCtx.handleApp, hdec, hty, ShardCtx.onStore, hlim]
        rfl
      · simp only [ShardCtx.limited, hdec, hty, Option.not_isSome_iff_eq_none] at hlim
        simp only [ShardCtx.handleApp, hdec, hty, ShardCtx.onAnnounce, hlim]
        rfl
  · have hrefused : ¬m.ctx.sybil.Admits q := by
      intro hadmits
      simp [served, hq, hadmits] at h
    obtain ⟨hstore, hdatagram⟩ := step_of_refused hq hrefused
    refine ⟨fun src pkt hin ↦ ?_, fun _ _ _ _ _ _ _ _ _ ↦ hstore⟩
    rw [hdatagram src pkt hin]
    rfl

theorem steady_step (h : m.ctx.sybil.Steady e.env.instant) :
    (m.step e).ctx.sybil.Steady e.env.instant := by
  obtain ⟨hnone, hsome⟩ := m.gates_step e
  rcases hq : m.knock? e with _ | q
  · exact h.congr (hnone hq)
  · rw [← now_of_knock? hq] at h ⊢
    exact (Sybil.knock_spec h).2.2.2.congr (hsome q hq)

theorem steady_along {t : ℕ} (h : m.ctx.sybil.Steady t) (ht : ∀ e ∈ es, t ≤ e.env.instant)
    (hclock : es.Pairwise fun e e' ↦ e.env.instant ≤ e'.env.instant) :
    Runs.Along step (fun m e ↦ m.ctx.sybil.Steady e.env.instant) m es := by
  induction es generalizing m t with
  | nil => trivial
  | cons e es ih =>
    obtain ⟨hfirst, hrest⟩ := List.pairwise_cons.mp hclock
    have hnow := h.mono (ht e List.mem_cons_self)
    exact ⟨hnow, ih (steady_step hnow) hfirst hrest⟩

theorem steady_foldl {t : ℕ} (h : m.ctx.sybil.Steady t) (ht : ∀ e ∈ es ++ window, t ≤ e.env.instant)
    (hclock : (es ++ window).Pairwise fun e e' ↦ e.env.instant ≤ e'.env.instant) :
    ∃ t', (es.foldl step m).ctx.sybil.Steady t' ∧ ∀ e ∈ window, t' ≤ e.env.instant := by
  induction es generalizing m t with
  | nil => exact ⟨t, h, ht⟩
  | cons e es ih =>
    obtain ⟨hfirst, hrest⟩ := List.pairwise_cons.mp hclock
    exact ih (steady_step (h.mono (ht e List.mem_cons_self))) hfirst hrest

/-- The instant of an event. -/
abbrev instantOf (e : Event) : ℕ := e.env.instant

/-- In a run of the shard the bucket of an address is one of the library, -/
theorem draws_ip (h : m.ctx.sybil.Steady e.env.instant) (ip : IpAddr) :
    (ipLimit instantOf).Draws step (fun m e ↦ ∃ q ∈ m.knock? e, q.src.ip = ip)
      (fun m ↦ m.ctx.sybil.ipLevel ip) m e := by
  obtain ⟨hnone, hsome⟩ := m.gates_step e
  rw [Limit.Draws]
  rcases hq : m.knock? e with _ | q
  · simp only [Option.mem_def, reduceCtorEq, false_and, exists_false, if_false]
    exact Sybil.ipLevel_congr (hnone hq) ip
  · have hnow : q.now = instantOf e := now_of_knock? hq
    have hq' : m.ctx.sybil.Steady q.now := hnow ▸ h
    rw [Sybil.ipLevel_congr (hsome q hq), (Sybil.knock_spec hq').2.1 ip, (ipLimit_congr hnow _).2]
    simp only [Option.mem_def, Option.some_inj, exists_eq_left']

/-- and so is the bucket of a network. -/
theorem draws_network (h : m.ctx.sybil.Steady e.env.instant) (p : UInt8 × UInt8 × UInt8) :
    (prefixLimit instantOf).Draws step
      (fun m e ↦ ∃ q ∈ m.knock? e, RoutingTable.prefix24 q.src = some p ∧ m.ctx.sybil.Passes q)
      (fun m ↦ m.ctx.sybil.prefixLevel p) m e := by
  obtain ⟨hnone, hsome⟩ := m.gates_step e
  rw [Limit.Draws]
  rcases hq : m.knock? e with _ | q
  · simp only [Option.mem_def, reduceCtorEq, false_and, exists_false, if_false]
    exact Sybil.prefixLevel_congr (hnone hq) p
  · have hnow : q.now = instantOf e := now_of_knock? hq
    have hq' : m.ctx.sybil.Steady q.now := hnow ▸ h
    rw [Sybil.prefixLevel_congr (hsome q hq), (Sybil.knock_spec hq').2.2.1 p,
      (prefixLimit_congr hnow _).2]
    simp only [Option.mem_def, Option.some_inj, exists_eq_left']

theorem grants_of_served (h : m.ctx.sybil.Steady e.env.instant) {src : SocketAddr}
    (hsrc : m.served e = some src) :
    ∃ q ∈ m.knock? e, q.src = src ∧ m.ctx.sybil.Passes q ∧
      (ipLimit instantOf).Grants (m.ctx.sybil.ipLevel src.ip) e ∧
      ∀ p, RoutingTable.prefix24 src = some p →
        (prefixLimit instantOf).Grants (m.ctx.sybil.prefixLevel p) e := by
  simp only [served, Option.map_eq_some_iff, Option.filter_eq_some_iff, decide_eq_true_eq] at hsrc
  obtain ⟨q, ⟨hq, hadmits⟩, rfl⟩ := hsrc
  have hnow : q.now = instantOf e := now_of_knock? hq
  obtain ⟨hpasses, hnetwork⟩ := (Sybil.knock_spec (hnow ▸ h)).1.mp hadmits
  exact ⟨q, hq, rfl, hpasses, (ipLimit_congr hnow _).1.mp hpasses,
    fun p hp ↦ (prefixLimit_congr hnow _).1.mp (hnetwork p hp)⟩

end Machine

/-- **Floods.** In every run of a shard in which the monotonic clock does not go back and tokens are
counted exactly, and in every window of time in it: the datagrams from one address that are given to
the tunnels, together with its STORE and ANNOUNCE_PROVIDER requests that are carried out, are at
most 20 and 10 per second. Those from one IPv4 network are at most 80 and 40 per second. No other
datagram is given to the tunnels, and no other such request writes to the store. -/
theorem served_window_le (start : ShardStart) (before window : List Event)
    (hclock : (before ++ window).Pairwise fun e e' ↦ e.env.instant ≤ e'.env.instant) (t t' : ℕ)
    (hle : t ≤ t') (hwindow : ∀ e ∈ window, t ≤ e.env.instant ∧ e.env.instant ≤ t') :
    (∀ ip, (Runs.count Machine.step (fun m e ↦ (m.served e).map SocketAddr.ip = some ip)
        (before.foldl Machine.step start.machine) window : ℚ)
      ≤ 20 + (seconds t' - seconds t) * 10) ∧
    (∀ p, (Runs.count Machine.step (fun m e ↦ (m.served e).bind RoutingTable.prefix24 = some p)
        (before.foldl Machine.step start.machine) window : ℚ)
      ≤ 80 + (seconds t' - seconds t) * 40) ∧
    ∀ m e, Machine.served m e = none →
      (∀ src pkt, e.input = .datagram src pkt → (m.step e).ctx.wg = m.ctx.wg) ∧
      ∀ src pkt authenticated ts h, e.input = .work → m.work = .app src pkt authenticated :: ts →
        Header.decode pkt = some h → h.ty = .storeReq ∨ h.ty = .announceProviderReq →
        (m.step e).ctx.store = m.ctx.store := by
  obtain ⟨t₀, hsteady, hlast⟩ := Machine.steady_foldl (m := start.machine) (Sybil.steady_new 0)
    (fun _ _ ↦ Nat.zero_le _) hclock
  have hsorted := (List.pairwise_append.mp hclock).2.1
  have halong := Machine.steady_along hsteady hlast hsorted
  have hinstants : window.Pairwise fun e e' ↦ seconds e.env.instant ≤ seconds e'.env.instant :=
    hsorted.imp seconds_le
  have hseconds : ∀ e ∈ window, seconds t ≤ seconds e.env.instant ∧
      seconds e.env.instant ≤ seconds t' :=
    fun e he ↦ ⟨seconds_le (hwindow e he).1, seconds_le (hwindow e he).2⟩
  refine ⟨?_, ?_, fun m e ↦ Machine.step_of_not_served⟩
  · intro ip
    refine Limit.count_le (halong.mono fun m e h ↦ Machine.draws_ip h ip)
      (halong.mono fun m e h hserved ↦ ?_) (hsteady.ip.tokens_nonneg ip)
      (fun e he ↦ (hsteady.ip.last_le ip).trans (seconds_le (hlast e he)))
      hinstants (seconds_le hle) hseconds
    obtain ⟨src, hsrc, rfl⟩ := Option.map_eq_some_iff.mp hserved
    obtain ⟨q, hq, rfl, -, hgrants, -⟩ := Machine.grants_of_served h hsrc
    exact ⟨⟨q, hq, rfl⟩, hgrants, rfl⟩
  · intro p
    refine Limit.count_le (halong.mono fun m e h ↦ Machine.draws_network h p)
      (halong.mono fun m e h hserved ↦ ?_) (hsteady.net.tokens_nonneg p)
      (fun e he ↦ (hsteady.net.last_le p).trans (seconds_le (hlast e he)))
      hinstants (seconds_le hle) hseconds
    obtain ⟨src, hsrc, hp⟩ := Option.bind_eq_some_iff.mp hserved
    obtain ⟨q, hq, rfl, hpasses, -, hgrants⟩ := Machine.grants_of_served h hsrc
    exact ⟨⟨q, hq, hp, hpasses⟩, hgrants p hp, rfl⟩

end

section

attribute [local instance] Sample.wireCrates

/-- Thirty datagrams at once from one address, of a node in encrypted mode. -/
private def burst : List Event :=
  List.replicate 30 ⟨Sample.noon, .datagram (.ofV4 10 0 0 2 9000) (4 :: List.replicate 31 0)⟩

/-- Twenty of them are given to the tunnels. -/
theorem served_window_le_burst :
    Runs.count Machine.step (fun m e ↦ (m.served e).map SocketAddr.ip = some (.v4 10 0 0 2))
        (Sample.shardStart ⟨false, false, false⟩).machine burst = 20 ∧
      (Runs.count Machine.step (fun m e ↦ (m.served e).map SocketAddr.ip = some (.v4 10 0 0 2))
        (Sample.shardStart ⟨false, false, false⟩).machine burst : ℚ)
        ≤ 20 + (seconds 0 - seconds 0) * 10 := by
  have hinstant : ∀ e ∈ burst, e.env.instant = 0 := fun e he ↦ by
    rw [List.eq_of_mem_replicate he]
    rfl
  refine ⟨by decide +kernel, ?_⟩
  exact (served_window_le (Sample.shardStart ⟨false, false, false⟩) [] burst
    (List.pairwise_replicate.mpr (Or.inr (le_refl _))) 0 0 (le_refl 0)
    fun e he ↦ by rw [hinstant e he]; exact ⟨le_refl 0, le_refl 0⟩).1 (.v4 10 0 0 2)

end

end Molia
