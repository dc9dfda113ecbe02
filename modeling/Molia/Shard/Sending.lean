import Mathlib.Logic.Relation
import Molia.Shard.Handlers

/-!
# What sending leaves alone

A shard that sends a message changes its tunnels, its queues, its budget, its counter of correlation
ids and its histories, and nothing else. `Knowledge` gathers everything else, and `Sends n n'` says
that the step from `n` to `n'` keeps it and only adds to the histories. Every function of the
sending side is such a step; a handler that learns nothing and only answers is one too.

Hole punching is the one kind of sending that is remembered: a burst also changes the attempts and
the timers, and still nothing else. What is asked of a relation for it to hold of a punch is
`FollowsPunches`.
-/

namespace Molia

variable [Crates]

attribute [local irreducible] message

namespace ShardNet

/-- What a shard knows about itself and its peers. -/
structure Knowledge where
  identity : Identity
  cfg : NodeConfig
  localAddr : SocketAddr
  env : Env
  table : RoutingTable
  peers : Peerstore
  sybil : Sybil
  endpoints : HashMap NodeId EndpointHint
  timers : TimingWheel
  keysByAddr : HashMap SocketAddr Bytes32
  mapped : Option SocketAddr
  punches : HashMap NodeId PunchAttempt
  viaRelay : HashMap NodeId SocketAddr

def knowledge (n : ShardNet) : Knowledge where
  identity := n.identity
  cfg := n.cfg
  localAddr := n.localAddr
  env := n.env
  table := n.table
  peers := n.peers
  sybil := n.sybil
  endpoints := n.endpoints
  timers := n.timers
  keysByAddr := n.keysByAddr
  mapped := n.mapped
  punches := n.punches
  viaRelay := n.viaRelay

theorem hopFor_of_knowledge {n n' : ShardNet} (hk : n'.knowledge = n.knowledge)
    (dest : SocketAddr) : n'.hopFor dest = n.hopFor dest := by
  have htable : n'.table = n.table := congrArg Knowledge.table hk
  have hvia : n'.viaRelay = n.viaRelay := congrArg Knowledge.viaRelay hk
  rw [hopFor, peerIdFor, htable, hvia]
  rfl

/-- The step only sends. -/
structure Sends (n n' : ShardNet) : Prop where
  knowledge : n'.knowledge = n.knowledge
  sent : n.sent <+: n'.sent
  calls : n.calls <+: n'.calls

namespace Sends

variable {n n' n'' : ShardNet}

theorem refl (n : ShardNet) : Sends n n := ⟨rfl, List.prefix_refl _, List.prefix_refl _⟩

theorem trans (h : Sends n n') (h' : Sends n' n'') : Sends n n'' :=
  ⟨h'.knowledge.trans h.knowledge, h.sent.trans h'.sent, h.calls.trans h'.calls⟩

theorem env (h : Sends n n') : n'.env = n.env := congrArg Knowledge.env h.knowledge

theorem table (h : Sends n n') : n'.table = n.table := congrArg Knowledge.table h.knowledge

theorem cfg (h : Sends n n') : n'.cfg = n.cfg := congrArg Knowledge.cfg h.knowledge

theorem of_eq (hk : n'.knowledge = n.knowledge) (hs : n'.sent = n.sent) (hc : n'.calls = n.calls) :
    Sends n n' :=
  ⟨hk, ⟨[], (List.append_nil _).trans hs.symm⟩, [], (List.append_nil _).trans hc.symm⟩

theorem transmit (n : ShardNet) (dest : SocketAddr) (bytes : Bytes) (form : Form) :
    Sends n (n.transmit dest bytes form) :=
  ⟨rfl, List.prefix_append _ _, List.prefix_refl _⟩

theorem nextCorr (n : ShardNet) : Sends n n.nextCorr.2 := of_eq rfl rfl rfl

theorem sendRelayFrame (n : ShardNet) (hop : SocketAddr) (dest : NodeId) (app : Bytes) (i : ℕ) :
    Sends n (n.sendRelayFrame hop dest app i) := by
  rw [ShardNet.sendRelayFrame]
  split
  · exact refl n
  · dsimp only
    split
    · exact (nextCorr n).trans (transmit _ _ _ _)
    · exact nextCorr n

theorem encapsulateTo (n : ShardNet) (dest : SocketAddr) (pk : Bytes32) (b : Bytes) :
    Sends n (n.encapsulateTo dest pk b).2 := of_eq rfl rfl rfl

theorem enqueue (n : ShardNet) (dest : SocketAddr) (q : Queued) : Sends n (n.enqueue dest q) :=
  of_eq rfl rfl rfl

theorem sendSealed (n : ShardNet) (dest : SocketAddr) (pk : Bytes32) (q : Queued) :
    Sends n (n.sendSealed dest pk q) := by
  rw [ShardNet.sendSealed]
  have henc := encapsulateTo n dest pk (wrapRpc q.app)
  rcases hres : n.encapsulateTo dest pk (wrapRpc q.app) with ⟨pkt, n'⟩
  rw [hres] at henc
  rcases pkt with _ | pkt
  · -- no packet: the message waits, and a handshake may be started
    have hqueue := henc.trans (enqueue n' dest q)
    have hshake := encapsulateTo (n'.enqueue dest q) dest pk []
    simp only
    rcases hres' : (n'.enqueue dest q).encapsulateTo dest pk [] with ⟨pkt', n''⟩
    rw [hres'] at hshake
    rcases pkt' with _ | pkt'
    · exact hqueue.trans hshake
    · exact (hqueue.trans hshake).trans (transmit _ _ _ _)
  · simp only
    split
    · exact (henc.trans (enqueue n' dest q)).trans (transmit _ _ _ _)
    · exact henc.trans (transmit _ _ _ _)

theorem deliver (n : ShardNet) (dest : SocketAddr) (x25519 : Option Bytes32) (q : Queued) :
    Sends n (n.deliver dest x25519 q) := by
  rw [ShardNet.deliver]
  split
  · exact refl n
  · rcases n.hopFor dest with _ | ⟨id, hop⟩
    · have hbudget : Sends n { n with
          relay := { n.relay with
            budget := n.relay.budget.onEgress (UInt64.ofNat q.app.length) } } := of_eq rfl rfl rfl
      refine hbudget.trans ?_
      simp only
      split
      · exact transmit _ _ _ _
      · split
        · exact transmit _ _ _ _
        · exact sendSealed _ _ _ _
    · exact sendRelayFrame n hop id q.app q.call

theorem logCall (n : ShardNet) (dest : SocketAddr) (x25519 : Option Bytes32) (app : Bytes) :
    Sends n (n.logCall dest x25519 app) :=
  ⟨rfl, List.prefix_refl _, List.prefix_append _ _⟩

theorem sendApp (n : ShardNet) (dest : SocketAddr) (x25519 : Option Bytes32) (app : Bytes) :
    Sends n (n.sendApp dest x25519 app) :=
  (logCall n dest x25519 app).trans (deliver _ _ _ _)

end Sends

/-! ## Calls of `sendApp` -/

theorem calls_sendRelayFrame (n : ShardNet) (hop : SocketAddr) (dest : NodeId) (app : Bytes)
    (i : ℕ) : (n.sendRelayFrame hop dest app i).calls = n.calls := by
  rw [sendRelayFrame]
  split
  · rfl
  · dsimp only
    split
    · rfl
    · rfl

theorem calls_sendSealed (n : ShardNet) (dest : SocketAddr) (pk : Bytes32) (q : Queued) :
    (n.sendSealed dest pk q).calls = n.calls := by
  rw [sendSealed, encapsulateTo]
  generalize n.wg.encapsulateTo n.now dest pk none (wrapRpc q.app) = r
  obtain ⟨_ | pkt, w⟩ := r
  · dsimp only [enqueue, encapsulateTo, now]
    generalize w.encapsulateTo n.env.instant dest pk none [] = r'
    obtain ⟨_ | pkt', w'⟩ := r'
    · rfl
    · rfl
  · dsimp only
    split
    · rfl
    · rfl

/-- Once a call has been entered, its delivery enters no other. -/
theorem calls_deliver (n : ShardNet) (dest : SocketAddr) (x25519 : Option Bytes32) (q : Queued) :
    (n.deliver dest x25519 q).calls = n.calls := by
  rw [deliver]
  split
  · rfl
  · rcases n.hopFor dest with _ | ⟨id, hop⟩
    · dsimp only
      split
      · rfl
      · split
        · rfl
        · exact calls_sendSealed _ _ _ _
    · exact calls_sendRelayFrame n hop id q.app q.call

/-- The entry of a call in the history. -/
def callEntry (n : ShardNet) (dest : SocketAddr) (x25519 : Option Bytes32) (app : Bytes) :
    SendCall where
  dest := dest
  x25519 := x25519
  app := app
  key := n.keyFor dest x25519
  hop := (n.hopFor dest).map Prod.snd

/-- **One call, one entry.** -/
theorem calls_sendApp (n : ShardNet) (dest : SocketAddr) (x25519 : Option Bytes32) (app : Bytes) :
    (n.sendApp dest x25519 app).calls = n.calls ++ [n.callEntry dest x25519 app] := by
  rw [sendApp, calls_deliver, logCall, callEntry]

/-! ## Messages -/

/-- The datagrams that are never encrypted and serve no call of `sendApp`: greetings, punch
messages, frames on their way between two other nodes, and the answer to a handshake without
proof of work. -/
inductive Control : Bytes → Prop
  | ping {corr : UInt32} {body : Proto.Ping} {bytes : Bytes}
    (h : message Crates.ping (Header.request .ping .control corr) body = some bytes) :
    Control bytes
  | pong {corr : UInt32} {body : Proto.Pong} {bytes : Bytes}
    (h : message Crates.pong (Header.response .pong .control corr) body = some bytes) :
    Control bytes
  | punch {corr : UInt32} {body : Proto.Punch} {bytes : Bytes}
    (h : message Crates.punch (Header.request .punch .control corr) body = some bytes) :
    Control bytes
  | relayed {corr : UInt32} {pkt : Bytes} {r : Proto.Relay} {bytes : Bytes}
    (hr : decodeBody Crates.relay pkt = some r)
    (h : message Crates.relay (Header.request .relay .coordination corr) r = some bytes) :
    Control bytes
  | cookie (w : WgEngine) : Control w.cookieReply

/-- The ways in which a handler sends something: it takes a correlation id for it, sends a message
of the control plane, or calls `sendApp`. -/
inductive Post : ShardNet → ShardNet → Prop
  | number (n : ShardNet) : Post n n.nextCorr.2
  | control (n : ShardNet) (dest : SocketAddr) {bytes : Bytes} (h : Control bytes) :
    Post n (n.transmit dest bytes (.clear none))
  | send (n : ShardNet) (dest : SocketAddr) (x25519 : Option Bytes32) (app : Bytes) :
    Post n (n.sendApp dest x25519 app)

/-- Any number of them. -/
abbrev Posts : ShardNet → ShardNet → Prop := Relation.ReflTransGen Post

namespace Posts

variable {n n' : ShardNet}

theorem sends (h : Posts n n') : Sends n n' := by
  induction h with
  | refl => exact Sends.refl n
  | tail _ hlast ih =>
    refine ih.trans ?_
    rcases hlast with _ | ⟨dest, -⟩ | ⟨dest, x25519, app⟩
    · exact Sends.nextCorr _
    · exact Sends.transmit _ dest _ _
    · exact Sends.sendApp _ dest x25519 app

theorem nextCorr (n : ShardNet) : Posts n n.nextCorr.2 := .single (.number n)

theorem sendControl (n : ShardNet) (dest : SocketAddr) {pkt : Option Bytes}
    (h : ∀ p, pkt = some p → Control p) : Posts n (n.sendControl dest pkt) := by
  rcases pkt with _ | p
  · exact .refl
  · exact .single (.control n dest (h p rfl))

theorem sendApp (n : ShardNet) (dest : SocketAddr) (x25519 : Option Bytes32) (app : Bytes) :
    Posts n (n.sendApp dest x25519 app) := .single (.send n dest x25519 app)

theorem sendMessage (n : ShardNet) (dest : SocketAddr) (x25519 : Option Bytes32)
    (pkt : Option Bytes) : Posts n (n.sendMessage dest x25519 pkt) := by
  rcases pkt with _ | p
  · exact .refl
  · exact sendApp n dest x25519 p

theorem sendPing (n : ShardNet) (dest : SocketAddr) : Posts n (n.sendPing dest) :=
  (nextCorr n).trans (sendControl _ _ fun _ ↦ .ping)

theorem sendPunchMsg (n : ShardNet) (hop : SocketAddr) (target : NodeId)
    (cands : List SocketAddr) : Posts n (n.sendPunchMsg hop target cands) :=
  (nextCorr n).trans (sendControl _ _ fun _ ↦ .punch)

theorem foldl {α : Type*} {f : ShardNet → α → ShardNet} (hf : ∀ n a, Posts n (f n a)) (l : List α)
    (n : ShardNet) : Posts n (l.foldl f n) := by
  induction l generalizing n with
  | nil => exact .refl
  | cons a l ih => exact (hf n a).trans (ih (f n a))

theorem sendProbe (dest : SocketAddr) (x25519 : Option Bytes32) (n : ShardNet) (probe : Key) :
    Posts n (n.sendProbe dest x25519 probe) :=
  (nextCorr n).trans (sendMessage _ _ _ _)

theorem dispatchTo (acc : ShardNet × Lookup) (p : PeerInfo) :
    Posts acc.1 (ShardNet.dispatchTo acc p).1 := by
  obtain ⟨n, l⟩ := acc
  rw [ShardNet.dispatchTo]
  dsimp only
  have hcorr := nextCorr n
  split
  · exact hcorr
  · rename_i dest hdest
    rcases ShardNet.lookupRequest l n.nextCorr.1 with _ | pkt
    · dsimp only
      split
      · exact hcorr.trans (foldl (sendProbe dest p.x25519) _ _)
      · exact hcorr
    · have happ := hcorr.trans (sendApp n.nextCorr.2 dest p.x25519 pkt)
      dsimp only
      split
      · exact happ.trans (foldl (sendProbe dest p.x25519) _ _)
      · exact happ

theorem dispatchLookupBatch (n : ShardNet) (l : Lookup) :
    Posts n (n.dispatchLookupBatch l).1 :=
  List.foldlRecOn (motive := fun acc : ShardNet × Lookup ↦ Posts n acc.1) _ ShardNet.dispatchTo
    .refl fun acc h p _ ↦ h.trans (dispatchTo acc p)

theorem sendToAll (n : ShardNet) (peers : List PeerInfo) (pkt : UInt32 → Option Bytes) :
    Posts n (n.sendToAll peers pkt) := by
  refine foldl (fun n p ↦ ?_) peers n
  split
  · exact .refl
  · exact (nextCorr n).trans (sendMessage _ _ _ _)

theorem sendStoreRpc (n : ShardNet) (r : StoredRecord) : Posts n (n.sendStoreRpc r) :=
  sendToAll n _ _

theorem announceRpc (n : ShardNet) (key : Key) (metadata : Bytes) :
    Posts n (n.announceRpc key metadata) :=
  sendToAll n _ _

end Posts

namespace Sends

variable {n n' n'' : ShardNet}

theorem sendControl (n : ShardNet) (dest : SocketAddr) (pkt : Option Bytes) :
    Sends n (n.sendControl dest pkt) := by
  rcases pkt with _ | p
  · exact refl n
  · exact transmit n dest p _

theorem sendMessage (n : ShardNet) (dest : SocketAddr) (x25519 : Option Bytes32)
    (pkt : Option Bytes) : Sends n (n.sendMessage dest x25519 pkt) :=
  (Posts.sendMessage n dest x25519 pkt).sends

theorem sendPing (n : ShardNet) (dest : SocketAddr) : Sends n (n.sendPing dest) :=
  (Posts.sendPing n dest).sends

theorem sendPunchMsg (n : ShardNet) (hop : SocketAddr) (target : NodeId)
    (cands : List SocketAddr) : Sends n (n.sendPunchMsg hop target cands) :=
  (Posts.sendPunchMsg n hop target cands).sends

theorem sendToAll (n : ShardNet) (peers : List PeerInfo) (pkt : UInt32 → Option Bytes) :
    Sends n (n.sendToAll peers pkt) := (Posts.sendToAll n peers pkt).sends

theorem foldl {α : Type*} {f : ShardNet → α → ShardNet} (hf : ∀ n a, Sends n (f n a)) (l : List α)
    (n : ShardNet) : Sends n (l.foldl f n) := by
  induction l generalizing n with
  | nil => exact refl n
  | cons a l ih => exact (hf n a).trans (ih (f n a))

theorem flushLoop (dest : SocketAddr) (pk : Bytes32) (qs : List Queued) (n : ShardNet) :
    Sends n (ShardNet.flushLoop dest pk qs n).1 := by
  induction qs generalizing n with
  | nil => exact refl n
  | cons q qs ih =>
    rw [ShardNet.flushLoop]
    have henc := encapsulateTo n dest pk (wrapRpc q.app)
    rcases hres : n.encapsulateTo dest pk (wrapRpc q.app) with ⟨pkt, n'⟩
    rw [hres] at henc
    rcases pkt with _ | pkt
    · exact henc
    · have hsent := henc.trans (transmit n' dest pkt .tunnel)
      dsimp only
      split
      · exact hsent
      · exact hsent.trans (ih _)

theorem flushPendingWg (n : ShardNet) (dest : SocketAddr) : Sends n (n.flushPendingWg dest) := by
  rw [ShardNet.flushPendingWg]
  rcases n.pendingWg.lookup dest with _ | queue
  · exact refl n
  · have herase : Sends n { n with pendingWg := n.pendingWg.erase dest } := of_eq rfl rfl rfl
    dsimp only
    split
    · exact herase.trans (foldl (fun n q ↦ transmit n dest q.app _) queue _)
    · rename_i pk hpk
      have hloop := herase.trans (flushLoop dest pk queue _)
      split
      · rename_i n' hn'
        rw [hn'] at hloop
        exact hloop
      · rename_i n' leftover _ hn'
        rw [hn'] at hloop
        exact hloop.trans (of_eq rfl rfl rfl)

theorem onKeepalive (n : ShardNet) : ∃ n', Sends n n' ∧
    n.onKeepalive = { n' with timers := n'.timers.schedule (n'.now + keepalive) .keepalive } := by
  have hpings := foldl sendPing (n.contacts.map Prod.snd) n
  rw [ShardNet.onKeepalive]
  generalize (n.contacts.map Prod.snd).foldl ShardNet.sendPing n = n' at hpings ⊢
  dsimp only
  split
  · exact ⟨n', hpings, rfl⟩
  · generalize n'.wg.tickKeepalive n'.now poolBuffer = r
    obtain ⟨w, out, pkts⟩ := r
    have htunnels : Sends n' { n' with wg := w } := of_eq rfl rfl rfl
    have hkeep := htunnels.trans (foldl (f := fun (n : ShardNet) (p : ℕ × SocketAddr) ↦
      n.transmit p.2 (out.take p.1) .tunnel) (fun n p ↦ transmit n _ _ _) pkts _)
    exact ⟨_, hpings.trans hkeep, rfl⟩

end Sends

/-! ## Punching -/

/-- A preorder that holds of whatever is sent. -/
structure FollowsPosts (R : ShardNet → ShardNet → Prop) : Prop where
  refl : ∀ n, R n n
  trans : ∀ {n n' n''}, R n n' → R n' n'' → R n n''
  posts : ∀ {n n'}, Posts n n' → R n n'

theorem FollowsPosts.foldl {R : ShardNet → ShardNet → Prop} (hR : FollowsPosts R) {α : Type*}
    {f : ShardNet → α → ShardNet} (hf : ∀ n a, R n (f n a)) (l : List α) (n : ShardNet) :
    R n (l.foldl f n) := by
  induction l generalizing n with
  | nil => exact hR.refl n
  | cons a l ih => exact hR.trans (hf n a) (ih (f n a))

/-- It also holds when attempts to punch, or the timer for them, change. -/
structure FollowsPunches (R : ShardNet → ShardNet → Prop) : Prop extends FollowsPosts R where
  attempts : ∀ n punches, R n { n with punches }
  schedule : ∀ n due, R n (n.schedulePunch due)

namespace FollowsPunches

variable {R : ShardNet → ShardNet → Prop}

theorem burstPunch (hR : FollowsPunches R) (n : ShardNet) (id : NodeId) :
    R n (n.burstPunch id) := by
  rw [ShardNet.burstPunch]
  split
  · exact hR.refl n
  · rename_i p _
    exact hR.trans (hR.posts (Posts.foldl Posts.sendPing p.candidates n)) (hR.attempts _ _)

theorem startPunch (hR : FollowsPunches R) (rendezvous : SocketAddr) (n : ShardNet)
    (peer : PeerInfo) : R n (n.startPunch rendezvous peer) := by
  rw [ShardNet.startPunch]
  split_ifs
  · exact hR.refl n
  · exact hR.refl n
  · exact hR.refl n
  · exact hR.refl n
  · have hinsert := hR.attempts n
      (n.punches.insert peer.id (newAttempt n.now peer.id peer.addrs rendezvous))
    refine hR.trans hinsert ?_
    refine hR.trans (hR.posts (Posts.sendPunchMsg _ rendezvous peer.id n.ourCandidates)) ?_
    exact hR.trans (hR.burstPunch _ peer.id) (hR.schedule _ _)

end FollowsPunches

/-- The same, but for the punching attempts and the timers. -/
def Punches (n n' : ShardNet) : Prop :=
  n'.knowledge = { n.knowledge with punches := n'.punches, timers := n'.timers }

namespace Punches

variable {n n' n'' : ShardNet}

theorem of_sends (h : Sends n n') : Punches n n' := by
  have hpunches : n'.punches = n.punches := congrArg Knowledge.punches h.knowledge
  have htimers : n'.timers = n.timers := congrArg Knowledge.timers h.knowledge
  rw [Punches, h.knowledge, hpunches, htimers]
  rfl

theorem trans (h : Punches n n') (h' : Punches n' n'') : Punches n n'' := by
  rw [Punches] at h h' ⊢
  rw [h', h]

theorem table (h : Punches n n') : n'.table = n.table := congrArg Knowledge.table h

theorem peers (h : Punches n n') : n'.peers = n.peers := congrArg Knowledge.peers h

theorem env (h : Punches n n') : n'.env = n.env := congrArg Knowledge.env h

theorem follows : FollowsPunches Punches where
  refl n := of_sends (Sends.refl n)
  trans h h' := h.trans h'
  posts h := of_sends h.sends
  attempts _ _ := rfl
  schedule _ _ := rfl

theorem startPunch (rendezvous : SocketAddr) (n : ShardNet) (peer : PeerInfo) :
    Punches n (n.startPunch rendezvous peer) := follows.startPunch rendezvous n peer

theorem onKeepalive (n : ShardNet) : Punches n n.onKeepalive := by
  obtain ⟨n', hsends, heq⟩ := Sends.onKeepalive n
  rw [heq]
  exact (of_sends hsends).trans rfl

end Punches

end ShardNet

end Molia
