import Molia.Core.Wire
import Molia.General.Runs
import Molia.Shard.Machine
import Molia.Shard.Sending

/-!
# Forwarding in a network

A node that receives a PUNCH or a RELAY frame for another node sends it on to the address its table
has for that node. Nothing in the frame counts the hops, and the frame that leaves is the frame that
came. So the way of a frame is a walk in the graph of the tables: from each node to the address it
has for the target. `chain_iff_walk` says that the frame follows this walk as far as it goes; in a
network whose tables form a cycle, it never stops.
-/

namespace Molia

section

variable [Crates]

open Crates

attribute [local irreducible] message

/-! ## Frames for others -/

/-- The body of a frame that may be for another node. -/
inductive Errand where
  | punch (p : Proto.Punch)
  | relay (r : Proto.Relay)
deriving DecidableEq

namespace Errand

def target : Errand → Option NodeId
  | punch p => NodeId.fromBytes p.targetId
  | relay r => NodeId.fromBytes r.destId

def sender : Errand → Option NodeId
  | punch p => NodeId.fromBytes p.fromId
  | relay r => NodeId.fromBytes r.fromId

/-- The datagram that carries it on. -/
def datagram (corr : UInt32) : Errand → Option Bytes
  | punch p => message Crates.punch (Header.request .punch .control corr) p
  | relay r => message Crates.relay (Header.request .relay .coordination corr) r

/-- It fits in a datagram. -/
def Fits : Errand → Prop
  | punch p => headerLen + (Crates.punch.encode p).length ≤ pmtuFloor
  | relay r => headerLen + (Crates.relay.encode r).length ≤ pmtuFloor

instance : ∀ e : Errand, Decidable e.Fits
  | punch _ => inferInstanceAs (Decidable (_ ≤ _))
  | relay _ => inferInstanceAs (Decidable (_ ≤ _))

/-- Only relay frames draw on the budget. -/
def admission (s : RelayState) : Errand → Bool × RelayState
  | punch _ => (true, s)
  | relay r => s.forward r.payload.length false

/-- The budget lets it pass so many times. -/
def Affords (e : Errand) : ℕ → RelayState → Prop
  | 0, _ => True
  | k + 1, s => (e.admission s).1 = true ∧ e.Affords k (e.admission s).2

omit [Crates] in
theorem Affords.of_succ {e : Errand} {k : ℕ} {s : RelayState} (h : e.Affords (k + 1) s) :
    e.Affords k s := by
  induction k generalizing s with
  | zero => trivial
  | succ k ih => exact ⟨h.1, ih h.2⟩

omit [Crates] in
theorem affords_punch (p : Proto.Punch) (k : ℕ) (s : RelayState) : (punch p).Affords k s := by
  induction k with
  | zero => trivial
  | succ k ih => exact ⟨rfl, ih⟩

end Errand

def errandOf (pkt : Bytes) : Option Errand :=
  match Header.decode pkt with
  | none => none
  | some h =>
    match h.ty with
    | .punch => (decodeBody Crates.punch pkt).map .punch
    | .relay => (decodeBody Crates.relay pkt).map .relay
    | _ => none

/-- The node a frame is sent on to, if it is well formed and not too long. -/
def wanted (pkt : Bytes) : Option NodeId :=
  (errandOf pkt).bind fun e ↦ if e.sender.isSome ∧ e.Fits then e.target else none

/-- What the code relies on from the two codecs. -/
structure ErrandCodecs : Prop where
  punch : Crates.punch.RoundTrips
  relay : Crates.relay.RoundTrips

namespace Errand

variable {e : Errand}

theorem datagram_of_fits (h : e.Fits) (hcodecs : ErrandCodecs) (corr : UInt32) :
    ∃ pkt, e.datagram corr = some pkt ∧ errandOf pkt = some e := by
  rcases e with p | r
  · obtain ⟨pkt, hmsg⟩ : ∃ pkt, message Crates.punch (Header.request .punch .control corr) p
        = some pkt := ⟨_, message_eq_some_iff.mpr ⟨h, rfl⟩⟩
    refine ⟨pkt, hmsg, ?_⟩
    simp only [errandOf, decode_of_message rfl hmsg]
    exact congrArg (Option.map punch) (decodeBody_of_message hcodecs.punch hmsg)
  · obtain ⟨pkt, hmsg⟩ : ∃ pkt, message Crates.relay (Header.request .relay .coordination corr) r
        = some pkt := ⟨_, message_eq_some_iff.mpr ⟨h, rfl⟩⟩
    refine ⟨pkt, hmsg, ?_⟩
    simp only [errandOf, decode_of_message rfl hmsg]
    exact congrArg (Option.map relay) (decodeBody_of_message hcodecs.relay hmsg)

theorem datagram_of_not_fits (h : ¬e.Fits) (corr : UInt32) : e.datagram corr = none := by
  rcases e with p | r
  · exact (message_eq _ _ p).trans (if_neg h)
  · exact (message_eq _ _ r).trans (if_neg h)

end Errand

theorem decode_of_errandOf {pkt : Bytes} {e : Errand} (he : errandOf pkt = some e) :
    ∃ h, Header.decode pkt = some h ∧
      ((∃ p, h.ty = .punch ∧ decodeBody Crates.punch pkt = some p ∧ e = .punch p) ∨
        ∃ r, h.ty = .relay ∧ decodeBody Crates.relay pkt = some r ∧ e = .relay r) := by
  rw [errandOf] at he
  split at he
  · cases he
  · rename_i h hdec
    refine ⟨h, hdec, ?_⟩
    split at he
    · rename_i hty
      obtain ⟨p, hp, rfl⟩ := Option.map_eq_some_iff.mp he
      exact Or.inl ⟨p, hty, hp, rfl⟩
    · rename_i hty
      obtain ⟨r, hr, rfl⟩ := Option.map_eq_some_iff.mp he
      exact Or.inr ⟨r, hty, hr, rfl⟩
    · cases he

/-! ## One node -/

/-- The address a table has for a peer. -/
def RoutingTable.addrOf (t : RoutingTable) (x : NodeId) : Option SocketAddr :=
  (t.get x).bind fun e ↦ e.info.primaryAddr

namespace ShardCtx

variable (c : ShardCtx) (src : SocketAddr) (authenticated : Bool) {pkt : Bytes} {e : Errand}
  {t : NodeId}

/-- A node that is not the target sends the frame on, if the budget allows it and the table has an
address. -/
theorem net_handleApp_of_errand (he : errandOf pkt = some e) (ht : e.target = some t)
    (hs : e.sender.isSome) (hne : t ≠ c.identity.nodeId) (hok : (e.admission c.relay).1 = true)
    {n : ShardNet} (hn : n = { c.toShardNet with relay := (e.admission c.relay).2 }) :
    (c.handleApp src pkt authenticated).1.toShardNet =
      ((c.table.addrOf t).map fun dest ↦
        n.nextCorr.2.sendControl dest (e.datagram n.nextCorr.1)).getD n := by
  obtain ⟨s, hs⟩ := Option.isSome_iff_exists.mp hs
  obtain ⟨h, hdec, ⟨p, hty, hbody, rfl⟩ | ⟨r, hty, hbody, rfl⟩⟩ := decode_of_errandOf he
  · have ht' : NodeId.fromBytes p.targetId = some t := ht
    have hs' : NodeId.fromBytes p.fromId = some s := hs
    simp only [handleApp, hdec, hty]
    show c.toShardNet.onPunch src pkt = _
    rw [hn]
    rcases haddr : c.table.addrOf t with _ | dest
    · rw [RoutingTable.addrOf] at haddr
      simp only [ShardNet.onPunch, hbody, ht', hs', if_neg hne, haddr]
      rfl
    · rw [RoutingTable.addrOf] at haddr
      simp only [ShardNet.onPunch, hbody, ht', hs', if_neg hne, haddr]
      rfl
  · have ht' : NodeId.fromBytes r.destId = some t := ht
    have hs' : NodeId.fromBytes r.fromId = some s := hs
    have hok' : ¬(c.relay.forward r.payload.length false).1 = false := by
      rw [show (c.relay.forward r.payload.length false).1 = true from hok]
      exact Bool.true_eq_false.mp
    simp only [handleApp, hdec, hty]
    show (c.toShardNet.onRelay src pkt).1 = _
    rw [hn]
    rcases haddr : c.table.addrOf t with _ | dest
    · rw [RoutingTable.addrOf] at haddr
      simp only [ShardNet.onRelay, hbody, ht', hs', if_neg hne, if_neg hok', haddr]
      rfl
    · rw [RoutingTable.addrOf] at haddr
      simp only [ShardNet.onRelay, hbody, ht', hs', if_neg hne, if_neg hok', haddr]
      rfl

theorem handleApp_of_malformed (he : errandOf pkt = some e)
    (hmal : e.target = none ∨ e.sender = none) :
    (c.handleApp src pkt authenticated).1 = c := by
  obtain ⟨h, hdec, ⟨p, hty, hbody, rfl⟩ | ⟨r, hty, hbody, rfl⟩⟩ := decode_of_errandOf he
  · simp only [handleApp, hdec, hty]
    have hsame : c.toShardNet.onPunch src pkt = c.toShardNet := by
      simp only [ShardNet.onPunch, hbody]
      split
      · rename_i t s ht hs
        rcases hmal with hmal | hmal
        · cases ht.symm.trans hmal
        · cases hs.symm.trans hmal
      · rfl
    rw [hsame]
    rfl
  · simp only [handleApp, hdec, hty]
    have hsame : c.toShardNet.onRelay src pkt = (c.toShardNet, none) := by
      simp only [ShardNet.onRelay, hbody]
      split
      · rename_i t s ht hs
        rcases hmal with hmal | hmal
        · cases ht.symm.trans hmal
        · cases hs.symm.trans hmal
      · rfl
    rw [hsame]
    rfl

end ShardCtx

/-! ## The network -/

structure Frame where
  src : SocketAddr
  dest : SocketAddr
  pkt : Bytes

/-- Finitely many nodes, each at its address. -/
structure Network where
  nodes : HashMap SocketAddr ShardCtx

namespace Network

variable {N N' : Network} {f f' : Frame} {e : Errand} {t : NodeId} {k : ℕ}

/-- The network after a frame has been delivered, and the datagrams its receiver sends. -/
def deliver (N : Network) (f : Frame) : Network × List Frame :=
  match N.nodes.lookup f.dest with
  | none => (N, [])
  | some c =>
    let c' := (c.handleApp f.src f.pkt false).1
    (⟨N.nodes.insert f.dest c'⟩,
      (c'.sent.drop c.sent.length).map fun s ↦ ⟨f.dest, s.dest, s.bytes⟩)

/-- The receiver of a PUNCH or RELAY frame is not the node the frame is for, and sends one on. -/
def Forwards (N : Network) (f : Frame) (N' : Network) (f' : Frame) : Prop :=
  (∃ c e t, N.nodes.lookup f.dest = some c ∧ errandOf f.pkt = some e ∧ e.target = some t ∧
    t ≠ c.identity.nodeId) ∧ N.deliver f = (N', [f'])

/-- A frame is forwarded so many times in a row. -/
def Chain : ℕ → Network → Frame → Prop
  | 0, _, _ => True
  | k + 1, N, f => ∃ N' f', N.Forwards f N' f' ∧ Chain k N' f'

/-- A frame is forwarded once at most. -/
def OneHop (N : Network) (f : Frame) : Prop := ¬Chain 2 N f

/-- Where the node at an address sends what is for `t`, if it is another node. -/
def next (N : Network) (t : NodeId) (a : SocketAddr) : Option SocketAddr :=
  (N.nodes.lookup a).bind fun c ↦ if c.identity.nodeId = t then none else c.table.addrOf t

/-- Every node has a budget for so many frames of this kind. -/
def Affords (N : Network) (e : Errand) (k : ℕ) : Prop :=
  ∀ a c, N.nodes.lookup a = some c → e.Affords k c.relay

theorem next_eq_some_iff {a b : SocketAddr} : N.next t a = some b ↔
    ∃ c, N.nodes.lookup a = some c ∧ t ≠ c.identity.nodeId ∧ c.table.addrOf t = some b := by
  rw [next, Option.bind_eq_some_iff]
  constructor
  · rintro ⟨c, hc, hb⟩
    split_ifs at hb with hid
    exact ⟨c, hc, fun h ↦ hid h.symm, hb⟩
  · rintro ⟨c, hc, hne, hb⟩
    refine ⟨c, hc, ?_⟩
    rw [if_neg fun h ↦ hne h.symm]
    exact hb

/-- A node may change as long as its id and its table do not. -/
theorem next_insert {a : SocketAddr} {c c' : ShardCtx} (hc : N.nodes.lookup a = some c)
    (hid : c'.identity = c.identity) (htable : c'.table = c.table) (t : NodeId) (b : SocketAddr) :
    next ⟨N.nodes.insert a c'⟩ t b = N.next t b := by
  rw [next, next, HashMap.lookup_insert_of]
  split_ifs with hb
  · rw [hb, hc, Option.bind_some, Option.bind_some, hid, htable]
  · rfl

theorem deliver_of_lookup {c : ShardCtx} (hc : N.nodes.lookup f.dest = some c) :
    N.deliver f = (⟨N.nodes.insert f.dest (c.handleApp f.src f.pkt false).1⟩,
      ((c.handleApp f.src f.pkt false).1.sent.drop c.sent.length).map
        fun s ↦ ⟨f.dest, s.dest, s.bytes⟩) := by
  rw [deliver, hc]

theorem not_forwards {c : ShardCtx} (hc : N.nodes.lookup f.dest = some c)
    (hsent : (c.handleApp f.src f.pkt false).1.sent = c.sent) : ¬N.Forwards f N' f' := by
  rintro ⟨-, hdeliver⟩
  rw [deliver_of_lookup hc, hsent, List.drop_length] at hdeliver
  cases congrArg Prod.snd hdeliver

theorem wanted_of_forwards (hok : ∀ c e, N.nodes.lookup f.dest = some c →
    errandOf f.pkt = some e → (e.admission c.relay).1 = true) (h : N.Forwards f N' f') :
    ∃ t b, wanted f.pkt = some t ∧ N.next t f.dest = some b := by
  obtain ⟨⟨c, e, t, hc, he, ht, hne⟩, -⟩ := id h
  by_cases hs : e.sender.isSome = true
  · have hnet := c.net_handleApp_of_errand f.src false he ht hs hne (hok c e hc he) rfl
    rcases haddr : c.table.addrOf t with _ | b
    · rw [haddr] at hnet
      have hsent := congrArg ShardNet.sent hnet
      exact absurd h (not_forwards hc hsent)
    · by_cases hfit : e.Fits
      · refine ⟨t, b, ?_, next_eq_some_iff.mpr ⟨c, hc, hne, haddr⟩⟩
        rw [wanted, he, Option.bind_some, if_pos ⟨hs, hfit⟩]
        exact ht
      · rw [haddr, e.datagram_of_not_fits hfit] at hnet
        have hsent := congrArg ShardNet.sent hnet
        exact absurd h (not_forwards hc hsent)
  · rw [Option.not_isSome_iff_eq_none] at hs
    refine absurd h (not_forwards hc ?_)
    rw [c.handleApp_of_malformed f.src false he (Or.inr hs)]

/-- **One forwarding.** The frame goes to the next node, with the errand it had, and the network
looks the same to it. -/
theorem forwards_of_next (hcodecs : ErrandCodecs) (he : errandOf f.pkt = some e)
    (ht : e.target = some t) (hs : e.sender.isSome) (hfit : e.Fits)
    (hok : ∀ c, N.nodes.lookup f.dest = some c → (e.admission c.relay).1 = true) {b : SocketAddr}
    (hb : N.next t f.dest = some b) :
    ∃ N' pkt, N.Forwards f N' ⟨f.dest, b, pkt⟩ ∧ errandOf pkt = some e ∧ N'.next t = N.next t ∧
      ∀ k, N.Affords e (k + 1) → N'.Affords e k := by
  obtain ⟨c, hc, hne, haddr⟩ := next_eq_some_iff.mp hb
  have hnet := c.net_handleApp_of_errand f.src false he ht hs hne (hok c hc) rfl
  obtain ⟨pkt, hpkt, hsame⟩ := Errand.datagram_of_fits hfit hcodecs c.toShardNet.nextCorr.1
  have hcorr : ∀ relay, ({ c.toShardNet with relay } : ShardNet).nextCorr.1
      = c.toShardNet.nextCorr.1 := fun _ ↦ rfl
  rw [haddr, Option.map_some, Option.getD_some, hcorr, hpkt] at hnet
  generalize hc' : (c.handleApp f.src f.pkt false).1 = c' at hnet
  have hidentity : c'.identity = c.identity := (congrArg ShardNet.identity hnet).trans rfl
  have htable : c'.table = c.table := (congrArg ShardNet.table hnet).trans rfl
  have hrelay : c'.relay = (e.admission c.relay).2 := congrArg ShardNet.relay hnet
  have hsent : c'.sent = c.sent ++ [⟨b, pkt, .clear none⟩] := congrArg ShardNet.sent hnet
  refine ⟨⟨N.nodes.insert f.dest c'⟩, pkt, ⟨⟨c, e, t, hc, he, ht, hne⟩, ?_⟩, hsame, ?_, ?_⟩
  · rw [deliver_of_lookup hc, hc', hsent, List.drop_left]
    rfl
  · funext a
    exact next_insert hc hidentity htable t a
  · intro k hN a c'' hc''
    change (N.nodes.insert f.dest c').lookup a = some c'' at hc''
    rw [HashMap.lookup_insert_of] at hc''
    split_ifs at hc''
    · rw [← Option.some.inj hc'', hrelay]
      exact (hN f.dest c hc).2
    · exact (hN a c'' hc'').of_succ

theorem Affords.admits (h : N.Affords e (k + 1)) {a : SocketAddr} {c : ShardCtx}
    (hc : N.nodes.lookup a = some c) : (e.admission c.relay).1 = true := (h a c hc).1

/-- **The way of a frame.** It is forwarded along the walk of the tables, as long as the budget
lasts. -/
theorem chain_iff_walk (hcodecs : ErrandCodecs) (he : errandOf f.pkt = some e)
    (ht : wanted f.pkt = some t) (hbudget : N.Affords e k) :
    Chain k N f ↔ Runs.Walk (N.next t) k f.dest := by
  rw [wanted, he, Option.bind_some] at ht
  split_ifs at ht with hgood
  obtain ⟨hs, hfit⟩ := hgood
  -- a forwarding changes the network and the frame, but neither the tables nor the errand
  induction k generalizing N f with
  | zero => exact Iff.rfl
  | succ k ih =>
    have hok : ∀ c, N.nodes.lookup f.dest = some c → (e.admission c.relay).1 = true :=
      fun c hc ↦ hbudget.admits hc
    constructor
    · rintro ⟨N', f', hforwards, hchain⟩
      obtain ⟨t', b, ht', hb⟩ := wanted_of_forwards (fun c e' hc he' ↦ by
        rw [he] at he'
        cases he'
        exact hok c hc) hforwards
      rw [wanted, he, Option.bind_some, if_pos ⟨hs, hfit⟩, ht] at ht'
      cases ht'
      obtain ⟨N'', pkt, hforwards', hsame, hnext, hafford⟩ :=
        forwards_of_next hcodecs he ht hs hfit hok hb
      -- a delivery has one outcome, so the forwarding given is the one along the tables
      have hboth := hforwards.2.symm.trans hforwards'.2
      simp only [Prod.mk.injEq, List.cons.injEq, and_true] at hboth
      obtain ⟨rfl, rfl⟩ := hboth
      have hwalk := (ih hsame (hafford k hbudget)).mp hchain
      rw [hnext] at hwalk
      exact ⟨b, hb, hwalk⟩
    · rintro ⟨b, hb, hwalk⟩
      obtain ⟨N', pkt, hforwards, hsame, hnext, hafford⟩ :=
        forwards_of_next hcodecs he ht hs hfit hok hb
      rw [← hnext] at hwalk
      exact ⟨N', ⟨f.dest, b, pkt⟩, hforwards, (ih (f := ⟨f.dest, b, pkt⟩) hsame
        (hafford k hbudget)).mpr hwalk⟩

end Network

/-- **When a frame is forwarded once.** A PUNCH frame, or a RELAY frame if the budgets suffice, is
forwarded at most once if and only if the address its receiver has for the target does not belong to
a further node that has an address for the target. -/
theorem one_hop_iff (hcodecs : ErrandCodecs) (N : Network) (f : Frame)
    (hbudget : ∀ r, errandOf f.pkt = some (.relay r) → N.Affords (.relay r) 2) :
    N.OneHop f ↔ ∀ t, wanted f.pkt = some t → ∀ b, N.next t f.dest = some b →
      N.next t b = none := by
  have hafford : ∀ e, errandOf f.pkt = some e → N.Affords e 2 := by
    rintro (p | r) he
    · exact fun a c _ ↦ Errand.affords_punch p 2 c.relay
    · exact hbudget r he
  rcases hwanted : wanted f.pkt with _ | t
  · refine iff_of_true ?_ fun t ht ↦ by cases ht
    rintro ⟨N', f', hforwards, -⟩
    obtain ⟨t, -, ht, -⟩ := Network.wanted_of_forwards
      (fun c e hc he ↦ (hafford e he).admits hc) hforwards
    rw [hwanted] at ht
    cases ht
  · obtain ⟨e, he, -⟩ := Option.bind_eq_some_iff.mp hwanted
    rw [Network.OneHop, Network.chain_iff_walk hcodecs he hwanted (hafford e he),
      Runs.not_walk_two_iff]
    constructor
    · rintro h t' ⟨⟩
      exact h
    · intro h
      exact h t rfl

end

/-! ## A table that points at itself -/

section

open Sample

attribute [local instance] wireCrates

private theorem sampleErrands : ErrandCodecs :=
  ⟨Proto.roundTrips_punchWire, Proto.roundTrips_relayWire⟩

private def rendezvous : SocketAddr := .ofV4 10 0 0 1 9000

private def soughtAddr : SocketAddr := .ofV4 10 0 2 1 9000

private def sought : NodeId := (identity .second).nodeId

/-- The rendezvous, which has an address for the node that is sought. -/
private def knowing (addr : SocketAddr) : ShardRun where
  start := shardStart ⟨true, false, false⟩
  events := [⟨noon, .command (.injectPeer (.new sought addr))⟩]

private def soughtStart : ShardStart :=
  { shardStart ⟨true, false, false⟩ with identity := identity .second, localAddr := soughtAddr }

private def punchBody : Proto.Punch :=
  ⟨sought.val.val, List.replicate 32 7, [⟨multiaddr (.ofV4 10 0 3 1 9000)⟩]⟩

/-- A request to punch towards the node that is sought. -/
private def punchFrame : Frame where
  src := .ofV4 10 0 3 1 9000
  dest := rendezvous
  pkt := (Header.request .punch .control 1).bytes ++ Proto.punchWire.encode punchBody

private def honest : Network :=
  ⟨((∅ : HashMap SocketAddr ShardCtx).insert soughtAddr soughtStart.machine.ctx).insert
    rendezvous (knowing soughtAddr).final.ctx⟩

private def looping : Network :=
  ⟨(∅ : HashMap SocketAddr ShardCtx).insert rendezvous (knowing rendezvous).final.ctx⟩

private theorem errandOf_punchFrame : errandOf punchFrame.pkt = some (.punch punchBody) := by
  decide +kernel

private theorem wanted_punchFrame : wanted punchFrame.pkt = some sought := by
  decide +kernel

/-- With the right address, the rendezvous forwards the request once. -/
theorem one_hop_honest : honest.OneHop punchFrame := by
  refine (one_hop_iff sampleErrands honest punchFrame ?_).mpr ?_
  · intro r hr
    rw [errandOf_punchFrame] at hr
    cases hr
  · intro t ht b hb
    rw [wanted_punchFrame] at ht
    obtain rfl : sought = t := Option.some.inj ht
    have hnext : honest.next sought punchFrame.dest = some soughtAddr := by decide +kernel
    obtain rfl : soughtAddr = b := Option.some.inj (hnext.symm.trans hb)
    decide +kernel

/-- A rendezvous that has its own address for the node forwards the request to itself for ever. -/
theorem one_hop_fails :
    ¬∀ (_ : Crates) (N : Network) (f : Frame) (c : ShardCtx) (p : Proto.Punch) (t : NodeId),
      N.nodes.lookup f.dest = some c → errandOf f.pkt = some (.punch p) →
      NodeId.fromBytes p.targetId = some t → t ≠ c.identity.nodeId →
      ∃ k, ¬N.Chain k f := by
  intro hall
  have hloop : looping.next sought rendezvous = some rendezvous := by decide +kernel
  obtain ⟨k, hk⟩ := hall wireCrates looping punchFrame (knowing rendezvous).final.ctx punchBody
    sought (AList.lookup_insert _) errandOf_punchFrame (by decide +kernel) (by decide +kernel)
  refine hk ((Network.chain_iff_walk sampleErrands errandOf_punchFrame wanted_punchFrame
    fun a c _ ↦ Errand.affords_punch punchBody k c.relay).mpr ?_)
  exact Runs.walk_of_loop hloop k

end

end Molia
