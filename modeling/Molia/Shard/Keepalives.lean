import Molia.General.Scratch
import Molia.Net.Sessions
import Molia.Shard.Machine
import Molia.Shard.Sending

/-!
# Keepalives

When the keepalive timer fires, the timer of every tunnel may make a packet for the endpoint of its
session. All of them are made before any is sent, in one buffer, and only their lengths are kept:
the buffer is used as in `Molia.General.Scratch`. So every peer gets the keepalive of its own tunnel
exactly if any two of the packets agree as far as both reach, and a single packet always arrives.
-/

namespace Molia

section

variable [Crates]

open Crates

attribute [local irreducible] message

namespace WgEngine

/-- The keepalive of a session: the packet that its timer makes, and its endpoint. -/
def firedAt (w : WgEngine) (now : ℕ) (i : UInt32) : Option (Bytes × SocketAddr) :=
  (w.sessions.lookup i).bind fun sess ↦ sess.endpoint.bind fun dest ↦
    (tunnUpdateTimers sess.tunn now).1.packet.map fun pkt ↦ (pkt, dest)

/-- The keepalives of all sessions. -/
def fired (w : WgEngine) (now : ℕ) : List (Bytes × SocketAddr) :=
  w.sessions.keys.filterMap (w.firedAt now)

theorem firedAt_eq_some_iff {w : WgEngine} {now : ℕ} {i : UInt32} {pkt : Bytes}
    {dest : SocketAddr} :
    w.firedAt now i = some (pkt, dest) ↔ ∃ sess, w.sessions.lookup i = some sess ∧
      sess.endpoint = some dest ∧ (tunnUpdateTimers sess.tunn now).1.packet = some pkt := by
  simp only [firedAt, Option.bind_eq_some_iff, Option.map_eq_some_iff, Prod.mk.injEq]
  constructor
  · rintro ⟨sess, hsess, dest', hdest, pkt', hpkt, rfl, rfl⟩
    exact ⟨sess, hsess, hdest, hpkt⟩
  · rintro ⟨sess, hsess, hdest, hpkt⟩
    exact ⟨sess, hsess, dest, hdest, pkt, hpkt, rfl, rfl⟩

theorem firedAt_congr {w w' : WgEngine} {i : UInt32}
    (h : w'.sessions.lookup i = w.sessions.lookup i) (now : ℕ) :
    w'.firedAt now i = w.firedAt now i := by rw [firedAt, firedAt, h]

/-- One session: its packet goes over what is in the buffer, and its length is noted. -/
theorem tickSessions_cons (now : ℕ) (idx : UInt32) (rest : List UInt32) (w : WgEngine)
    (out : Bytes) (pkts : List (ℕ × SocketAddr)) :
    ∃ w' : WgEngine, (∀ i, i ≠ idx → w'.sessions.lookup i = w.sessions.lookup i) ∧
      tickSessions now (idx :: rest) (w, out, pkts)
        = tickSessions now rest
          (w', ((w.firedAt now idx).map Prod.fst).toList.foldl Scratch.write out,
          pkts ++ ((w.firedAt now idx).map fun p ↦ (p.1.length, p.2)).toList) := by
  rw [tickSessions, firedAt]
  rcases w.sessions.lookup idx with _ | sess
  · exact ⟨w, fun _ _ ↦ rfl, by simp⟩
  rcases hdest : sess.endpoint with _ | dest
  · exact ⟨w, fun _ _ ↦ rfl, by simp [hdest]⟩
  rcases htick : tunnUpdateTimers sess.tunn now with ⟨r, t⟩
  refine ⟨w.setSession idx fun s ↦ { s with tunn := t }, fun i hi ↦ ?_, ?_⟩
  · simp [lookup_setSession, hi]
  · cases r with
    | writeToNetwork pkt =>
      have hwrite : overwrite pkt out = Scratch.write out pkt := rfl
      simp [hdest, htick, TunnResult.packet, hwrite]
    | _ => simp [hdest, htick, TunnResult.packet]

theorem tickSessions_eq (now : ℕ) {keys : List UInt32} (hkeys : keys.Nodup) (w : WgEngine)
    (out : Bytes) (pkts : List (ℕ × SocketAddr)) :
    (tickSessions now keys (w, out, pkts)).2
      = (Scratch.writeAll ((keys.filterMap (w.firedAt now)).map Prod.fst) out,
        pkts ++ (keys.filterMap (w.firedAt now)).map fun p ↦ (p.1.length, p.2)) := by
  induction keys generalizing w out pkts with
  | nil => simp [tickSessions, Scratch.writeAll]
  | cons idx rest ih =>
    obtain ⟨hidx, hrest⟩ := List.nodup_cons.mp hkeys
    obtain ⟨w', hothers, heq⟩ := tickSessions_cons now idx rest w out pkts
    -- the keys are distinct, so the sessions that are still to come are as they were
    have hsame : rest.filterMap (w'.firedAt now) = rest.filterMap (w.firedAt now) :=
      List.filterMap_congr fun i hi ↦
        firedAt_congr (hothers i fun h ↦ hidx (h ▸ hi)) now
    rw [heq, ih hrest, hsame]
    rcases hfired : w.firedAt now idx with _ | p
    · simp [hfired]
    · simp [hfired, Scratch.writeAll]

/-- The keepalives as they are meant to go out. -/
def keepalives (w : WgEngine) (now : ℕ) : List Sent :=
  (w.fired now).map fun p ↦ ⟨p.2, p.1, .tunnel⟩

end WgEngine

namespace ShardNet

theorem wg_sendControl (n : ShardNet) (dest : SocketAddr) (pkt : Option Bytes) :
    (n.sendControl dest pkt).wg = n.wg := by
  cases pkt with
  | none => rfl
  | some pkt => rfl

theorem wg_sendPing (n : ShardNet) (dest : SocketAddr) : (n.sendPing dest).wg = n.wg :=
  wg_sendControl n.nextCorr.2 dest _

theorem wg_foldl_sendPing (dests : List SocketAddr) (n : ShardNet) :
    (dests.foldl sendPing n).wg = n.wg := by
  induction dests generalizing n with
  | nil => rfl
  | cons dest dests ih => exact (ih _).trans (wg_sendPing n dest)

theorem sent_foldl_transmit (out : Bytes) (pkts : List (ℕ × SocketAddr)) (n : ShardNet) :
    (pkts.foldl (fun n p ↦ n.transmit p.2 (out.take p.1) .tunnel) n).sent
      = n.sent ++ pkts.map fun p ↦ ⟨p.2, out.take p.1, .tunnel⟩ := by
  induction pkts generalizing n with
  | nil => simp
  | cons p pkts ih =>
    rw [List.foldl_cons, ih]
    simp [transmit]

/-- What is sent on the keepalive timer: the pings, and what is left of the keepalives in the
buffer. -/
theorem sent_onKeepalive (n : ShardNet) (hwg : n.cfg.plaintext = false) :
    n.onKeepalive.sent = ((n.contacts.map Prod.snd).foldl sendPing n).sent
      ++ (n.wg.fired n.now).map fun p ↦
        ⟨p.2, (Scratch.writeAll ((n.wg.fired n.now).map Prod.fst) poolBuffer).take p.1.length,
          .tunnel⟩ := by
  -- the pings that go first leave the mode, the clock and the engine alone
  have hpings := Sends.foldl Sends.sendPing (n.contacts.map Prod.snd) n
  have hengine := wg_foldl_sendPing (n.contacts.map Prod.snd) n
  rw [onKeepalive]
  generalize (n.contacts.map Prod.snd).foldl sendPing n = n' at hpings hengine ⊢
  have hnow : n'.now = n.now := congrArg Env.instant hpings.env
  have htick := WgEngine.tickSessions_eq n.now n.wg.sessions.keys_nodup n.wg poolBuffer []
  dsimp only
  rw [hpings.cfg, hwg, hengine, hnow, if_neg Bool.false_ne_true, WgEngine.tickKeepalive]
  generalize WgEngine.tickSessions n.now _ _ = r at htick ⊢
  obtain ⟨w, out, pkts⟩ := r
  obtain ⟨rfl, rfl⟩ := Prod.mk.inj htick
  rw [sent_foldl_transmit]
  simp [WgEngine.fired]

/-- **Every keepalive goes to its own peer** exactly if any two of them agree as far as both
reach. -/
theorem keepalives_sent_iff (n : ShardNet) (hwg : n.cfg.plaintext = false) :
    n.onKeepalive.sent
        = ((n.contacts.map Prod.snd).foldl sendPing n).sent ++ n.wg.keepalives n.now ↔
      ((n.wg.fired n.now).map Prod.fst).Pairwise Scratch.Agree := by
  rw [sent_onKeepalive n hwg, List.append_cancel_left_eq, WgEngine.keepalives, List.map_eq_map_iff,
    ← Scratch.readBack_eq_iff _ poolBuffer, Scratch.readBack_eq_iff_forall, List.forall_mem_map]
  refine forall₂_congr fun p _ ↦ ?_
  rw [Sent.mk.injEq, List.prefix_iff_eq_take]
  simp [eq_comm]

end ShardNet

end

section

variable [Crates]

private def timerStart (identity : Identity) : ShardStart where
  id := 0
  identity := identity
  cfg := ⟨false, false, false⟩
  localAddr := .ofV4 10 0 0 1 9000
  env := ⟨1000, 1000000, 0, none⟩
  peers := Peerstore.memory
  store := .new

/-- A shard with a session for each of these addresses. -/
private def timerNet (identity : Identity) (addrs : List SocketAddr) : ShardNet :=
  addrs.foldl (fun n a ↦ { n with wg := n.wg.addPeer (Bytes32.fill a.port.toUInt8) none (some a) })
    (timerStart identity).machine.ctx.toShardNet

end

section

/-- Tunnels whose timer makes a data packet with as many zeros as the index of the session, except
for the tunnel of the second session, which is silent. -/
@[reducible] private def paddingCrates : Crates :=
  { Sample.crates with
    Tunn := UInt32
    tunnNew := fun _ _ index ↦ index
    tunnEncapsulate := fun t _ _ ↦ (.done, t)
    tunnDecapsulate := fun t _ _ _ ↦ (.done, t)
    tunnUpdateTimers := fun t _ ↦
      (if t = 2 then .done else .writeToNetwork (u32ToLe wgTypeData ++ List.replicate t.toNat 0),
        t) }

attribute [local instance] paddingCrates

private def paddingNet : ShardNet :=
  timerNet ⟨(), Bytes32.fill 1⟩ [.ofV4 10 0 0 2 2, .ofV4 10 0 0 3 3, .ofV4 10 0 0 4 4]

/-- Of three sessions two make a keepalive. The shorter one is the beginning of the longer one, and
both arrive. -/
theorem ShardNet.keepalives_sent_padded :
    paddingNet.onKeepalive.sent
      = [⟨.ofV4 10 0 0 4 4, [4, 0, 0, 0, 0, 0, 0], .tunnel⟩,
        ⟨.ofV4 10 0 0 2 2, [4, 0, 0, 0, 0], .tunnel⟩] := by
  have hagree : ((paddingNet.wg.fired paddingNet.now).map Prod.fst).Pairwise Scratch.Agree := by
    have hfired : (paddingNet.wg.fired paddingNet.now).map Prod.fst
        = [[4, 0, 0, 0, 0, 0, 0], [4, 0, 0, 0, 0]] := by
      decide +kernel
    rw [hfired, List.pairwise_pair]
    exact Or.inr (by decide)
  rw [(keepalives_sent_iff paddingNet rfl).mpr hagree]
  decide +kernel

end

section

/-- Tunnels whose timer always makes a data packet, with the index of the session in it. -/
@[reducible] private def timerCrates : Crates :=
  { Sample.crates with
    Tunn := UInt32
    tunnNew := fun _ _ index ↦ index
    tunnEncapsulate := fun t _ _ ↦ (.done, t)
    tunnDecapsulate := fun t _ _ _ ↦ (.done, t)
    tunnUpdateTimers := fun t _ ↦ (.writeToNetwork (u32ToLe wgTypeData ++ u32ToLe t), t) }

attribute [local instance] timerCrates

namespace ShardNet

/-- Of two keepalives, the second is sent to both peers. -/
theorem keepalives_sent_fails :
    ¬∀ (_ : Crates) (n : ShardNet), n.cfg.plaintext = false →
      n.onKeepalive.sent
        = ((n.contacts.map Prod.snd).foldl sendPing n).sent ++ n.wg.keepalives n.now := by
  intro h
  have hsent := h timerCrates
    (timerNet ⟨(), Bytes32.fill 1⟩ [.ofV4 10 0 0 2 2, .ofV4 10 0 0 3 3]) rfl
  revert hsent
  decide +kernel

end ShardNet

end

end Molia
