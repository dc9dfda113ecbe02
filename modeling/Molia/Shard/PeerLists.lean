import Molia.Core.Wire
import Molia.Shard.Send

/-!
# Lists of peers on the wire

A list of peers travels as ids, texts of addresses and keys. The reader drops an entry whose id has
the wrong length, texts that are no addresses, addresses it has seen already, and what exceeds the
capacity of an entry; a list whose addresses can be read back loses none of them. The round trip
time is not taken over: the reader has not measured it.
-/

namespace Molia

/-! ## Addresses of an entry -/

namespace PeerInfo

theorem foldl_pushAddr_of_nodup (info : PeerInfo) {l : List SocketAddr}
    (hnodup : (info.addrs ++ l).Nodup) (hlen : (info.addrs ++ l).length ≤ addrsCap) :
    l.foldl pushAddr info = { info with addrs := info.addrs ++ l } := by
  induction l generalizing info with
  | nil => rw [List.foldl_nil, List.append_nil]
  | cons a l ih =>
    have hnew : a ∉ info.addrs := fun hmem ↦
      (List.disjoint_of_nodup_append hnodup) hmem List.mem_cons_self
    have hany : info.addrs.any (· == a) = false := by
      rw [List.any_eq_false]
      intro b hb heq
      exact hnew (beq_iff_eq.mp heq ▸ hb)
    have hroom : info.addrs.length < addrsCap := by
      rw [List.length_append, List.length_cons] at hlen
      omega
    have hpush : info.pushAddr a = { info with addrs := info.addrs ++ [a] } := by
      rw [pushAddr, hany, tryPush, if_pos hroom]
      rfl
    rw [List.append_cons] at hnodup hlen
    rw [List.foldl_cons, hpush, ih _ hnodup hlen, ← List.append_cons]

/-- What every entry that was read has: the id it was read for, an address, and none twice. -/
structure Addressed (id : NodeId) (p : PeerInfo) : Prop where
  id_eq : p.id = id
  ne_nil : p.addrs ≠ []
  nodup : p.addrs.Nodup

theorem addressed_new (id : NodeId) (addr : SocketAddr) : Addressed id (new id addr) :=
  ⟨rfl, List.cons_ne_nil _ _, List.nodup_singleton _⟩

theorem Addressed.pushAddr {id : NodeId} {p : PeerInfo} (h : Addressed id p) (a : SocketAddr) :
    Addressed id (p.pushAddr a) := by
  rw [PeerInfo.pushAddr, tryPush]
  split_ifs with hany hroom
  · exact h
  · have hnew : a ∉ p.addrs := by
      intro hmem
      exact hany (List.any_eq_true.mpr ⟨a, hmem, beq_self_eq_true a⟩)
    exact ⟨h.id_eq, List.append_ne_nil_of_left_ne_nil h.ne_nil _,
      List.nodup_append_comm.mp (List.nodup_cons.mpr ⟨hnew, h.nodup⟩)⟩
  · exact h

theorem Addressed.foldl_pushAddr {id : NodeId} {p : PeerInfo} (h : Addressed id p)
    (l : List SocketAddr) : Addressed id (l.foldl PeerInfo.pushAddr p) := by
  induction l generalizing p with
  | nil => exact h
  | cons a l ih => exact ih (h.pushAddr a)

end PeerInfo

/-! ## Reading back -/

section

variable [Crates]

open Crates

/-- An address whose text is read back as the address. -/
def Legible (a : SocketAddr) : Prop := addrParse (addrDisplay a) = some a

theorem parseMultiaddr_multiaddr {a : SocketAddr} (h : Legible a) :
    parseMultiaddr (multiaddr a) = some a := by
  have hscheme : [117, 100, 112, 58, 47, 47].isPrefixOf (multiaddr a) = true :=
    List.isPrefixOf_iff_prefix.mpr (List.prefix_append _ _)
  rw [parseMultiaddr, if_pos hscheme]
  exact h

theorem filterMap_encodeAddrs {addrs : List SocketAddr} (h : ∀ a ∈ addrs, Legible a) :
    (encodeAddrs addrs).filterMap (fun a ↦ parseMultiaddr a.multiaddr) = addrs := by
  rw [encodeAddrs, List.filterMap_map]
  refine (List.filterMap_congr fun a ha ↦ ?_).trans List.filterMap_some
  exact parseMultiaddr_multiaddr (h a ha)

/-- The entries a list can carry: one to four addresses, all different, that are read back. -/
structure Portable (p : PeerInfo) : Prop where
  ne_nil : p.addrs ≠ []
  length_le : p.addrs.length ≤ PeerInfo.addrsCap
  nodup : p.addrs.Nodup
  legible : ∀ a ∈ p.addrs, Legible a

omit [Crates] in
theorem ofBytes_getD (x : Option Bytes32) : Bytes32.ofBytes ((x.map Bytes32.val).getD []) = x := by
  cases x with
  | none => rfl
  | some x => exact Bytes32.ofBytes_val x

theorem peerFromProto_of_portable {p : PeerInfo} (h : Portable p) :
    peerFromProto
      { peerId := p.id.val.val
        addrs := encodeAddrs p.addrs
        rttMs := p.rttMs
        x25519Pubkey := (p.x25519.map Bytes32.val).getD [] } = some { p with rttMs := 0 } := by
  obtain ⟨id, addrs, rttMs, x25519⟩ := p
  obtain ⟨addr, rest, rfl⟩ := List.exists_cons_of_ne_nil h.ne_nil
  have hfold := PeerInfo.foldl_pushAddr_of_nodup (.new id addr) h.nodup h.length_le
  rw [peerFromProto]
  simp only [NodeId.fromBytes_val, filterMap_encodeAddrs h.legible, ofBytes_getD,
    Option.bind_eq_bind, Option.bind_some, hfold]
  rfl

/-- What is read from any message: an entry for the id in it, with an address and none twice. -/
theorem addressed_of_peerFromProto {m : Proto.Peer} {p : PeerInfo}
    (h : peerFromProto m = some p) :
    ∃ id, NodeId.fromBytes m.peerId = some id ∧ p.Addressed id := by
  rw [peerFromProto] at h
  obtain ⟨id, hid, h⟩ := Option.bind_eq_some_iff.mp h
  refine ⟨id, hid, ?_⟩
  split at h
  · cases h
  · rename_i addr rest haddrs
    have hread := (PeerInfo.addressed_new id addr).foldl_pushAddr rest
    rw [← Option.some.inj h]
    exact ⟨hread.id_eq, hread.ne_nil, hread.nodup⟩

omit [Crates] in
theorem length_of_fromBytes {b : Bytes} {id : NodeId} (h : NodeId.fromBytes b = some id) :
    b.length = 32 := by
  obtain ⟨a, ha, -⟩ := Option.map_eq_some_iff.mp h
  rw [Bytes32.ofBytes_eq_some_iff.mp ha, a.length_val]

/-- **Lists of peers survive the wire.** Of a list of entries with one to four different addresses,
the first sixteen are read back in order, each with its id, its addresses in order and its key. And
whatever list is read, an entry of the result has an address and none twice, and was read from an
element with an id of 32 bytes. -/
theorem peer_lists_survive :
    (∀ ps : List PeerInfo,
      (∀ p ∈ ps, p.addrs ≠ [] ∧ p.addrs.length ≤ PeerInfo.addrsCap ∧ p.addrs.Nodup ∧
        ∀ a ∈ p.addrs, addrParse (addrDisplay a) = some a) →
      peersFromProto (peersToProto ps)
        = (ps.take maxFindNodePeers).map fun p ↦ { p with rttMs := 0 }) ∧
    ∀ (ms : List Proto.Peer), ∀ p ∈ peersFromProto ms,
      p.addrs ≠ [] ∧ p.addrs.Nodup ∧
        ∃ m ∈ ms, m.peerId.length = 32 ∧ NodeId.fromBytes m.peerId = some p.id := by
  refine ⟨?_, ?_⟩
  · intro ps hps
    rw [peersFromProto, peersToProto, List.filterMap_map, ← List.filterMap_eq_map]
    refine List.filterMap_congr fun p hp ↦ ?_
    obtain ⟨hne, hlen, hnodup, hback⟩ := hps p (List.mem_of_mem_take hp)
    exact peerFromProto_of_portable ⟨hne, hlen, hnodup, hback⟩
  · intro ms p hp
    obtain ⟨m, hm, hread⟩ := List.mem_filterMap.mp hp
    obtain ⟨id, hid, haddressed⟩ := addressed_of_peerFromProto hread
    refine ⟨haddressed.ne_nil, haddressed.nodup, m, hm, length_of_fromBytes hid, ?_⟩
    rw [haddressed.id_eq, hid]

end

section

open Sample

attribute [local instance] wireCrates

/-- A peer with two addresses and a key. -/
private def homedTwice : PeerInfo where
  id := NodeId.zero
  addrs := [.ofV4 10 0 0 9 9000, .ofV4 192 168 1 20 9001]
  rttMs := 7
  x25519 := some (Bytes32.fill 5)

/-- It loses its round trip time. -/
theorem peer_lists_survive_two :
    peersFromProto (peersToProto [homedTwice]) = [{ homedTwice with rttMs := 0 }] := by
  refine peer_lists_survive.1 [homedTwice] (List.forall_mem_singleton.mpr ⟨?_, ?_, ?_, ?_⟩)
  · decide
  · decide
  · decide
  · decide +kernel

end

end Molia
