import Molia.Net.Sessions

/-!
# Tunnels that keep what they cannot send

A tunnel encrypts a plaintext if it has a session. If it has none, it keeps the plaintext, and gives
out at most a handshake packet; later, when it is given an empty datagram, it sends what it has
kept. `Queueing` states this as a law of the foreign tunnel, in terms of its queue and of the
plaintext that a data packet carries.

An engine whose tunnels hold nothing back is `Clear`. It stays so for as long as it only encrypts
for peers with a session.
-/

namespace Molia

/-- The type of a WireGuard packet. -/
def packetType (pkt : Bytes) : Option UInt32 := (parseWgHeader pkt).map WgHeader.ty

theorem TunnResult.eq_of_packet {r : TunnResult} {pkt : Bytes} (h : r.packet = some pkt) :
    r = .writeToNetwork pkt := by
  rcases r with _ | _ | pkt' | _ | _
  · cases h
  · cases h
  · rw [Option.some.inj h]
  · cases h
  · cases h

section

variable [Crates]

open Crates

/-- **The law of the tunnels.** -/
structure Queueing where
  established : Tunn → Bool
  /-- The plaintexts that wait for a session. -/
  queue : Tunn → List Bytes
  /-- The plaintext of a data packet. -/
  carries : Bytes → Option Bytes
  data : ∀ {pkt p}, carries pkt = some p → packetType pkt = some wgTypeData
  new : ∀ secret peer index, established (tunnNew secret peer index) = false ∧
    queue (tunnNew secret peer index) = []
  encapsulate_open : ∀ {t}, established t = true → ∀ now p,
    ∃ pkt t', tunnEncapsulate t now p = (.writeToNetwork pkt, t') ∧ carries pkt = some p ∧
      queue t' = queue t
  /-- A tunnel that keeps a plaintext already need not have room for another one. -/
  encapsulate_closed : ∀ {t}, established t = false → ∀ now p,
    (queue (tunnEncapsulate t now p).2 = queue t ++ [p] ∨
        queue t ≠ [] ∧ queue (tunnEncapsulate t now p).2 = queue t) ∧
      ∀ pkt, (tunnEncapsulate t now p).1 = .writeToNetwork pkt →
        packetType pkt = some wgTypeInitiation
  /-- An empty datagram asks for what is in the queue. -/
  drain_nil : ∀ {t}, queue t = [] → ∀ now src,
    (tunnDecapsulate t now src []).1 = .done ∧ queue (tunnDecapsulate t now src []).2 = []
  drain_cons : ∀ {t p ps}, established t = true → queue t = p :: ps → ∀ now src,
    ∃ pkt t', tunnDecapsulate t now src [] = (.writeToNetwork pkt, t') ∧ carries pkt = some p ∧
      queue t' = ps
  /-- Any other datagram leaves the queue alone, and is answered without a plaintext. -/
  decapsulate : ∀ t now src {pkt}, pkt ≠ [] →
    queue (tunnDecapsulate t now src pkt).2 = queue t ∧
      ∀ reply p, (tunnDecapsulate t now src pkt).1 = .writeToNetwork reply →
        carries reply = some p → p = []

namespace Queueing

variable {law : Queueing} {w : WgEngine} {pk : Bytes32} {p : Bytes}

theorem queue_subset_encapsulate (law : Queueing) (t : Tunn) (now : ℕ) (p : Bytes) :
    law.queue t ⊆ law.queue (tunnEncapsulate t now p).2 := by
  rcases hopen : law.established t
  · rcases (law.encapsulate_closed hopen now p).1 with hqueue | ⟨-, hqueue⟩
    · rw [hqueue]
      exact List.subset_append_left _ _
    · rw [hqueue]
      exact List.Subset.refl _
  · obtain ⟨pkt, t', heq, -, hqueue⟩ := law.encapsulate_open hopen now p
    rw [heq, hqueue]
    exact List.Subset.refl _

/-- The packet carries no plaintext, or the empty one. -/
def Bare (law : Queueing) (pkt : Bytes) : Prop := ∀ p, law.carries pkt = some p → p = []

/-! ## Engines -/

/-- The tunnels hold nothing back, and every known peer has one. -/
structure Clear (law : Queueing) (w : WgEngine) : Prop where
  queues : ∀ idx s, w.sessions.lookup idx = some s → law.queue s.tunn = []
  present : ∀ x idx, w.byX25519.lookup x = some idx → (w.sessions.lookup idx).isSome = true

/-- The peer has a tunnel with a session. -/
def Reaches (law : Queueing) (w : WgEngine) (pk : Bytes32) : Prop :=
  ∃ idx s, w.byX25519.lookup pk = some idx ∧ w.sessions.lookup idx = some s ∧
    law.established s.tunn = true

/-- The tunnel of the peer holds the plaintext back. -/
def Holds (law : Queueing) (w : WgEngine) (pk : Bytes32) (p : Bytes) : Prop :=
  ∃ idx s, w.byX25519.lookup pk = some idx ∧ w.sessions.lookup idx = some s ∧
    p ∈ law.queue s.tunn

theorem addPeer_of_known {idx : UInt32} (h : w.byX25519.lookup pk = some idx)
    (peerId : Option NodeId) (endpoint : Option SocketAddr) :
    w.addPeer pk peerId endpoint = w := by
  rw [WgEngine.addPeer, h]

theorem lookup_setSession_self {idx : UInt32} {s : Session} (h : w.sessions.lookup idx = some s)
    (f : Session → Session) : (w.setSession idx f).sessions.lookup idx = some (f s) := by
  rw [WgEngine.setSession, HashMap.lookup_modify, h, Option.map_some, if_pos rfl]

namespace Clear

theorem new (law : Queueing) (secret : Bytes32) (shardId : UInt8) :
    law.Clear (WgEngine.new secret shardId) := by
  refine ⟨fun idx s hs ↦ ?_, fun x idx hx ↦ ?_⟩
  · cases hs
  · cases hx

theorem addPeer (h : law.Clear w) (peer : Bytes32) (peerId : Option NodeId)
    (endpoint : Option SocketAddr) : law.Clear (w.addPeer peer peerId endpoint) := by
  rw [WgEngine.addPeer]
  split
  · exact h
  · refine ⟨fun idx s hs ↦ ?_, fun x idx hx ↦ ?_⟩
    · rw [HashMap.lookup_insert_of] at hs
      split_ifs at hs
      · rw [← Option.some.inj hs]
        exact (law.new _ _ _).2
      · exact h.queues idx s hs
    · rw [HashMap.lookup_insert_of] at hx ⊢
      split_ifs with hidx
      · rfl
      · split_ifs at hx
        · exact absurd (Option.some.inj hx).symm hidx
        · exact h.present x idx hx

theorem setSession (h : law.Clear w) (idx : UInt32) {f : Session → Session}
    (hf : ∀ s, w.sessions.lookup idx = some s → law.queue (f s).tunn = []) :
    law.Clear (w.setSession idx f) := by
  refine ⟨fun idx' s hs ↦ ?_, fun x idx' hx ↦ ?_⟩
  · rw [WgEngine.setSession, HashMap.lookup_modify] at hs
    obtain ⟨s', hs', rfl⟩ := Option.map_eq_some_iff.mp hs
    split_ifs with hidx
    · rw [hidx] at hs'
      exact hf s' hs'
    · exact h.queues idx' s' hs'
  · rw [WgEngine.setSession, HashMap.lookup_modify, Option.isSome_map]
    exact h.present x idx' hx

theorem reorder (h : law.Clear w) (r : HashMap.Reorder) :
    law.Clear { w with sessions := w.sessions.reorder r } := by
  refine ⟨fun idx s hs ↦ ?_, fun x idx hx ↦ ?_⟩
  · rw [HashMap.lookup_reorder] at hs
    exact h.queues idx s hs
  · rw [HashMap.lookup_reorder]
    exact h.present x idx hx

/-! ## Encryption -/

/-- For a peer with a session, the packet carries the plaintext, and nothing is held back. -/
theorem encapsulateTo_open (h : law.Clear w) (hpk : law.Reaches w pk) (now : ℕ)
    (dest : SocketAddr) (peerId : Option NodeId) (p : Bytes) :
    ∃ pkt w', w.encapsulateTo now dest pk peerId p = (some pkt, w') ∧
      law.carries pkt = some p ∧ law.Clear w' := by
  obtain ⟨idx, s, hidx, hs, hopen⟩ := hpk
  obtain ⟨pkt, t, heq, hcarries, hqueue⟩ := law.encapsulate_open hopen now p
  refine ⟨pkt, w.setSession idx fun s ↦ { s with tunn := t, endpoint := some dest }, ?_, hcarries,
    h.setSession idx fun _ _ ↦ hqueue.trans (h.queues idx s hs)⟩
  simp only [WgEngine.encapsulateTo, addPeer_of_known hidx, hidx, hs, heq]

theorem exists_closed (h : law.Clear w) (hpk : ¬law.Reaches w pk) (peerId : Option NodeId)
    (endpoint : Option SocketAddr) :
    ∃ idx s, (w.addPeer pk peerId endpoint).byX25519.lookup pk = some idx ∧
      (w.addPeer pk peerId endpoint).sessions.lookup idx = some s ∧
      law.established s.tunn = false := by
  rcases hidx : w.byX25519.lookup pk with _ | idx
  · rw [WgEngine.addPeer, hidx]
    exact ⟨_, _, AList.lookup_insert _, AList.lookup_insert _, (law.new _ _ _).1⟩
  · obtain ⟨s, hs⟩ := Option.isSome_iff_exists.mp (h.present pk idx hidx)
    rw [addPeer_of_known hidx]
    exact ⟨idx, s, hidx, hs, Bool.eq_false_iff.mpr fun hopen ↦ hpk ⟨idx, s, hidx, hs, hopen⟩⟩

/-- For a peer without a session, the plaintext is held back. -/
theorem encapsulateTo_closed (h : law.Clear w) (hpk : ¬law.Reaches w pk) (now : ℕ)
    (dest : SocketAddr) (peerId : Option NodeId) (p : Bytes) :
    law.Holds (w.encapsulateTo now dest pk peerId p).2 pk p ∧
      ∀ pkt, (w.encapsulateTo now dest pk peerId p).1 = some pkt →
        packetType pkt = some wgTypeInitiation := by
  obtain ⟨idx, s, hidx, hs, hclosed⟩ := h.exists_closed hpk peerId (some dest)
  obtain ⟨hkept, hshake⟩ := law.encapsulate_closed hclosed now p
  have hqueue := hkept.resolve_right fun hfull ↦
    hfull.1 ((h.addPeer pk peerId (some dest)).queues idx s hs)
  rw [WgEngine.encapsulateTo_of_lookup hidx hs]
  refine ⟨⟨idx, _, hidx, lookup_setSession_self hs _, ?_⟩, fun pkt hpkt ↦ hshake pkt ?_⟩
  · rw [hqueue]
    exact List.mem_append_right _ (List.mem_singleton.mpr rfl)
  · exact TunnResult.eq_of_packet hpkt

/-! ## Decryption -/

/-- A tunnel with an empty queue answers without a plaintext, whatever it is given. -/
theorem driveDecap_bare {t : Tunn} (h : law.queue t = []) (now : ℕ) (src : IpAddr)
    (datagram : Bytes) :
    law.queue (driveDecap t now src datagram).2 = [] ∧
      ∀ reply, (driveDecap t now src datagram).1 = .network reply → law.Bare reply := by
  have htunn : law.queue (tunnDecapsulate t now src datagram).2 = [] ∧
      ∀ reply, (tunnDecapsulate t now src datagram).1 = .writeToNetwork reply →
        law.Bare reply := by
    by_cases hempty : datagram = []
    · obtain ⟨hdone, hqueue⟩ := law.drain_nil h now src
      rw [hempty]
      refine ⟨hqueue, fun reply hreply ↦ ?_⟩
      rw [hdone] at hreply
      cases hreply
    · obtain ⟨hqueue, hreply⟩ := law.decapsulate t now src hempty
      exact ⟨hqueue.trans h, fun reply heq p hp ↦ hreply reply p heq hp⟩
  rw [driveDecap]
  generalize tunnDecapsulate t now src datagram = r at htunn ⊢
  obtain ⟨hqueue, hbare⟩ := htunn
  obtain ⟨_ | _ | pkt | inner | inner, t'⟩ := r
  · exact ⟨hqueue, fun reply hreply ↦ by cases hreply⟩
  · exact ⟨hqueue, fun reply hreply ↦ by cases hreply⟩
  · refine ⟨hqueue, fun reply hreply ↦ hbare reply ?_⟩
    rw [Decap.network.inj hreply]
  · exact ⟨hqueue, fun reply hreply ↦ by cases hreply⟩
  · exact ⟨hqueue, fun reply hreply ↦ by cases hreply⟩

theorem offer (h : law.Clear w) (now : ℕ) (src : SocketAddr) (datagram : Bytes)
    (accepts : Session → Bool) (move : Bool) (keys : List UInt32) :
    law.Clear (WgEngine.offer now src datagram accepts move keys w).2 ∧
      ∀ reply, (WgEngine.offer now src datagram accepts move keys w).1 = .network reply →
        law.Bare reply := by
  induction keys generalizing w with
  | nil => exact ⟨h, fun reply hreply ↦ by cases hreply⟩
  | cons idx keys ih =>
    rw [WgEngine.offer]
    rcases hs : w.sessions.lookup idx with _ | s
    · exact ih h
    obtain ⟨hqueue, hbare⟩ := driveDecap_bare (h.queues idx s hs) now src.ip datagram
    dsimp only
    generalize driveDecap s.tunn now src.ip datagram = r at hqueue hbare ⊢
    have hset : law.Clear (w.setSession idx fun s ↦ { s with tunn := r.2 }) :=
      h.setSession idx fun _ _ ↦ hqueue
    split_ifs
    · exact ih hset
    · refine ⟨hset.setSession idx fun s' hs' ↦ ?_, hbare⟩
      exact hset.queues idx s' hs'
    · exact ⟨hset, hbare⟩
    · exact ih h

theorem decapsulate (h : law.Clear w) (now : ℕ) (src : SocketAddr) (datagram : Bytes) :
    law.Clear (w.decapsulate now src datagram).2 ∧
      ∀ reply, (w.decapsulate now src datagram).1 = .network reply → law.Bare reply := by
  rw [WgEngine.decapsulate]
  split
  · exact h.offer now src [] _ _ _
  · split
    · exact ⟨h, fun reply hreply ↦ by cases hreply⟩
    · rename_i hdr _
      split
      · exact ⟨h, fun reply hreply ↦ by cases hreply⟩
      · dsimp only
        split
        · rename_i s hs
          have hlookup : w.sessions.lookup hdr.receiverIndex = some s := by
            split_ifs at hs
            exact hs
          obtain ⟨hqueue, hbare⟩ := driveDecap_bare (h.queues _ s hlookup) now src.ip datagram
          exact ⟨h.setSession _ fun _ _ ↦ hqueue, hbare⟩
        · exact h.offer now src datagram _ _ _

end Clear

theorem Holds.encapsulateTo (h : law.Holds w pk p) (now : ℕ) (dest : SocketAddr)
    (peerId : Option NodeId) (p' : Bytes) :
    law.Holds (w.encapsulateTo now dest pk peerId p').2 pk p := by
  obtain ⟨idx, s, hidx, hs, hp⟩ := h
  have hknown := addPeer_of_known hidx peerId (some dest)
  rw [WgEngine.encapsulateTo_of_lookup (by rw [hknown, hidx]) (by rw [hknown, hs]), hknown]
  exact ⟨idx, _, hidx, lookup_setSession_self hs _, law.queue_subset_encapsulate s.tunn now p' hp⟩

end Queueing

end

end Molia
