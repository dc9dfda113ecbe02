import Molia.General.Handles
import Molia.Net.Codec
import Molia.Net.Wg

/-!
# Sessions and their indices

An engine finds the session of a peer by the peer's key, through an index that it gives out when it
first meets the key, and the session of a packet by the index in the packet. The index is a counter,
cut to 24 bits, under the shard in the high byte. The engine is an instance of the tables of
`Molia.General.Handles`: all that matters is the list of the keys it has met (`Represents`), and the
sequence of indices repeats itself after `2 ^ 24` of them.

The tunnel library does not put the index on the wire as it is. It keeps the low byte for its own
use and shifts the index up by eight bits, so the shard is lost. `wireIndex` is the index on the
wire. The second part compares where a data packet with that index ends up with where it belongs.
-/

namespace Molia

/-! ## The numbers -/

/-- The shard in the high byte, and 24 bits of the counter below it. -/
theorem toNat_encodeReceiverIndex (shardId : UInt8) (idx : UInt32) :
    (encodeReceiverIndex shardId idx).toNat = shardId.toNat * 2 ^ 24 + idx.toNat % 2 ^ 24 := by
  have hshard : shardId.toNat < 2 ^ 8 := shardId.toNat_lt
  have hlow : idx.toNat % 2 ^ 24 < 2 ^ 24 := Nat.mod_lt _ (by decide)
  have hhigh : (shardId.toUInt32 <<< 24).toNat = shardId.toNat <<< 24 := by
    rw [UInt32.toNat_shiftLeft, UInt8.toNat_toUInt32, Nat.shiftLeft_eq, Nat.shiftLeft_eq]
    exact Nat.mod_eq_of_lt (by simp; omega)
  have hmask : (idx &&& 0x00FFFFFF).toNat = idx.toNat % 2 ^ 24 := by
    rw [UInt32.toNat_and]
    exact Nat.and_two_pow_sub_one_eq_mod _ 24
  rw [encodeReceiverIndex, UInt32.toNat_or, hhigh, hmask, ← Nat.shiftLeft_add_eq_or_of_lt hlow,
    Nat.shiftLeft_eq]

theorem toNat_shardFromReceiverIndex (index : UInt32) :
    (shardFromReceiverIndex index).toNat = index.toNat / 2 ^ 24 := by
  have hlt : index.toNat < 2 ^ 32 := index.toNat_lt
  rw [shardFromReceiverIndex, UInt32.toNat_toUInt8, UInt32.toNat_shiftRight,
    Nat.shiftRight_eq_div_pow]
  exact Nat.mod_eq_of_lt (by simp; omega)

theorem shardFromReceiverIndex_encodeReceiverIndex (shardId : UInt8) (idx : UInt32) :
    shardFromReceiverIndex (encodeReceiverIndex shardId idx) = shardId := by
  have hlow : idx.toNat % 2 ^ 24 < 2 ^ 24 := Nat.mod_lt _ (by decide)
  rw [← UInt8.toNat_inj, toNat_shardFromReceiverIndex, toNat_encodeReceiverIndex]
  omega

/-- The index of the `j`-th key that an engine meets. -/
def sessionIndex (shardId : UInt8) (j : ℕ) : UInt32 :=
  encodeReceiverIndex shardId (UInt32.ofNat (1 + j))

theorem toNat_sessionIndex (shardId : UInt8) (j : ℕ) :
    (sessionIndex shardId j).toNat = shardId.toNat * 2 ^ 24 + (1 + j) % 2 ^ 24 := by
  rw [sessionIndex, toNat_encodeReceiverIndex, UInt32.toNat_ofNat']
  omega

theorem injOn_sessionIndex_iff (shardId : UInt8) (n : ℕ) :
    Set.InjOn (sessionIndex shardId) {j | j < n} ↔ n ≤ 2 ^ 24 := by
  constructor
  · intro h
    by_contra hn
    have hrepeat : sessionIndex shardId 0 = sessionIndex shardId (2 ^ 24) := by
      rw [← UInt32.toNat_inj, toNat_sessionIndex, toNat_sessionIndex]
      omega
    have hzero : 0 < n := by omega
    exact absurd (h hzero (not_le.mp hn) hrepeat) (by decide)
  · intro hn j hj j' hj' heq
    have hnum := congrArg UInt32.toNat heq
    rw [toNat_sessionIndex, toNat_sessionIndex] at hnum
    have hlt : j < 2 ^ 24 := lt_of_lt_of_le hj hn
    have hlt' : j' < 2 ^ 24 := lt_of_lt_of_le hj' hn
    omega

/-- The packet to send, if the tunnel made one. -/
def TunnResult.packet : TunnResult → Option Bytes
  | writeToNetwork pkt => some pkt
  | _ => none

section

variable [Crates]

open Crates

namespace WgEngine

variable {w : WgEngine} {ks : List Bytes32}

/-! ## The session map -/

/-- The calls that find or make the session of a peer. -/
inductive Op where
  | addPeer (peer : Bytes32) (peerId : Option NodeId) (endpoint : Option SocketAddr)
  | encapsulateTo (now : ℕ) (dest : SocketAddr) (peer : Bytes32) (peerId : Option NodeId)
      (plaintext : Bytes)

/-- The key of the peer. -/
def Op.peer : Op → Bytes32
  | .addPeer peer _ _ => peer
  | .encapsulateTo _ _ peer _ _ => peer

def exec (w : WgEngine) : Op → WgEngine
  | .addPeer peer peerId endpoint => w.addPeer peer peerId endpoint
  | .encapsulateTo now dest peer peerId plaintext =>
    (w.encapsulateTo now dest peer peerId plaintext).2

/-- The engine has met these keys, in this order. -/
structure Represents (w : WgEngine) (ks : List Bytes32) : Prop where
  nodup : ks.Nodup
  nextLocal : w.nextLocal = UInt32.ofNat (1 + ks.length)
  assigned : ∀ x idx, w.byX25519.lookup x = some idx ↔
    Handles.Assigned (sessionIndex w.shardId) ks x idx
  holds : ∀ idx x, (w.sessions.lookup idx).map Session.x25519 = some x ↔
    Handles.Holds (sessionIndex w.shardId) ks idx x

theorem encapsulateTo_of_lookup {now : ℕ} {dest : SocketAddr} {peer : Bytes32}
    {peerId : Option NodeId} {idx : UInt32} {sess : Session}
    (hidx : (w.addPeer peer peerId (some dest)).byX25519.lookup peer = some idx)
    (hsess : (w.addPeer peer peerId (some dest)).sessions.lookup idx = some sess)
    (plaintext : Bytes) :
    w.encapsulateTo now dest peer peerId plaintext =
      ((tunnEncapsulate sess.tunn now plaintext).1.packet,
        (w.addPeer peer peerId (some dest)).setSession idx fun s ↦
          { s with
            tunn := (tunnEncapsulate sess.tunn now plaintext).2
            endpoint := some dest }) := by
  rw [encapsulateTo]
  simp only [hidx, hsess]
  rcases tunnEncapsulate sess.tunn now plaintext with ⟨_ | _ | pkt | _ | _, t⟩
  all_goals rfl

theorem encapsulateTo_cases (w : WgEngine) (now : ℕ) (dest : SocketAddr) (peer : Bytes32)
    (peerId : Option NodeId) (plaintext : Bytes) :
    w.encapsulateTo now dest peer peerId plaintext
        = (none, w.addPeer peer peerId (some dest)) ∨
      ∃ idx sess, (w.addPeer peer peerId (some dest)).byX25519.lookup peer = some idx ∧
        (w.addPeer peer peerId (some dest)).sessions.lookup idx = some sess ∧
        w.encapsulateTo now dest peer peerId plaintext =
          ((tunnEncapsulate sess.tunn now plaintext).1.packet,
            (w.addPeer peer peerId (some dest)).setSession idx fun s ↦
              { s with
                tunn := (tunnEncapsulate sess.tunn now plaintext).2
                endpoint := some dest }) := by
  rcases hidx : (w.addPeer peer peerId (some dest)).byX25519.lookup peer with _ | idx
  · left
    simp only [encapsulateTo, hidx]
  rcases hsess : (w.addPeer peer peerId (some dest)).sessions.lookup idx with _ | sess
  · left
    simp only [encapsulateTo, hidx, hsess]
  · exact Or.inr ⟨idx, sess, rfl, hsess, encapsulateTo_of_lookup hidx hsess plaintext⟩

theorem shardId_addPeer (w : WgEngine) (peer : Bytes32) (peerId : Option NodeId)
    (endpoint : Option SocketAddr) : (w.addPeer peer peerId endpoint).shardId = w.shardId := by
  rw [addPeer]
  rcases w.byX25519.lookup peer with _ | idx
  · rfl
  · rfl

theorem shardId_exec (w : WgEngine) (op : Op) : (w.exec op).shardId = w.shardId := by
  rcases op with ⟨peer, peerId, endpoint⟩ | ⟨now, dest, peer, peerId, plaintext⟩
  · exact w.shardId_addPeer peer peerId endpoint
  · rw [exec]
    rcases w.encapsulateTo_cases now dest peer peerId plaintext with
      hnone | ⟨idx, sess, -, -, hsome⟩
    · rw [hnone, shardId_addPeer]
    · rw [hsome]
      exact w.shardId_addPeer peer peerId (some dest)

theorem shardId_foldl (w : WgEngine) (ops : List Op) : (ops.foldl exec w).shardId = w.shardId := by
  induction ops generalizing w with
  | nil => rfl
  | cons op ops ih => rw [List.foldl_cons, ih, shardId_exec]

namespace Represents

theorem new (secret : Bytes32) (shardId : UInt8) : Represents (WgEngine.new secret shardId) [] where
  nodup := List.nodup_nil
  nextLocal := rfl
  assigned x idx := by simp [WgEngine.new, Handles.Assigned]
  holds idx x := by simp [WgEngine.new, Handles.Holds]

theorem isSome_iff (h : w.Represents ks) (x : Bytes32) :
    (w.byX25519.lookup x).isSome = true ↔ x ∈ ks := by
  rw [Option.isSome_iff_exists, List.mem_iff_getElem?]
  constructor
  · rintro ⟨idx, hidx⟩
    obtain ⟨j, hj, -⟩ := (h.assigned x idx).mp hidx
    exact ⟨j, hj⟩
  · rintro ⟨j, hj⟩
    exact ⟨_, (h.assigned x _).mpr ⟨j, hj, rfl⟩⟩

theorem addPeer (h : w.Represents ks) (peer : Bytes32) (peerId : Option NodeId)
    (endpoint : Option SocketAddr) :
    (w.addPeer peer peerId endpoint).Represents (Handles.meet ks peer) := by
  rw [WgEngine.addPeer, Handles.meet]
  rcases hpeer : w.byX25519.lookup peer with _ | idx
  · have hnew : peer ∉ ks := by
      rw [← h.isSome_iff, hpeer]
      exact Bool.false_ne_true
    have hindex : encodeReceiverIndex w.shardId w.nextLocal = sessionIndex w.shardId ks.length := by
      rw [h.nextLocal]
      rfl
    rw [if_neg hnew, hindex]
    refine ⟨?_, ?_, ?_, ?_⟩
    · have hmet := Handles.nodup_meet h.nodup peer
      rw [Handles.meet, if_neg hnew] at hmet
      exact hmet
    · show w.nextLocal + 1 = _
      rw [h.nextLocal, List.length_append, List.length_singleton, ← Nat.add_assoc,
        UInt32.ofNat_add (1 + ks.length) 1]
      rfl
    · intro x idx
      rw [Handles.assigned_concat, ← h.assigned, HashMap.lookup_insert_of]
      split_ifs with hx
      · rw [hx, hpeer]
        simp
      · simp [hx]
    · intro idx x
      show ((w.sessions.insert _ _).lookup idx).map Session.x25519 = some x ↔ _
      rw [HashMap.lookup_insert_of]
      split_ifs with hidx
      · rw [hidx, Handles.holds_concat_self]
        simp [eq_comm]
      · rw [Handles.holds_concat_of_ne (Ne.symm hidx)]
        exact h.holds idx x
  · have hold : peer ∈ ks := by
      rw [← h.isSome_iff, hpeer]
      rfl
    rw [if_pos hold]
    exact h

theorem setSession (h : w.Represents ks) (idx : UInt32) {f : Session → Session}
    (hf : ∀ s, (f s).x25519 = s.x25519) : (w.setSession idx f).Represents ks := by
  refine ⟨h.nodup, h.nextLocal, h.assigned, fun i x ↦ ?_⟩
  have hkeys : ((w.setSession idx f).sessions.lookup i).map Session.x25519
      = (w.sessions.lookup i).map Session.x25519 := by
    show ((w.sessions.modify idx f).lookup i).map Session.x25519 = _
    rw [HashMap.lookup_modify, Option.map_map]
    refine congrArg (fun g ↦ (w.sessions.lookup i).map g) (funext fun s ↦ ?_)
    show (if i = idx then f s else s).x25519 = s.x25519
    split_ifs
    · exact hf s
    · rfl
  rw [hkeys]
  exact h.holds i x

theorem exec (h : w.Represents ks) (op : Op) :
    (w.exec op).Represents (Handles.meet ks op.peer) := by
  rcases op with ⟨peer, peerId, endpoint⟩ | ⟨now, dest, peer, peerId, plaintext⟩
  · exact h.addPeer peer peerId endpoint
  · have hadd := h.addPeer peer peerId (some dest)
    rw [WgEngine.exec]
    rcases w.encapsulateTo_cases now dest peer peerId plaintext with
      hnone | ⟨idx, sess, -, -, hsome⟩
    · rw [hnone]
      exact hadd
    · rw [hsome]
      exact hadd.setSession idx fun _ ↦ rfl

theorem foldl (secret : Bytes32) (shardId : UInt8) (ops : List Op) :
    (ops.foldl WgEngine.exec (WgEngine.new secret shardId)).Represents
      ((ops.map Op.peer).foldl Handles.meet []) := by
  have hall : ∀ (w : WgEngine) (ks : List Bytes32), w.Represents ks →
      (ops.foldl WgEngine.exec w).Represents ((ops.map Op.peer).foldl Handles.meet ks) := by
    induction ops with
    | nil =>
      intro w ks h
      exact h
    | cons op ops ih =>
      intro w ks h
      exact ih _ _ (h.exec op)
  exact hall _ _ (Represents.new secret shardId)

theorem isSome_lookup_sessionIndex (h : w.Represents ks) (hks : ks.length ≤ 2 ^ 24) {j : ℕ}
    (hj : j < ks.length) : (w.sessions.lookup (sessionIndex w.shardId j)).isSome = true := by
  have hinj := (injOn_sessionIndex_iff w.shardId ks.length).mpr hks
  have hassigned : Handles.Assigned (sessionIndex w.shardId) ks ks[j] (sessionIndex w.shardId j) :=
    ⟨j, List.getElem?_eq_getElem hj, rfl⟩
  have hholds := (h.holds _ _).mpr (Handles.holds_of_assigned hinj hassigned)
  rw [← Option.isSome_map, hholds]
  rfl

end Represents

/-- Keys and sessions correspond one to one, and the high byte of an index is the shard. -/
structure Bijective (w : WgEngine) : Prop where
  session : ∀ x idx, w.byX25519.lookup x = some idx →
    ∃ sess, w.sessions.lookup idx = some sess ∧ sess.x25519 = x
  injective : ∀ x y idx, w.byX25519.lookup x = some idx → w.byX25519.lookup y = some idx → x = y
  shard : ∀ x idx, w.byX25519.lookup x = some idx → shardFromReceiverIndex idx = w.shardId

theorem Represents.bijective_iff (h : w.Represents ks) : w.Bijective ↔ ks.length ≤ 2 ^ 24 := by
  rw [← injOn_sessionIndex_iff w.shardId]
  constructor
  · intro hw
    rw [← Handles.assigned_injective_iff h.nodup]
    intro x y idx hx hy
    exact hw.injective x y idx ((h.assigned x idx).mpr hx) ((h.assigned y idx).mpr hy)
  · intro hinj
    refine ⟨?_, ?_, ?_⟩
    · intro x idx hx
      have hholds := Handles.holds_of_assigned hinj ((h.assigned x idx).mp hx)
      exact Option.map_eq_some_iff.mp ((h.holds idx x).mpr hholds)
    · intro x y idx hx hy
      exact (Handles.assigned_injective_iff h.nodup).mpr hinj x y idx ((h.assigned x idx).mp hx)
        ((h.assigned y idx).mp hy)
    · intro x idx hx
      obtain ⟨j, -, rfl⟩ := (h.assigned x idx).mp hx
      exact shardFromReceiverIndex_encodeReceiverIndex _ _

/-- **The session map.** After any calls for any peers, the session map is a bijection exactly if
the calls were for at most `2 ^ 24` different peers. -/
theorem session_map_iff (secret : Bytes32) (shardId : UInt8) (ops : List Op) :
    (ops.foldl exec (WgEngine.new secret shardId)).Bijective ↔
      (ops.map Op.peer).toFinset.card ≤ 2 ^ 24 := by
  rw [(Represents.foldl secret shardId ops).bijective_iff, (Handles.length_foldl_meet _).2]

end WgEngine

end

section

attribute [local instance] Sample.crates

namespace WgEngine

/-- The key that spells out a number. -/
private def numberedKey (j : ℕ) : Bytes32 where
  val := u32ToBe (UInt32.ofNat j) ++ List.replicate 28 0
  length_val := rfl

private theorem injOn_numberedKey : Set.InjOn numberedKey {j | j < 2 ^ 32} := by
  intro j hj j' hj' heq
  have hnum := congrArg (fun b : Bytes32 ↦ (u32FromBe b.val).toNat) heq
  simp only [numberedKey, u32FromBe_u32ToBe, UInt32.toNat_ofNat'] at hnum
  rw [Nat.mod_eq_of_lt hj, Nat.mod_eq_of_lt hj'] at hnum
  exact hnum

/-- Calls for that many different peers. -/
private def numberedOps (n : ℕ) : List Op :=
  (List.range n).map fun j ↦ .addPeer (numberedKey j) none none

private theorem card_numberedOps {n : ℕ} (hn : n ≤ 2 ^ 32) :
    ((numberedOps n).map Op.peer).toFinset.card = n := by
  have hpeers : (numberedOps n).map Op.peer = (List.range n).map numberedKey := by
    rw [numberedOps, List.map_map]
    rfl
  have hnodup : ((List.range n).map numberedKey).Nodup := by
    refine List.Nodup.map_on ?_ List.nodup_range
    intro j hj j' hj' heq
    exact injOn_numberedKey (lt_of_lt_of_le (List.mem_range.mp hj) hn)
      (lt_of_lt_of_le (List.mem_range.mp hj') hn) heq
  rw [hpeers, List.toFinset_card_of_nodup hnodup, List.length_map, List.length_range]

/-- With one peer more than there are indices, two peers share one. -/
theorem session_map_fails :
    ¬∀ (_ : Crates) (secret : Bytes32) (shardId : UInt8) (ops : List Op),
      (ops.foldl exec (WgEngine.new secret shardId)).Bijective := by
  intro h
  have hbij := h Sample.crates (Bytes32.fill 1) 0 (numberedOps (2 ^ 24 + 1))
  rw [Represents.bijective_iff (Represents.foldl _ _ _), (Handles.length_foldl_meet _).2,
    card_numberedOps (by decide)] at hbij
  exact absurd hbij (Nat.not_succ_le_self _)

end WgEngine

end

section

variable [Crates]

open Crates

namespace WgEngine

/-! ## Where a data packet goes -/

/-- The sessions that `offer` gives a packet to, one after the other. -/
def offeredTo (w : WgEngine) (now : ℕ) (src : SocketAddr) (datagram : Bytes) :
    List UInt32 → List UInt32
  | [] => []
  | idx :: rest =>
    match w.sessions.lookup idx with
    | none => w.offeredTo now src datagram rest
    | some sess =>
      idx :: if (driveDecap sess.tunn now src.ip datagram).1 = .drop then
        w.offeredTo now src datagram rest else []

/-- The sessions that `decapsulate` hands a packet to. -/
def handedTo (w : WgEngine) (now : ℕ) (src : SocketAddr) (datagram : Bytes) : List UInt32 :=
  match parseWgHeader datagram with
  | none => []
  | some hdr =>
    if hdr.ty = wgTypeInitiation ∧ w.checkInitiationPow datagram = false then []
    else if (hdr.ty = wgTypeData ∨ hdr.ty = wgTypeResponse ∨ hdr.ty = wgTypeCookie) ∧
        (w.sessions.lookup hdr.receiverIndex).isSome then [hdr.receiverIndex]
    else w.offeredTo now src datagram w.sessions.keys

variable {w : WgEngine} {now : ℕ} {src : SocketAddr} {datagram : Bytes}

theorem lookup_setSession (w : WgEngine) (idx i : UInt32) (f : Session → Session) :
    (w.setSession idx f).sessions.lookup i
      = (w.sessions.lookup i).map fun s ↦ if i = idx then f s else s :=
  HashMap.lookup_modify _ _ _ _

theorem lookup_setSession_twice (w : WgEngine) (idx i : UInt32) (f g : Session → Session) :
    ((w.setSession idx f).setSession idx g).sessions.lookup i
      = (w.sessions.lookup i).map fun s ↦ if i = idx then g (f s) else s := by
  rw [lookup_setSession, lookup_setSession, Option.map_map]
  by_cases hi : i = idx
  · simp [hi, Function.comp_def]
  · simp [hi, Function.comp_def]

theorem offeredTo_congr {w' : WgEngine} {keys : List UInt32}
    (h : ∀ i ∈ keys, w'.sessions.lookup i = w.sessions.lookup i) :
    w'.offeredTo now src datagram keys = w.offeredTo now src datagram keys := by
  induction keys with
  | nil => rfl
  | cons idx rest ih =>
    rw [List.forall_mem_cons] at h
    rw [offeredTo, offeredTo, h.1, ih h.2]

/-- What a packet that was handed to these sessions leaves of the sessions. -/
structure Handed (now : ℕ) (src : SocketAddr) (datagram : Bytes) (w w' : WgEngine)
    (ids : List UInt32) : Prop where
  others : ∀ i ∉ ids, w'.sessions.lookup i = w.sessions.lookup i
  driven : ∀ i ∈ ids, ∃ sess sess', w.sessions.lookup i = some sess ∧
    w'.sessions.lookup i = some sess' ∧
    sess'.tunn = (driveDecap sess.tunn now src.ip datagram).2

namespace Handed

variable {w' : WgEngine} {idx : UInt32} {ids : List UInt32} {sess : Session} {f : Session → Session}

theorem nil (w : WgEngine) : Handed now src datagram w w [] :=
  ⟨fun _ _ ↦ rfl, fun _ hi ↦ by cases hi⟩

theorem single (hsess : w.sessions.lookup idx = some sess)
    (hw' : ∀ i, w'.sessions.lookup i = (w.sessions.lookup i).map fun s ↦ if i = idx then f s else s)
    (hf : (f sess).tunn = (driveDecap sess.tunn now src.ip datagram).2) :
    Handed now src datagram w w' [idx] := by
  refine ⟨fun i hi ↦ ?_, fun i hi ↦ ?_⟩
  · rw [List.mem_singleton] at hi
    simp [hw', hi]
  · rw [List.mem_singleton] at hi
    subst hi
    exact ⟨sess, f sess, hsess, by simp [hw', hsess], hf⟩

theorem cons (h : Handed now src datagram (w.setSession idx f) w' ids) (hids : idx ∉ ids)
    (hsess : w.sessions.lookup idx = some sess)
    (hf : (f sess).tunn = (driveDecap sess.tunn now src.ip datagram).2) :
    Handed now src datagram w w' (idx :: ids) := by
  refine ⟨fun i hi ↦ ?_, fun i hi ↦ ?_⟩
  · rw [List.mem_cons, not_or] at hi
    rw [h.others i hi.2]
    simp [lookup_setSession, hi.1]
  · rcases List.mem_cons.mp hi with rfl | hi
    · refine ⟨sess, f sess, hsess, ?_, hf⟩
      rw [h.others i hids]
      simp [lookup_setSession, hsess]
    · have hne : i ≠ idx := fun heq ↦ hids (heq ▸ hi)
      obtain ⟨s, s', hs, hs', htunn⟩ := h.driven i hi
      have hold : w.sessions.lookup i = some s := by
        rw [← hs]
        simp [lookup_setSession, hne]
      exact ⟨s, s', hold, hs', htunn⟩

end Handed

theorem mem_of_mem_offeredTo {keys : List UInt32} {i : UInt32}
    (h : i ∈ w.offeredTo now src datagram keys) : i ∈ keys := by
  induction keys with
  | nil => exact h
  | cons idx rest ih =>
    rw [offeredTo] at h
    split at h
    · exact List.mem_cons_of_mem _ (ih h)
    · rcases List.mem_cons.mp h with rfl | h
      · exact List.mem_cons_self
      · split_ifs at h
        · exact List.mem_cons_of_mem _ (ih h)
        · cases h

theorem handed_offer {keys : List UInt32} (hkeys : keys.Nodup) (w : WgEngine) :
    Handed now src datagram w (offer now src datagram (fun _ ↦ true) true keys w).2
      (w.offeredTo now src datagram keys) := by
  induction keys generalizing w with
  | nil => exact Handed.nil w
  | cons idx rest ih =>
    obtain ⟨hidx, hrest⟩ := List.nodup_cons.mp hkeys
    rw [offer, offeredTo]
    rcases hsess : w.sessions.lookup idx with _ | sess
    · exact ih hrest w
    simp only [if_true]
    by_cases hdrop : (driveDecap sess.tunn now src.ip datagram).1 = .drop
    · -- the packet goes on to the next session, and this one has seen it
      rw [if_pos hdrop, if_pos hdrop]
      generalize hw : w.setSession idx _ = w₁
      have hsame : w₁.offeredTo now src datagram rest = w.offeredTo now src datagram rest := by
        refine offeredTo_congr fun i hi ↦ ?_
        have hne : i ≠ idx := fun heq ↦ hidx (heq ▸ hi)
        rw [← hw]
        simp [lookup_setSession, hne]
      have hthere := ih hrest w₁
      rw [hsame] at hthere
      subst hw
      exact hthere.cons (fun hmem ↦ hidx (mem_of_mem_offeredTo hmem)) hsess rfl
    · rw [if_neg hdrop, if_neg hdrop]
      exact Handed.single hsess (lookup_setSession_twice w idx · _ _) rfl

/-- The packet is handed to the sessions that `handedTo` lists, and no other session changes. -/
theorem handed_decapsulate (hne : datagram ≠ []) (w : WgEngine) :
    Handed now src datagram w (w.decapsulate now src datagram).2
      (w.handedTo now src datagram) := by
  rw [decapsulate, if_neg hne, handedTo]
  rcases parseWgHeader datagram with _ | hdr
  · exact Handed.nil w
  dsimp only
  by_cases hpow : hdr.ty = wgTypeInitiation ∧ w.checkInitiationPow datagram = false
  · rw [if_pos hpow, if_pos hpow]
    exact Handed.nil w
  rw [if_neg hpow, if_neg hpow]
  by_cases hdirect : hdr.ty = wgTypeData ∨ hdr.ty = wgTypeResponse ∨ hdr.ty = wgTypeCookie
  · simp only [hdirect, if_true, true_and]
    -- an index that no session has is tried on all of them
    rcases hsess : w.sessions.lookup hdr.receiverIndex with _ | sess
    · exact handed_offer w.sessions.keys_nodup w
    · exact Handed.single hsess (lookup_setSession w hdr.receiverIndex · _) rfl
  · simp only [hdirect, if_false, false_and]
    exact handed_offer w.sessions.keys_nodup w

/-- The receiver index that a tunnel made under the index `i` uses on the wire. -/
def wireIndex (i : UInt32) (n : UInt8) : UInt32 := i * 256 + n.toUInt32

omit [Crates] in
/-- Of the index, the second byte from the top comes to stand in the place of the shard. -/
theorem toNat_shardFromReceiverIndex_wireIndex (i : UInt32) (n : UInt8) :
    (shardFromReceiverIndex (wireIndex i n)).toNat = i.toNat / 2 ^ 16 % 2 ^ 8 := by
  have hn : n.toNat < 2 ^ 8 := n.toNat_lt
  rw [toNat_shardFromReceiverIndex, wireIndex, UInt32.toNat_add, UInt32.toNat_mul,
    UInt8.toNat_toUInt32]
  simp only [UInt32.reduceToNat]
  omega

variable {i : UInt32} {n : UInt8} {sess : Session} {pkt : Bytes}

omit [Crates] in
theorem demuxShard_of_data (hpkt : parseWgHeader pkt = some ⟨wgTypeData, wireIndex i n⟩)
    {shardCount s : UInt32} (hs : s < shardCount) :
    demuxShard pkt src shardCount = s ↔
      shardCount = 1 ∨ i.toNat / 2 ^ 16 % 2 ^ 8 % shardCount.toNat = s.toNat := by
  rw [UInt32.lt_iff_toNat_lt] at hs
  rw [demuxShard, hpkt, ← UInt32.toNat_inj, ← UInt32.toNat_inj]
  by_cases hone : shardCount ≤ 1
  · rw [if_pos hone]
    rw [UInt32.le_iff_toNat_le] at hone
    simp only [UInt32.reduceToNat] at hone ⊢
    omega
  · rw [if_neg hone]
    dsimp only
    rw [if_pos rfl, UInt32.toNat_mod, UInt8.toNat_toUInt32,
      toNat_shardFromReceiverIndex_wireIndex]
    rw [UInt32.le_iff_toNat_le] at hone
    simp only [UInt32.reduceToNat] at hone ⊢
    omega

theorem handedTo_of_data (hpkt : parseWgHeader pkt = some ⟨wgTypeData, wireIndex i n⟩) :
    w.handedTo now src pkt = if (w.sessions.lookup (wireIndex i n)).isSome then [wireIndex i n]
      else w.offeredTo now src pkt w.sessions.keys := by
  have hdata : ¬(wgTypeData = wgTypeInitiation ∧ w.checkInitiationPow pkt = false) :=
    fun h ↦ absurd h.1 (by decide)
  rw [handedTo, hpkt]
  dsimp only
  rw [if_neg hdata]
  simp only [true_or, true_and]

theorem offeredTo_eq_singleton_iff (hsess : w.sessions.lookup i = some sess) :
    w.offeredTo now src pkt w.sessions.keys = [i] ↔ ∃ rest, w.sessions.keys = i :: rest ∧
      (rest = [] ∨ (driveDecap sess.tunn now src.ip pkt).1 ≠ .drop) := by
  have hall : ∀ idx ∈ w.sessions.keys, ∃ s, w.sessions.lookup idx = some s := by
    intro idx hidx
    exact Option.isSome_iff_exists.mp (AList.lookup_isSome.mpr (AList.mem_keys.mpr hidx))
  generalize w.sessions.keys = keys at hall ⊢
  rcases keys with _ | ⟨idx, rest⟩
  · simp [offeredTo]
  rw [List.forall_mem_cons] at hall
  obtain ⟨⟨s, hs⟩, hrest⟩ := hall
  rw [offeredTo, hs]
  dsimp only
  constructor
  · intro h
    obtain ⟨rfl, hnil⟩ := List.cons.inj h
    obtain rfl : s = sess := Option.some.inj (hs.symm.trans hsess)
    refine ⟨rest, rfl, ?_⟩
    by_contra hneither
    rw [not_or, not_not] at hneither
    obtain ⟨idx', rest', rfl⟩ := List.exists_cons_of_ne_nil hneither.1
    obtain ⟨s', hs'⟩ := hrest idx' List.mem_cons_self
    rw [if_pos hneither.2, offeredTo, hs'] at hnil
    cases hnil
  · rintro ⟨rest', heq, hwhy⟩
    obtain ⟨rfl, rfl⟩ := List.cons.inj heq
    obtain rfl : s = sess := Option.some.inj (hs.symm.trans hsess)
    rcases hwhy with rfl | haccepts
    · simp [offeredTo]
    · rw [if_neg haccepts]

/-- **Data packets.** A data packet with an index that a session uses on the wire is mapped to the
shard of the session exactly if there is one shard only, or the second byte of the session's index
happens to be that shard. The engine hands it to the sessions that `handedTo` lists and leaves the
others as they are. They are that session alone exactly if the index on the wire is the index of the
session, or is the index of no session and the session comes first when all of them are tried:
alone, or accepting the packet. -/
theorem data_packets_iff (w : WgEngine) (i : UInt32) (sess : Session)
    (hsess : w.sessions.lookup i = some sess) (n : UInt8) (pkt : Bytes)
    (hpkt : parseWgHeader pkt = some ⟨wgTypeData, wireIndex i n⟩) (now : ℕ) (src : SocketAddr)
    (shardCount s : UInt32) (hs : s < shardCount) :
    (demuxShard pkt src shardCount = s ↔
        shardCount = 1 ∨ i.toNat / 2 ^ 16 % 2 ^ 8 % shardCount.toNat = s.toNat) ∧
      Handed now src pkt w (w.decapsulate now src pkt).2 (w.handedTo now src pkt) ∧
      (w.handedTo now src pkt = [i] ↔ wireIndex i n = i ∨
        (w.sessions.lookup (wireIndex i n) = none ∧ ∃ rest, w.sessions.keys = i :: rest ∧
          (rest = [] ∨ (driveDecap sess.tunn now src.ip pkt).1 ≠ .drop))) := by
  have hne : pkt ≠ [] := by
    rintro rfl
    cases hpkt
  refine ⟨demuxShard_of_data hpkt hs, handed_decapsulate hne w, ?_⟩
  rw [handedTo_of_data hpkt]
  rcases hwire : w.sessions.lookup (wireIndex i n) with _ | s'
  · have hne : wireIndex i n ≠ i := by
      intro heq
      rw [heq, hsess] at hwire
      cases hwire
    simp [hne, offeredTo_eq_singleton_iff hsess]
  · simp

end WgEngine

end

/-! ## A packet for another shard, and a packet for another session -/

section

namespace WgEngine

/-- A data packet with that receiver index. -/
private def dataPacket (index : UInt32) : Bytes := u32ToLe wgTypeData ++ u32ToLe index

/-- Tunnels that open the packets with their own index on the wire and no others. -/
@[reducible] private def openingCrates : Crates :=
  { Sample.crates with
    Tunn := UInt32
    tunnNew := fun _ _ index ↦ index
    tunnEncapsulate := fun t _ _ ↦ (.done, t)
    tunnDecapsulate := fun t _ _ pkt ↦
      (if (parseWgHeader pkt).any fun hdr ↦ hdr.receiverIndex / 256 == t then .writeToTunnelV4 pkt
        else .err, t)
    tunnUpdateTimers := fun t _ ↦ (.done, t) }

attribute [local instance] openingCrates

/-- An engine with the sessions 1, 2 and 3. -/
private def threeSessions : WgEngine :=
  [0, 1, 2].foldl (fun w k ↦ w.addPeer (numberedKey k) none none)
    (WgEngine.new (Bytes32.fill 1) 0)

/-- On the only shard, a packet of the session that was made last arrives, and the two other
sessions do not see it. -/
theorem data_packets_newest :
    demuxShard (dataPacket (wireIndex 3 7)) (.ofV4 10 0 0 9 9000) 1 = 0 ∧
      Handed 0 (.ofV4 10 0 0 9 9000) (dataPacket (wireIndex 3 7)) threeSessions
        (threeSessions.decapsulate 0 (.ofV4 10 0 0 9 9000) (dataPacket (wireIndex 3 7))).2 [3] := by
  have hiff := data_packets_iff threeSessions 3 _ rfl 7
    (dataPacket (wireIndex 3 7)) (by decide) 0 (.ofV4 10 0 0 9 9000) 1 0 (by decide)
  have hhanded := hiff.2.2.mpr
    (Or.inr ⟨by decide +kernel, [2, 1], by decide +kernel, Or.inr (by decide +kernel)⟩)
  exact ⟨hiff.1.mpr (Or.inl rfl), hhanded ▸ hiff.2.1⟩

end WgEngine

end

section

attribute [local instance] Sample.crates

namespace WgEngine

private theorem isSome_lookup_numberedOps {n j : ℕ} (hn : n ≤ 2 ^ 24) (hj : j < n) :
    (((numberedOps n).foldl exec (WgEngine.new (Bytes32.fill 1) 0)).sessions.lookup
      (sessionIndex 0 j)).isSome = true := by
  have hrep := Represents.foldl (Bytes32.fill 1) 0 (numberedOps n)
  have hlen : (((numberedOps n).map Op.peer).foldl Handles.meet []).length = n := by
    rw [(Handles.length_foldl_meet _).2, card_numberedOps (by omega)]
  have hsome := hrep.isSome_lookup_sessionIndex (hlen.trans_le hn) (hj.trans_eq hlen.symm)
  rw [shardId_foldl] at hsome
  exact hsome

/-- Of two shards, the packets of the second go to the first. And of 256 sessions of one shard, the
packets of the first are handed to the last. -/
theorem data_packets_fail :
    (¬∀ (_ : Crates) (secret : Bytes32) (shardId : UInt8) (ops : List Op) (i : UInt32)
        (sess : Session) (n : UInt8) (pkt : Bytes) (src : SocketAddr) (shardCount : UInt32),
        shardCount ≤ 256 → shardId.toUInt32 < shardCount →
        (ops.foldl exec (WgEngine.new secret shardId)).sessions.lookup i = some sess →
        parseWgHeader pkt = some ⟨wgTypeData, wireIndex i n⟩ →
        demuxShard pkt src shardCount = shardId.toUInt32) ∧
      ¬∀ (_ : Crates) (secret : Bytes32) (shardId : UInt8) (ops : List Op) (i : UInt32)
        (sess : Session) (n : UInt8) (pkt : Bytes) (now : ℕ) (src : SocketAddr),
        (ops.foldl exec (WgEngine.new secret shardId)).sessions.lookup i = some sess →
        parseWgHeader pkt = some ⟨wgTypeData, wireIndex i n⟩ →
        (ops.foldl exec (WgEngine.new secret shardId)).handedTo now src pkt = [i] := by
  refine ⟨fun h ↦ ?_, fun h ↦ ?_⟩
  · have hdemux := h Sample.crates (Bytes32.fill 1) 1 (numberedOps 1) 0x01000001 _ 0
      (dataPacket (wireIndex 0x01000001 0)) (.ofV4 10 0 0 9 9000) 2 (by decide) (by decide) rfl
      (by decide)
    exact absurd hdemux (by decide)
  · have hfirst := isSome_lookup_numberedOps (n := 256) (j := 0) (by decide) (by decide)
    have hlast := isSome_lookup_numberedOps (n := 256) (j := 255) (by decide) (by decide)
    obtain ⟨sess, hsess⟩ := Option.isSome_iff_exists.mp hfirst
    have hpkt : parseWgHeader (dataPacket (wireIndex 1 0)) = some ⟨wgTypeData, wireIndex 1 0⟩ := by
      decide
    have hhanded := h Sample.crates _ _ _ _ sess 0 _ 0 (.ofV4 10 0 0 9 9000) hsess hpkt
    rw [handedTo_of_data hpkt] at hhanded
    have hlast' := (if_pos hlast).symm.trans hhanded
    exact absurd hlast' (by decide)

end WgEngine

end

end Molia
