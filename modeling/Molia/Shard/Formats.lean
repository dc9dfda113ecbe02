import Molia.Net.RoundTrip
import Molia.Shard.Machine

/-!
# Telling datagrams apart

Three kinds of byte strings meet in a shard: messages, packets of the tunnel protocol, and messages
wrapped in an IPv4 packet, which is all a tunnel carries. There is no tag that tells them apart. A
message starts with its version, 1, and a type, which is never 0; a packet of the tunnel protocol
starts with a number from 1 to 4 in little-endian order, so its second byte is 0; and a wrapped
message starts with the version and header length of IPv4.
-/

namespace Molia

open BigEndian

/-! ## Messages and tunnel packets -/

theorem MessageType.toU8_ne_zero (ty : MessageType) : ty.toU8 ≠ 0 := by
  cases ty <;> decide

theorem exists_eq_of_decode {d : Bytes} {h : Header} (hd : Header.decode d = some h) :
    ∃ b c e rest, d = 1 :: b :: c :: e :: rest ∧ b ≠ 0 := by
  rw [Header.decode] at hd
  split_ifs at hd with hshort hversion
  split at hd
  · cases hd
  · rename_i ty hty
    have hlen : 12 ≤ d.length := not_lt.mp hshort
    obtain ⟨a, b, c, e, rest, rfl⟩ := exists_eq_cons_four (show 4 ≤ d.length by omega)
    have ha : a = 1 := not_not.mp hversion
    have hb : ty.toU8 = b := MessageType.toU8_of_fromU8 hty
    exact ⟨b, c, e, rest, by rw [ha], hb ▸ ty.toU8_ne_zero⟩

/-- The little-endian number at the start of a message is at least 256. -/
theorem looksLikeWg_of_decode {d : Bytes} {h : Header} (hd : Header.decode d = some h) :
    looksLikeWg d = false := by
  obtain ⟨b, c, e, rest, rfl, hb⟩ := exists_eq_of_decode hd
  have hpos : 0 < b.toNat := Nat.pos_of_ne_zero fun hzero ↦ hb (UInt8.toNat_inj.mp hzero)
  have hlen : 4 ≤ [e, c, b, 1].length := le_rfl
  have hnum : (u32FromLe (1 :: b :: c :: e :: rest)).toNat = beValue [e, c, b, 1] :=
    toNat_u32FromBe hlen
  have hbig : ¬(1 ≤ u32FromLe (1 :: b :: c :: e :: rest) ∧
      u32FromLe (1 :: b :: c :: e :: rest) ≤ 4) := by
    rw [UInt32.le_iff_toNat_le (a := u32FromLe _), hnum]
    simp only [beValue, List.length_cons, List.length_nil, UInt32.reduceToNat]
    omega
  rw [looksLikeWg, parseWgHeader]
  split_ifs
  · rfl
  · dsimp only
    rw [if_neg hbig]
    rfl

theorem decode_of_looksLikeWg {d : Bytes} (h : looksLikeWg d = true) : Header.decode d = none := by
  by_contra hsome
  obtain ⟨hd, hdecode⟩ := Option.ne_none_iff_exists'.mp hsome
  rw [looksLikeWg_of_decode hdecode] at h
  cases h

/-! ## Wrapped messages -/

theorem unwrapRpc_of_decode {d : Bytes} {h : Header} (hd : Header.decode d = some h) :
    unwrapRpc d = d := by
  obtain ⟨b, c, e, rest, rfl, -⟩ := exists_eq_of_decode hd
  have hone : (1 : UInt8) ≠ 0x45 := by decide
  exact if_neg fun hwrapped ↦ hone hwrapped.2

theorem beValue_u16ToBe {n : ℕ} (h : n < 2 ^ 16) : beValue (u16ToBe n) = n := by
  simp only [u16ToBe, beValue, List.length_cons, List.length_nil, UInt8.toNat_ofNat']
  omega

theorem ipLength_wrapRpc {rpc : Bytes} (h : rpc.length ≤ pmtuFloor) :
    beValue (((wrapRpc rpc).drop 2).take 2) = (wrapRpc rpc).length := by
  have hmax : pmtuFloor = 1200 := rfl
  rw [length_wrapRpc]
  exact beValue_u16ToBe (n := 20 + 8 + rpc.length) (by omega)

theorem udpLength_wrapRpc {rpc : Bytes} (h : rpc.length ≤ pmtuFloor) :
    beValue (((wrapRpc rpc).drop 24).take 2) = ((wrapRpc rpc).drop 20).length := by
  have hmax : pmtuFloor = 1200 := rfl
  rw [List.length_drop, length_wrapRpc]
  refine (beValue_u16ToBe (n := 8 + rpc.length) (by omega)).trans ?_
  omega

/-! ## The dispatch -/

section

variable [Crates]

namespace ShardCtx

theorem handleDatagram_of_decode (c : ShardCtx) (src : SocketAddr) {d : Bytes} {h : Header}
    (hd : Header.decode d = some h) : c.handleDatagram src d = (c, [.app src d false]) := by
  rw [handleDatagram, looksLikeWg_of_decode hd]
  rfl

theorem handleDatagram_of_plaintext {c c' : ShardCtx} {src : SocketAddr} {pkt rpc : Bytes}
    (hwg : looksLikeWg pkt = true) (hok : (c.sybil.allowPreHandshake c.now src).1 = true)
    (hplain : ({ c with sybil := (c.sybil.allowPreHandshake c.now src).2 } : ShardCtx).decapsulate
      src pkt = (.plaintext (wrapRpc rpc), c')) :
    c.handleDatagram src pkt = (c', [.app src rpc true, .drain src, .flush src]) := by
  rw [handleDatagram, if_pos hwg]
  dsimp only
  rw [hok, hplain]
  simp

theorem drainTurn_of_plaintext {c c' : ShardCtx} {src : SocketAddr} {rpc : Bytes}
    (hplain : c.decapsulate src [] = (.plaintext (wrapRpc rpc), c')) :
    c.drainTurn src = (c', [.app src rpc true, .drain src]) := by
  rw [drainTurn, hplain]
  simp

end ShardCtx

/-- **No confusion.** What is accepted as a message is neither taken for a tunnel packet nor
unwrapped, and a tunnel packet is not accepted as a message; a wrapped message is unwrapped as it
was, and carries its lengths if it fits in a datagram. So a message off the socket, and a message
that a tunnel delivers, is handled with the bytes of the sender. -/
theorem formats_distinct :
    (∀ (d : Bytes) (h : Header), Header.decode d = some h →
      looksLikeWg d = false ∧ unwrapRpc d = d) ∧
    (∀ rpc : Bytes, unwrapRpc (wrapRpc rpc) = rpc) ∧
    (∀ rpc : Bytes, rpc.length ≤ pmtuFloor →
      beValue (((wrapRpc rpc).drop 2).take 2) = (wrapRpc rpc).length ∧
        beValue (((wrapRpc rpc).drop 24).take 2) = ((wrapRpc rpc).drop 20).length) ∧
    (∀ d : Bytes, looksLikeWg d = true → Header.decode d = none) ∧
    (∀ (c : ShardCtx) (src : SocketAddr) (d : Bytes) (h : Header), Header.decode d = some h →
      c.handleDatagram src d = (c, [.app src d false])) ∧
    (∀ (c c' : ShardCtx) (src : SocketAddr) (pkt rpc : Bytes), looksLikeWg pkt = true →
      (c.sybil.allowPreHandshake c.now src).1 = true →
      ({ c with sybil := (c.sybil.allowPreHandshake c.now src).2 } : ShardCtx).decapsulate src pkt
        = (.plaintext (wrapRpc rpc), c') →
      c.handleDatagram src pkt = (c', [.app src rpc true, .drain src, .flush src])) ∧
    ∀ (c c' : ShardCtx) (src : SocketAddr) (rpc : Bytes),
      c.decapsulate src [] = (.plaintext (wrapRpc rpc), c') →
      c.drainTurn src = (c', [.app src rpc true, .drain src]) := by
  refine ⟨?_, unwrapRpc_wrapRpc, ?_, fun d ↦ decode_of_looksLikeWg, ?_, ?_, ?_⟩
  · intro d h hd
    exact ⟨looksLikeWg_of_decode hd, unwrapRpc_of_decode hd⟩
  · intro rpc hlen
    exact ⟨ipLength_wrapRpc hlen, udpLength_wrapRpc hlen⟩
  · intro c src d h hd
    exact c.handleDatagram_of_decode src hd
  · intro c c' src pkt rpc hwg hok hplain
    exact ShardCtx.handleDatagram_of_plaintext hwg hok hplain
  · intro c c' src rpc hplain
    exact ShardCtx.drainTurn_of_plaintext hplain

end

section

/-- Tunnels that carry packets in the clear, behind the header of a data packet. -/
@[reducible] private def clearCrates : Crates :=
  { Sample.crates with
    tunnDecapsulate := fun t _ _ d ↦ (.writeToTunnelV4 (d.drop 8), t) }

attribute [local instance] clearCrates

private def tunnelAddr : SocketAddr := .ofV4 10 0 0 9 9000

/-- A shard with a tunnel to one peer. -/
private def tunnelCtx : ShardCtx :=
  let start : ShardStart :=
    { id := 0
      identity := ⟨(), Bytes32.fill 1⟩
      cfg := ⟨false, false, false⟩
      localAddr := .ofV4 10 0 0 1 9000
      env := ⟨1000, 1000000, 0, none⟩
      peers := Peerstore.memory
      store := .new }
  { start.machine.ctx with
    wg := start.machine.ctx.wg.addPeer (Bytes32.fill 9) none (some tunnelAddr) }

/-- A wrapped message of two bytes, in a data packet of the tunnel. -/
private def tunnelPacket : Bytes := u32ToLe wgTypeData ++ u32ToLe 1 ++ wrapRpc [7, 8]

/-- The two bytes are handled. -/
theorem formats_distinct_tunnelled :
    (tunnelCtx.handleDatagram tunnelAddr tunnelPacket).2
      = [.app tunnelAddr [7, 8] true, .drain tunnelAddr, .flush tunnelAddr] := by
  obtain ⟨-, -, -, -, -, htunnel, -⟩ := formats_distinct
  rw [htunnel tunnelCtx _ tunnelAddr tunnelPacket [7, 8] (by decide +kernel) (by decide +kernel)
    (Prod.ext (by decide +kernel) rfl)]

end

end Molia
