import Molia.Core.Wire
import Molia.Net.Sessions
import Molia.Shard.Sending

/-!
# What a call of `send_app` puts on the wire

A message leaves in one datagram, which has one of three forms. With a relay hop on record for the
peer it is wrapped in a frame and sent to a hop. Otherwise it is sent as it is, or, where the node
encrypts and knows the key of the peer, in a packet of the peer's tunnel.

Each of the forms can fail, and no error is reported. A frame adds a header, two ids and the length
of its payload, and has to fit in a datagram itself: a message that could be sent directly may be
too long to be relayed. A hop with the node's own address is not used. And a tunnel without a
session gives out a handshake packet, or nothing, in place of the message, which then waits in a
queue. `conveyed_iff` says that there is nothing else.
-/

namespace Molia

variable [Crates]

open Crates Protobuf

attribute [local irreducible] message

/-! ## The length of a frame -/

/-- The longest payload of a relay frame. -/
def relayPayloadMax : ℕ := 1117

omit [Crates] in
theorem relayWire_fits_iff (dest sender : NodeId) {app : Bytes} (h : app.length ≤ pmtuFloor) :
    headerLen + (Proto.relayWire.encode ⟨dest.val.val, sender.val.val, app⟩).length ≤ pmtuFloor ↔
      app.length ≤ relayPayloadMax := by
  have hpm : pmtuFloor = 1200 := rfl
  have hhl : headerLen = 12 := rfl
  have hmax : relayPayloadMax = 1117 := rfl
  have hframe : (Proto.relayWire.encode ⟨dest.val.val, sender.val.val, app⟩).length
      = 34 + 34 + (Protobuf.encode (bytesField 3 app)).length := by
    show (Protobuf.encode (bytesField 1 dest.val.val ++ bytesField 2 sender.val.val
      ++ bytesField 3 app)).length = _
    rw [encode_append, encode_append, List.length_append, List.length_append,
      length_encode_bytes32 (by decide), length_encode_bytes32 (by decide)]
  rw [hframe, length_encode_bytesField (by decide)]
  by_cases hnil : app = []
  · rw [if_pos hnil, hnil, List.length_nil]
    omega
  · rw [if_neg hnil, fieldLen]
    by_cases hsmall : app.length < 128
    · rw [length_varint_of_lt hsmall]
      omega
    · rw [length_varint_of_two_groups (by omega) (by omega)]
      omega

namespace ShardNet

variable {n : ShardNet}

theorem relayFrame_eq_some_iff (hlength : Crates.relay.SameLength Proto.relayWire) {corr : UInt32}
    {dest : NodeId} {app frame : Bytes} (h : app.length ≤ pmtuFloor) :
    n.relayFrame corr dest app = some frame ↔ app.length ≤ relayPayloadMax ∧
      frame = (Header.request .relay .coordination corr).bytes
        ++ Crates.relay.encode ⟨dest.val.val, n.identity.nodeId.val.val, app⟩ := by
  have hfits := relayWire_fits_iff dest n.identity.nodeId h
  rw [relayFrame, message_eq, hlength]
  by_cases hfit : app.length ≤ relayPayloadMax
  · rw [if_pos (hfits.mpr hfit), Option.some.injEq, eq_comm]
    exact (and_iff_right hfit).symm
  · rw [if_neg fun hle ↦ hfit (hfits.mp hle)]
    exact iff_of_false (fun hnone ↦ by cases hnone) fun hand ↦ hfit hand.1

/-- What was sent can be read off the history of calls. -/
theorem eq_some_of_sendMessage {n : ShardNet} {dest : SocketAddr} {pkt : Option Bytes}
    {app : Bytes} (h : n.sendMessage dest none pkt = n.sendApp dest none app) : pkt = some app := by
  have hcalls := congrArg ShardNet.calls h
  rw [calls_sendApp] at hcalls
  rcases pkt with _ | p
  · exact absurd (List.self_eq_append_right.mp hcalls) (List.cons_ne_nil _ _)
  · rw [sendMessage, calls_sendApp, List.append_cancel_left_eq] at hcalls
    exact congrArg some (congrArg SendCall.app (List.cons.inj hcalls).1)

/-! ## The three ways -/

/-- With a hop, a message is sent as a relay frame to a contact in another bucket, else to the
hop; a frame that does not fit is not sent, nor is one for the node itself. -/
theorem sent_sendApp_hop {dest : SocketAddr} (x25519 : Option Bytes32) {app : Bytes}
    (hlen : app.length ≤ pmtuFloor) {id : NodeId} {hop : SocketAddr}
    (hhop : n.hopFor dest = some (id, hop)) :
    (n.sendApp dest x25519 app).sent = n.sent ++
      if hop = n.localAddr then []
      else ((n.relayFrame n.nextCorrId id app).map fun frame ↦
        (⟨(pickRelay n.identity.nodeId id n.contacts).getD hop, frame,
          .clear (some n.calls.length)⟩ : Sent)).toList := by
  have hsmall : ¬app.length > pmtuFloor := not_lt.mpr hlen
  have hhop' : (n.logCall dest x25519 app).hopFor dest = some (id, hop) := hhop
  rw [sendApp, deliver]
  dsimp only
  rw [if_neg hsmall, hhop']
  simp only
  rw [sendRelayFrame]
  by_cases hlocal : hop = n.localAddr
  · have hlocal' : hop = (n.logCall dest x25519 app).localAddr := hlocal
    rw [if_pos hlocal', if_pos hlocal, List.append_nil]
    rfl
  · have hlocal' : hop ≠ (n.logCall dest x25519 app).localAddr := hlocal
    have hframe : ((n.logCall dest x25519 app).nextCorr.2).relayFrame
        (n.logCall dest x25519 app).nextCorr.1 id app = n.relayFrame n.nextCorrId id app := rfl
    rw [if_neg hlocal', if_neg hlocal]
    dsimp only
    rw [hframe]
    rcases n.relayFrame n.nextCorrId id app with _ | frame
    · simp only [Option.map_none, Option.toList_none, List.append_nil]
      rfl
    · rfl

theorem sent_sendApp_clear {dest : SocketAddr} {x25519 : Option Bytes32}
    {app : Bytes} (hhop : n.hopFor dest = none)
    (hclear : n.cfg.plaintext = true ∨ n.keyFor dest x25519 = none)
    (hlen : app.length ≤ pmtuFloor) :
    (n.sendApp dest x25519 app).sent = n.sent ++ [⟨dest, app, .clear (some n.calls.length)⟩] := by
  have hsmall : ¬app.length > pmtuFloor := not_lt.mpr hlen
  have hhop' : (n.logCall dest x25519 app).hopFor dest = none := hhop
  rw [sendApp, deliver]
  dsimp only
  rw [if_neg hsmall, hhop']
  simp only
  split
  · rfl
  · rename_i pk hkey
    have hkey' : n.keyFor dest x25519 = some pk := hkey
    rcases hclear with hplain | hnone
    · have hplain' : (n.logCall dest x25519 app).cfg.plaintext = true := hplain
      rw [if_pos hplain']
      rfl
    · rw [hnone] at hkey'
      cases hkey'

theorem sent_sendSealed_of_some {dest : SocketAddr} {pk : Bytes32} {q : Queued} {pkt : Bytes}
    (h : (n.encapsulateTo dest pk (wrapRpc q.app)).1 = some pkt) :
    (n.sendSealed dest pk q).sent = n.sent ++ [⟨dest, pkt, .tunnel⟩] := by
  have henc : n.encapsulateTo dest pk (wrapRpc q.app)
      = (some pkt, (n.encapsulateTo dest pk (wrapRpc q.app)).2) := Prod.ext h rfl
  rw [sendSealed, henc]
  dsimp only
  split
  · rfl
  · rfl

theorem sent_sendSealed_of_none {dest : SocketAddr} {pk : Bytes32} {q : Queued}
    (h : (n.encapsulateTo dest pk (wrapRpc q.app)).1 = none) :
    ∃ w : WgEngine, (n.sendSealed dest pk q).sent = n.sent
      ++ ((w.encapsulateTo n.now dest pk none []).1.map fun pkt ↦
        (⟨dest, pkt, .tunnel⟩ : Sent)).toList := by
  have henc : n.encapsulateTo dest pk (wrapRpc q.app)
      = (none, (n.encapsulateTo dest pk (wrapRpc q.app)).2) := Prod.ext h rfl
  refine ⟨(n.encapsulateTo dest pk (wrapRpc q.app)).2.wg, ?_⟩
  rw [sendSealed, henc]
  dsimp only [enqueue, encapsulateTo, now]
  generalize WgEngine.encapsulateTo _ n.env.instant dest pk none [] = r
  obtain ⟨_ | pkt, w⟩ := r
  · exact (List.append_nil _).symm
  · rfl

/-- Where the node encrypts, a message for a peer with a known key takes the encrypted path. -/
theorem sent_sendApp_sealed {dest : SocketAddr} {x25519 : Option Bytes32} {app : Bytes}
    {pk : Bytes32} (hlen : app.length ≤ pmtuFloor) (hhop : n.hopFor dest = none)
    (hcfg : n.cfg.plaintext = false) (hkey : n.keyFor dest x25519 = some pk) :
    ∃ n₀ : ShardNet, n₀.sent = n.sent ∧ n₀.now = n.now ∧
      (∀ plaintext,
        (n₀.encapsulateTo dest pk plaintext).1 = (n.encapsulateTo dest pk plaintext).1) ∧
      (n.sendApp dest x25519 app).sent = (n₀.sendSealed dest pk ⟨app, n.calls.length⟩).sent := by
  have hsmall : ¬app.length > pmtuFloor := not_lt.mpr hlen
  have hhop' : (n.logCall dest x25519 app).hopFor dest = none := hhop
  have hcfg' : ¬(n.logCall dest x25519 app).cfg.plaintext = true := by
    rw [Bool.not_eq_true]
    exact hcfg
  rw [sendApp, deliver]
  dsimp only
  rw [if_neg hsmall, hhop']
  simp only
  split
  · rename_i hnone
    exact absurd (hkey.symm.trans hnone) (Option.some_ne_none pk)
  · rename_i pk' hkey'
    obtain rfl : pk = pk' := Option.some.inj (hkey.symm.trans hkey')
    rw [if_neg hcfg']
    exact ⟨{ n.logCall dest x25519 app with
      relay := { n.relay with
        budget := n.relay.budget.onEgress (UInt64.ofNat app.length) } }, rfl, rfl, fun _ ↦ rfl, rfl⟩

theorem sent_sendApp_long {dest : SocketAddr} {x25519 : Option Bytes32} {app : Bytes}
    (hlen : ¬app.length ≤ pmtuFloor) : (n.sendApp dest x25519 app).sent = n.sent := by
  have hlong : app.length > pmtuFloor := not_le.mp hlen
  rw [sendApp, deliver]
  dsimp only
  rw [if_pos hlong]
  rfl

theorem sent_sendApp_direct {dest : SocketAddr} (x25519 : Option Bytes32) {app : Bytes}
    (hlen : app.length ≤ pmtuFloor) (hhop : n.hopFor dest = none) :
    ∃ l, (n.sendApp dest x25519 app).sent = n.sent ++ l ∧ l.length ≤ 1 ∧
      ∀ s ∈ l, s.form = .tunnel ∨ s.bytes = app := by
  by_cases hclear : n.cfg.plaintext = true ∨ n.keyFor dest x25519 = none
  · refine ⟨_, sent_sendApp_clear hhop hclear hlen, le_rfl, fun s hs ↦ Or.inr ?_⟩
    rw [List.mem_singleton.mp hs]
  obtain ⟨hcfg, hkey⟩ := not_or.mp hclear
  obtain ⟨pk, hpk⟩ := Option.ne_none_iff_exists'.mp hkey
  obtain ⟨n₀, hsent, -, -, heq⟩ := sent_sendApp_sealed hlen hhop (Bool.not_eq_true _ ▸ hcfg) hpk
  rw [heq, ← hsent]
  rcases hpkt : (n₀.encapsulateTo dest pk (wrapRpc app)).1 with _ | pkt
  · obtain ⟨w, hw⟩ := sent_sendSealed_of_none (q := ⟨app, n.calls.length⟩) hpkt
    refine ⟨_, hw, Option.length_toList_le, fun s hs ↦ Or.inl ?_⟩
    obtain ⟨pkt, -, rfl⟩ := Option.map_eq_some_iff.mp (Option.mem_toList.mp hs)
    rfl
  · refine ⟨_, sent_sendSealed_of_some (q := ⟨app, n.calls.length⟩) hpkt, le_rfl,
      fun s hs ↦ Or.inl ?_⟩
    rw [List.mem_singleton.mp hs]

theorem sent_sendApp_le_one (n : ShardNet) (dest : SocketAddr) (x25519 : Option Bytes32)
    (app : Bytes) : ∃ l, (n.sendApp dest x25519 app).sent = n.sent ++ l ∧ l.length ≤ 1 := by
  by_cases hlen : app.length ≤ pmtuFloor
  swap
  · exact ⟨[], (sent_sendApp_long hlen).trans (List.append_nil _).symm, Nat.zero_le 1⟩
  rcases hhop : n.hopFor dest with _ | ⟨id, hop⟩
  · obtain ⟨l, hl, hone, -⟩ := sent_sendApp_direct x25519 hlen hhop
    exact ⟨l, hl, hone⟩
  · refine ⟨_, sent_sendApp_hop x25519 hlen hhop, ?_⟩
    split
    · exact Nat.zero_le 1
    · exact Option.length_toList_le

end ShardNet

/-! ## One datagram for a call -/

/-- What is assumed of the tunnels: what one makes of a plaintext is a handshake initiation, or a
packet that carries the plaintext. -/
structure Ciphers where
  carries : Bytes → Option Bytes
  data : ∀ {pkt plaintext}, carries pkt = some plaintext → isInitiation pkt = false
  encapsulate : ∀ {t now plaintext pkt}, (tunnEncapsulate t now plaintext).1.packet = some pkt →
    isInitiation pkt = true ∨ carries pkt = some plaintext

/-- The datagram takes the message of the call to its destination. -/
inductive Ciphers.Conveys (law : Ciphers) (n : ShardNet) (call : SendCall) : Sent → Prop
  | itself (i : Option ℕ) : law.Conveys n call ⟨call.dest, call.app, .clear i⟩
  /-- The hop on record serves only where no contact is picked. -/
  | frame {id : NodeId} {hop : SocketAddr} {corr : UInt32} {frame : Bytes} (i : Option ℕ)
    (hhop : n.hopFor call.dest = some (id, hop))
    (hframe : n.relayFrame corr id call.app = some frame) :
    law.Conveys n call
      ⟨(pickRelay n.identity.nodeId id n.contacts).getD hop, frame, .clear i⟩
  | packet {pkt : Bytes} (h : law.carries pkt = some (wrapRpc call.app)) :
    law.Conveys n call ⟨call.dest, pkt, .tunnel⟩

theorem Ciphers.encapsulateTo (law : Ciphers) {w : WgEngine} {now : ℕ} {dest : SocketAddr}
    {peer : Bytes32} {peerId : Option NodeId} {plaintext pkt : Bytes}
    (h : (w.encapsulateTo now dest peer peerId plaintext).1 = some pkt) :
    isInitiation pkt = true ∨ law.carries pkt = some plaintext := by
  rcases w.encapsulateTo_cases now dest peer peerId plaintext with hnone | ⟨_, sess, -, -, hsome⟩
  · rw [hnone] at h
    cases h
  · rw [hsome] at h
    exact law.encapsulate h

/-- What a datagram conveys is a matter of what the node knows. -/
theorem Ciphers.Conveys.of_knowledge {law : Ciphers} {n n' : ShardNet} {call : SendCall} {s : Sent}
    (h : law.Conveys n call s) (hk : n'.knowledge = n.knowledge) : law.Conveys n' call s := by
  rcases h with i | @⟨id, hop, corr, frame, i, hhop, hframe⟩ | hcarries
  · exact .itself i
  · have hid : n'.identity = n.identity := congrArg ShardNet.Knowledge.identity hk
    have htable : n'.table = n.table := congrArg ShardNet.Knowledge.table hk
    have hcontacts : n'.contacts = n.contacts := by
      rw [ShardNet.contacts, htable]
      rfl
    have hframe' : n'.relayFrame corr id call.app = some frame := by
      rw [ShardNet.relayFrame, hid]
      exact hframe
    rw [← hid, ← hcontacts]
    exact .frame i ((ShardNet.hopFor_of_knowledge hk _).trans hhop) hframe'
  · exact .packet hcarries

namespace ShardNet

/-- A message of this length fits in a datagram, and, if it is to be relayed, in a frame; and the
hop on record is another node. -/
structure Fits (n : ShardNet) (dest : SocketAddr) (len : ℕ) : Prop where
  datagram : len ≤ pmtuFloor
  frame : ∀ id hop, n.hopFor dest = some (id, hop) → len ≤ relayPayloadMax ∧ hop ≠ n.localAddr

theorem Fits.of_knowledge {n n' : ShardNet} {dest : SocketAddr} {len : ℕ} (h : n.Fits dest len)
    (hk : n'.knowledge = n.knowledge) : n'.Fits dest len := by
  have hlocal : n'.localAddr = n.localAddr := congrArg Knowledge.localAddr hk
  refine ⟨h.datagram, ?_⟩
  rw [hopFor_of_knowledge hk, hlocal]
  exact h.frame

/-- If the message is to be encrypted, the tunnel makes a data packet of it. -/
def Seals (n : ShardNet) (dest : SocketAddr) (x25519 : Option Bytes32) (app : Bytes) : Prop :=
  n.hopFor dest = none → n.cfg.plaintext = false → ∀ pk, n.keyFor dest x25519 = some pk →
    ∃ pkt, (n.encapsulateTo dest pk (wrapRpc app)).1 = some pkt ∧ isInitiation pkt = false

/-- A call of `sendApp` puts one datagram on the wire, and it takes the message to `dest`. -/
def Conveyed (law : Ciphers) (n : ShardNet) (dest : SocketAddr) (x25519 : Option Bytes32)
    (app : Bytes) : Prop :=
  ∃ s, (n.sendApp dest x25519 app).sent = n.sent ++ [s] ∧
    law.Conveys n (n.callEntry dest x25519 app) s

variable {n : ShardNet} {law : Ciphers} {dest : SocketAddr} {x25519 : Option Bytes32}
  {app : Bytes}

/-- Whatever the tunnel is given, only a data packet made of the message takes it along. -/
theorem conveyed_sealed_iff {pk : Bytes32} (hlen : app.length ≤ pmtuFloor)
    (hhop : n.hopFor dest = none) (hcfg : n.cfg.plaintext = false)
    (hkey : n.keyFor dest x25519 = some pk) :
    n.Conveyed law dest x25519 app ↔
      ∃ pkt, (n.encapsulateTo dest pk (wrapRpc app)).1 = some pkt ∧ isInitiation pkt = false := by
  obtain ⟨n₀, hsent, hnow, henc, heq⟩ := sent_sendApp_sealed hlen hhop hcfg hkey
  rw [Conveyed, heq, ← hsent]
  rcases hpkt : (n.encapsulateTo dest pk (wrapRpc app)).1 with _ | pkt
  · -- what goes out was made of nothing
    obtain ⟨w, hw⟩ := sent_sendSealed_of_none (q := ⟨app, n.calls.length⟩) ((henc _).trans hpkt)
    rw [hw]
    refine iff_of_false ?_ fun ⟨_, h, _⟩ ↦ by cases h
    rintro ⟨s, hs, hconveys⟩
    have hmem : s ∈ ((w.encapsulateTo n₀.now dest pk none []).1.map fun pkt ↦
        (⟨dest, pkt, .tunnel⟩ : Sent)).toList := by
      rw [List.append_cancel_left hs]
      exact List.mem_singleton_self s
    obtain ⟨pkt, hempty, rfl⟩ := Option.map_eq_some_iff.mp (Option.mem_toList.mp hmem)
    rcases hconveys with _ | _ | hcarries
    rcases law.encapsulateTo hempty with hinit | hnil
    · rw [law.data hcarries] at hinit
      cases hinit
    · exact wrapRpc_ne_nil app (Option.some.inj (hcarries.symm.trans hnil))
  · rw [sent_sendSealed_of_some (q := ⟨app, n.calls.length⟩) ((henc _).trans hpkt)]
    constructor
    · rintro ⟨s, hs, hconveys⟩
      obtain rfl : ⟨dest, pkt, .tunnel⟩ = s :=
        List.singleton_inj.mp (List.append_cancel_left hs)
      rcases hconveys with _ | _ | hcarries
      exact ⟨pkt, rfl, law.data hcarries⟩
    · rintro ⟨pkt', hpkt', hdata⟩
      obtain rfl : pkt = pkt' := Option.some.inj hpkt'
      refine ⟨_, rfl, .packet ((law.encapsulateTo hpkt).resolve_left fun hinit ↦ ?_)⟩
      rw [hdata] at hinit
      cases hinit

theorem conveyed_direct_iff (hlen : app.length ≤ pmtuFloor) (hhop : n.hopFor dest = none) :
    n.Conveyed law dest x25519 app ↔ n.Seals dest x25519 app := by
  by_cases hclear : n.cfg.plaintext = true ∨ n.keyFor dest x25519 = none
  · refine iff_of_true ⟨_, sent_sendApp_clear hhop hclear hlen, .itself _⟩ ?_
    intro _ hcfg pk hpk
    rcases hclear with hplain | hnone
    · rw [hcfg] at hplain
      cases hplain
    · rw [hnone] at hpk
      cases hpk
  · obtain ⟨hcfg, hkey⟩ := not_or.mp hclear
    obtain ⟨pk, hpk⟩ := Option.ne_none_iff_exists'.mp hkey
    have hcfg : n.cfg.plaintext = false := Bool.eq_false_iff.mpr hcfg
    rw [conveyed_sealed_iff hlen hhop hcfg hpk]
    constructor
    · intro h _ _ pk' hpk'
      obtain rfl : pk = pk' := Option.some.inj (hpk.symm.trans hpk')
      exact h
    · intro h
      exact h hhop hcfg pk hpk

theorem conveyed_hop_iff (hlength : Crates.relay.SameLength Proto.relayWire)
    (hlen : app.length ≤ pmtuFloor) {id : NodeId} {hop : SocketAddr}
    (hhop : n.hopFor dest = some (id, hop)) :
    n.Conveyed law dest x25519 app ↔ n.Fits dest app.length := by
  rw [Conveyed, sent_sendApp_hop x25519 hlen hhop]
  constructor
  · rintro ⟨s, hs, -⟩
    have hmem := List.append_cancel_left hs
    by_cases hlocal : hop = n.localAddr
    · rw [if_pos hlocal] at hmem
      cases hmem
    · rw [if_neg hlocal] at hmem
      obtain ⟨frame, hframe, -⟩ := Option.map_eq_some_iff.mp
        (Option.mem_toList.mp (hmem ▸ List.mem_singleton_self s))
      refine ⟨hlen, fun id' hop' h ↦ ?_⟩
      rw [hhop] at h
      cases h
      exact ⟨((relayFrame_eq_some_iff hlength hlen).mp hframe).1, hlocal⟩
  · intro hfits
    obtain ⟨hshort, hlocal⟩ := hfits.frame id hop hhop
    obtain ⟨frame, hframe⟩ : ∃ frame, n.relayFrame n.nextCorrId id app = some frame :=
      ⟨_, (relayFrame_eq_some_iff hlength hlen).mpr ⟨hshort, rfl⟩⟩
    rw [if_neg hlocal, hframe]
    exact ⟨_, rfl, .frame _ hhop hframe⟩

/-- **One datagram.** A call puts one datagram on the wire that takes its message along exactly if
the message fits, and the tunnel, if it goes through one, has a session. -/
theorem conveyed_iff (hlength : Crates.relay.SameLength Proto.relayWire) :
    n.Conveyed law dest x25519 app ↔ n.Fits dest app.length ∧ n.Seals dest x25519 app := by
  by_cases hlen : app.length ≤ pmtuFloor
  swap
  · refine iff_of_false ?_ fun h ↦ hlen h.1.datagram
    rintro ⟨s, hs, -⟩
    rw [sent_sendApp_long hlen] at hs
    exact List.cons_ne_nil _ _ (List.self_eq_append_right.mp hs)
  rcases hhop : n.hopFor dest with _ | ⟨id, hop⟩
  · have hfits : n.Fits dest app.length := ⟨hlen, fun id hop h ↦ by rw [hhop] at h; cases h⟩
    rw [and_iff_right hfits, conveyed_direct_iff hlen hhop]
  · have hseals : n.Seals dest x25519 app := by
      intro hnone
      rw [hhop] at hnone
      cases hnone
    rw [and_iff_left hseals, conveyed_hop_iff hlength hlen hhop]

end ShardNet

end Molia
