import Molia.General.Runs
import Molia.Shard.Keepalives
import Molia.Shard.Moves

/-!
# No plaintext on an encrypted path

A message that is given to `send_app` when the key of the peer is known should never leave the node
in the clear. In encrypted mode there are two ways in which it does. If a relay hop is recorded for
the peer, the message is wrapped in a frame that is not encrypted. And a message that waits for a
handshake is flushed in the clear if no key is on record for the address, although a key was passed
along when it was queued.

The invariant below says of every datagram where its bytes come from. They are what a tunnel made,
or a message of the control plane, or they show the message of a call without a key or with a relay
hop. Every function of the sending side keeps it, with one exception, the flush of a queue whose
address has no key on record.
-/

namespace Molia

section

variable [Crates]

open Crates

-- the encoder works on a buffer of 2048 bytes, which is never looked into here
attribute [local irreducible] message

/-! ## Where datagrams come from -/

/-- A packet that a tunnel makes: of a message, in answer to a packet, or by its timer. -/
inductive TunnelPacket : Bytes → Prop
  | encapsulated (t : Tunn) (now : ℕ) (plaintext : Bytes) {pkt : Bytes}
    (h : (tunnEncapsulate t now plaintext).1.packet = some pkt) : TunnelPacket pkt
  | decapsulated (t : Tunn) (now : ℕ) (src : IpAddr) (datagram : Bytes) {pkt : Bytes}
    (h : (tunnDecapsulate t now src datagram).1.packet = some pkt) : TunnelPacket pkt
  | timer (t : Tunn) (now : ℕ) {pkt : Bytes}
    (h : (tunnUpdateTimers t now).1.packet = some pkt) : TunnelPacket pkt

/-- The message of the call may be shown: no key was known for the peer, or a relay hop was. -/
def SendCall.Exposed (call : SendCall) : Prop := call.key = none ∨ call.hop.isSome = true

/-- The message of the call as it is, or in a relay frame. -/
def SendCall.ShownBy (call : SendCall) (bytes : Bytes) : Prop :=
  bytes = call.app ∨ ∃ corr destId fromId,
    message Crates.relay (Header.request .relay .coordination corr) ⟨destId, fromId, call.app⟩
      = some bytes

/-- Where the bytes of a datagram come from. -/
inductive Accounted (calls : List SendCall) : Sent → Prop
  | packet {dest : SocketAddr} {bytes : Bytes} (h : TunnelPacket bytes) :
    Accounted calls ⟨dest, bytes, .tunnel⟩
  /-- Keepalives share a buffer, to which nothing else is written. -/
  | keepalive {dest : SocketAddr} {pkts : List Bytes} (h : ∀ pkt ∈ pkts, TunnelPacket pkt)
    (len : ℕ) : Accounted calls ⟨dest, (Scratch.writeAll pkts poolBuffer).take len, .tunnel⟩
  | control {dest : SocketAddr} {bytes : Bytes} (h : ShardNet.Control bytes) :
    Accounted calls ⟨dest, bytes, .clear none⟩
  | shown {dest : SocketAddr} {bytes : Bytes} {i : ℕ} {call : SendCall}
    (hcall : calls[i]? = some call) (hexposed : call.Exposed) (hshown : call.ShownBy bytes) :
    Accounted calls ⟨dest, bytes, .clear (some i)⟩

theorem Accounted.mono {calls calls' : List SendCall} {s : Sent} (h : Accounted calls s)
    (hcalls : calls <+: calls') : Accounted calls' s := by
  rcases h with hpkt | ⟨hpkts, len⟩ | hctl | ⟨hcall, hexposed, hshown⟩
  · exact .packet hpkt
  · exact .keepalive hpkts len
  · exact .control hctl
  · obtain ⟨later, rfl⟩ := hcalls
    refine .shown ?_ hexposed hshown
    rw [List.getElem?_append_left (List.getElem?_eq_some_iff.mp hcall).1, hcall]

/-- What is sent in answer to a packet comes out of a tunnel, or is the cookie. -/
structure Decap.Replies (d : Decap) : Prop where
  network : ∀ pkt, d = .network pkt → TunnelPacket pkt
  cookie : ∀ c, d = .cookie c → ∃ w : WgEngine, c = w.cookieReply

namespace WgEngine

theorem tunnelPacket_encapsulateTo {w : WgEngine} {now : ℕ} {dest : SocketAddr} {peer : Bytes32}
    {peerId : Option NodeId} {plaintext pkt : Bytes}
    (h : (w.encapsulateTo now dest peer peerId plaintext).1 = some pkt) : TunnelPacket pkt := by
  rcases w.encapsulateTo_cases now dest peer peerId plaintext with hnone | ⟨_, sess, -, -, hsome⟩
  · rw [hnone] at h
    cases h
  · rw [hsome] at h
    exact .encapsulated sess.tunn now plaintext h

theorem replies_driveDecap (t : Tunn) (now : ℕ) (src : IpAddr) (datagram : Bytes) :
    (driveDecap t now src datagram).1.Replies := by
  rw [driveDecap]
  rcases hres : tunnDecapsulate t now src datagram with ⟨_ | _ | out | _ | _, t'⟩
  case writeToNetwork =>
    refine ⟨?_, by rintro _ ⟨⟩⟩
    rintro _ ⟨⟩
    refine .decapsulated t now src datagram ?_
    rw [hres]
    rfl
  all_goals exact ⟨by rintro _ ⟨⟩, by rintro _ ⟨⟩⟩

theorem replies_offer (now : ℕ) (src : SocketAddr) (datagram : Bytes) (accepts : Session → Bool)
    (move : Bool) (keys : List UInt32) (w : WgEngine) :
    (offer now src datagram accepts move keys w).1.Replies := by
  induction keys generalizing w with
  | nil => exact ⟨by rintro _ ⟨⟩, by rintro _ ⟨⟩⟩
  | cons idx rest ih =>
    rw [offer]
    split
    · exact ih w
    · dsimp only
      split_ifs
      · exact ih _
      · exact replies_driveDecap _ _ _ _
      · exact replies_driveDecap _ _ _ _
      · exact ih w

theorem replies_decapsulate (w : WgEngine) (now : ℕ) (src : SocketAddr) (datagram : Bytes) :
    (w.decapsulate now src datagram).1.Replies := by
  rw [decapsulate]
  split_ifs
  · exact replies_offer _ _ _ _ _ _ _
  · split
    · exact ⟨by rintro _ ⟨⟩, by rintro _ ⟨⟩⟩
    · split_ifs
      · refine ⟨by rintro _ ⟨⟩, ?_⟩
        rintro _ ⟨⟩
        exact ⟨w, rfl⟩
      all_goals
        dsimp only
        split
        · exact replies_driveDecap _ _ _ _
        · exact replies_offer _ _ _ _ _ _ _

theorem tunnelPacket_fired {w : WgEngine} {now : ℕ} {p : Bytes × SocketAddr}
    (h : p ∈ w.fired now) : TunnelPacket p.1 := by
  obtain ⟨i, -, hi⟩ := List.mem_filterMap.mp h
  obtain ⟨sess, -, -, hpkt⟩ := firedAt_eq_some_iff.mp hi
  exact .timer sess.tunn now hpkt

end WgEngine

namespace ShardNet

theorem calls_of_wire {n n' : ShardNet} (h : n'.wire = n.wire) : n'.calls = n.calls :=
  congrArg (fun w ↦ w.2.2.1) h

theorem wire_of_encapsulateTo {n n' : ShardNet} {dest : SocketAddr} {pk : Bytes32}
    {plaintext : Bytes} {pkt : Option Bytes} (h : n.encapsulateTo dest pk plaintext = (pkt, n')) :
    n'.wire = n.wire :=
  (congrArg (fun r ↦ r.2.wire) h).symm

theorem tunnelPacket_of_encapsulateTo {n n' : ShardNet} {dest : SocketAddr} {pk : Bytes32}
    {plaintext pkt : Bytes} (h : n.encapsulateTo dest pk plaintext = (some pkt, n')) :
    TunnelPacket pkt :=
  WgEngine.tunnelPacket_encapsulateTo (congrArg Prod.fst h)

/-- The invariant of the sending side in encrypted mode. -/
structure Sealed (n : ShardNet) : Prop where
  cfg : n.cfg.plaintext = false
  queued : ∀ {dest qs}, n.pendingWg.lookup dest = some qs → ∀ q ∈ qs, q.call < n.calls.length
  sent : ∀ s ∈ n.sent, Accounted n.calls s

namespace Sealed

variable {n n' : ShardNet}

theorem of_wire (h : n.Sealed) (hw : n'.wire = n.wire) : n'.Sealed := by
  simp only [wire, Prod.mk.injEq] at hw
  obtain ⟨hcfg, hsent, hcalls, hpending⟩ := hw
  refine ⟨?_, ?_, ?_⟩
  · rw [hcfg]
    exact h.cfg
  · intro dest qs
    rw [hpending, hcalls]
    exact h.queued
  · rw [hsent, hcalls]
    exact h.sent

theorem transmit (h : n.Sealed) {dest : SocketAddr} {bytes : Bytes} {form : Form}
    (hnew : Accounted n.calls ⟨dest, bytes, form⟩) : (n.transmit dest bytes form).Sealed := by
  refine ⟨h.cfg, h.queued, fun s hs ↦ ?_⟩
  rcases List.mem_append.mp hs with hs | hs
  · exact h.sent s hs
  · rw [List.mem_singleton.mp hs]
    exact hnew

/-! ## Calls of `sendApp` -/

theorem append (h : n.Sealed) (dest : SocketAddr) {new : List Queued}
    (hnew : ∀ q ∈ new, q.call < n.calls.length) :
    { n with
      pendingWg :=
        n.pendingWg.insert dest ((n.pendingWg.lookup dest).getD [] ++ new) }.Sealed := by
  refine ⟨h.cfg, fun {dest' qs} hqs ↦ ?_, h.sent⟩
  rw [HashMap.lookup_insert_of] at hqs
  split_ifs at hqs
  · cases hqs
    intro q hq
    rcases List.mem_append.mp hq with hq | hq
    · rcases hold : n.pendingWg.lookup dest with _ | old
      · rw [hold] at hq
        cases hq
      · rw [hold] at hq
        exact h.queued hold q hq
    · exact hnew q hq
  · exact h.queued hqs

theorem enqueue (h : n.Sealed) (dest : SocketAddr) {q : Queued} (hq : q.call < n.calls.length) :
    (n.enqueue dest q).Sealed :=
  h.append dest (List.forall_mem_singleton.mpr hq)

theorem sendSealed (h : n.Sealed) (dest : SocketAddr) (pk : Bytes32) {q : Queued}
    (hq : q.call < n.calls.length) : (n.sendSealed dest pk q).Sealed := by
  rw [ShardNet.sendSealed]
  split
  · rename_i pkt n' heq
    have hw := wire_of_encapsulateTo heq
    have hn := h.of_wire hw
    refine transmit ?_ (.packet (tunnelPacket_of_encapsulateTo heq))
    split_ifs
    · exact hn.enqueue dest (calls_of_wire hw ▸ hq)
    · exact hn
  · rename_i n' heq
    have hw := wire_of_encapsulateTo heq
    have hn := (h.of_wire hw).enqueue dest (q := q) (calls_of_wire hw ▸ hq)
    split
    · rename_i heq'
      exact (hn.of_wire (wire_of_encapsulateTo heq')).transmit
        (.packet (tunnelPacket_of_encapsulateTo heq'))
    · rename_i heq'
      exact hn.of_wire (wire_of_encapsulateTo heq')

theorem sendRelayFrame (h : n.Sealed) (hop : SocketAddr) (dest : NodeId) {i : ℕ}
    {call : SendCall} (hcall : n.calls[i]? = some call) (hexposed : call.Exposed) :
    (n.sendRelayFrame hop dest call.app i).Sealed := by
  rw [ShardNet.sendRelayFrame]
  split_ifs
  · exact h
  · have hcorr : n.nextCorr.2.Sealed := h.of_wire rfl
    simp only
    split
    · rename_i frame hframe
      exact hcorr.transmit (.shown hcall hexposed (Or.inr ⟨_, _, _, hframe⟩))
    · exact hcorr

/-- The body of a call, under a number whose entry in the history is the call itself. -/
theorem deliver (h : n.Sealed) {dest : SocketAddr} {x25519 : Option Bytes32} {q : Queued}
    {call : SendCall} (hcall : n.calls[q.call]? = some call) (happ : call.app = q.app)
    (hkey : call.key = n.keyFor dest x25519) (hhop : call.hop = (n.hopFor dest).map Prod.snd) :
    (n.deliver dest x25519 q).Sealed := by
  rw [ShardNet.deliver]
  split_ifs
  · exact h
  · split
    · -- the relay hop is looked at before the key
      rename_i id hop heq
      rw [← happ]
      refine h.sendRelayFrame hop id hcall (Or.inr ?_)
      rw [hhop, heq]
      rfl
    · simp only
      split
      · rename_i hnone
        refine transmit ?_ (.shown hcall (Or.inl (hkey.trans hnone)) (Or.inl happ.symm))
        exact h.of_wire rfl
      · rename_i pk hpk
        rw [if_neg (by simp [h.cfg])]
        refine sendSealed ?_ dest pk (List.getElem?_eq_some_iff.mp hcall).1
        exact h.of_wire rfl

theorem logCall (h : n.Sealed) (dest : SocketAddr) (x25519 : Option Bytes32) (app : Bytes) :
    (n.logCall dest x25519 app).Sealed := by
  refine ⟨h.cfg, fun {dest' qs} hqs q hq ↦ ?_, fun s hs ↦ ?_⟩
  · rw [ShardNet.logCall, List.length_append]
    exact Nat.lt_add_right _ (h.queued hqs q hq)
  · exact (h.sent s hs).mono (List.prefix_append _ _)

theorem sendApp (h : n.Sealed) (dest : SocketAddr) (x25519 : Option Bytes32) (app : Bytes) :
    (n.sendApp dest x25519 app).Sealed :=
  deliver (h.logCall dest x25519 app) List.getElem?_concat_length rfl rfl rfl

/-! ## The queue of a destination -/

theorem flushLoop (h : n.Sealed) (dest : SocketAddr) (pk : Bytes32) (qs : List Queued) :
    (ShardNet.flushLoop dest pk qs n).1.Sealed ∧
      (ShardNet.flushLoop dest pk qs n).1.calls = n.calls ∧
      ∀ q ∈ (ShardNet.flushLoop dest pk qs n).2, q ∈ qs := by
  induction qs generalizing n with
  | nil => exact ⟨h, rfl, fun _ hq ↦ hq⟩
  | cons q qs ih =>
    rw [ShardNet.flushLoop]
    split
    · rename_i pkt n' heq
      have hw := wire_of_encapsulateTo heq
      have hn : (n'.transmit dest pkt .tunnel).Sealed :=
        (h.of_wire hw).transmit (.packet (tunnelPacket_of_encapsulateTo heq))
      have hc : n'.calls = n.calls := calls_of_wire hw
      split_ifs
      · exact ⟨hn, hc, fun _ hq ↦ hq⟩
      · obtain ⟨hsealed, hcalls, hsub⟩ := ih hn
        exact ⟨hsealed, hcalls.trans hc, fun q' hq' ↦ List.mem_cons_of_mem q (hsub q' hq')⟩
    · rename_i n' heq
      have hw := wire_of_encapsulateTo heq
      exact ⟨h.of_wire hw, calls_of_wire hw, fun _ hq ↦ hq⟩

theorem flushPendingWg (h : n.Sealed) {dest : SocketAddr}
    (hkey : (n.pendingWg.lookup dest).isSome = true → (n.keysByAddr.lookup dest).isSome = true) :
    (n.flushPendingWg dest).Sealed := by
  rw [ShardNet.flushPendingWg]
  rcases hqs : n.pendingWg.lookup dest with _ | queue
  · exact h
  obtain ⟨pk, hpk⟩ := Option.isSome_iff_exists.mp (hkey (by rw [hqs]; rfl))
  -- the queue leaves the map before the loop, which may have to put a part of it back
  have hrest : { n with pendingWg := n.pendingWg.erase dest }.Sealed := by
    refine ⟨h.cfg, fun {dest' qs} hqs' ↦ ?_, h.sent⟩
    rw [HashMap.lookup_erase_of] at hqs'
    split_ifs at hqs'
    exact h.queued hqs'
  have hloop := hrest.flushLoop dest pk queue
  simp only [hpk]
  split
  · rename_i n' heq
    rw [heq] at hloop
    exact hloop.1
  · rename_i n' leftover _ heq
    rw [heq] at hloop
    obtain ⟨hn', hcalls, hsub⟩ := hloop
    exact hn'.append dest fun q hq ↦ hcalls ▸ h.queued hqs q (hsub q hq)

/-! ## Handlers -/

theorem move (h : n.Sealed) (hm : Move n n') : n'.Sealed := by
  rcases hm with hpost | ⟨hwire, -⟩ | ⟨peer, peerId, endpoint⟩
  · rcases hpost with _ | ⟨dest, hctl⟩ | ⟨dest, x25519, app⟩
    · exact h.of_wire rfl
    · exact h.transmit (.control hctl)
    · exact h.sendApp dest x25519 app
  · exact h.of_wire hwire
  · exact h.of_wire rfl

theorem moves (h : n.Sealed) (hm : Moves n n') : n'.Sealed :=
  hm.invariant (fun _ _ hmove hn ↦ hn.move hmove) h

theorem onKeepalive (h : n.Sealed) : n.onKeepalive.Sealed := by
  have hpings := h.moves (Moves.of_posts (Posts.foldl Posts.sendPing (n.contacts.map Prod.snd) n))
  simp only [ShardNet.onKeepalive]
  refine of_wire (n := if _ then _ else _) ?_ rfl
  split_ifs
  · exact hpings
  · -- the packets that the timers make stand in one buffer, from which all of them are sent
    generalize (n.contacts.map Prod.snd).foldl sendPing n = n' at hpings ⊢
    have htick := congrArg Prod.fst
      (WgEngine.tickSessions_eq n'.now n'.wg.sessions.keys_nodup n'.wg poolBuffer [])
    refine List.foldlRecOn (motive := Sealed) _ _ (hpings.of_wire rfl) ?_
    intro n'' hn'' p _
    rw [WgEngine.tickKeepalive, htick]
    refine hn''.transmit (.keepalive (fun pkt hpkt ↦ ?_) _)
    obtain ⟨q, hq, rfl⟩ := List.mem_map.mp hpkt
    exact WgEngine.tunnelPacket_fired hq

end Sealed

end ShardNet

/-! ## The whole state -/

namespace ShardCtx

variable {c : ShardCtx}

theorem sealed_onTimer (h : c.Sealed) (kind : TimerKind) : (c.onTimer kind).Sealed := by
  by_cases hkind : kind = .keepalive
  · rw [hkind]
    exact ShardNet.Sealed.onKeepalive h
  · exact ShardNet.Sealed.moves h (c.moves_onTimer hkind)

theorem replies_of_decapsulate {c' : ShardCtx} {src : SocketAddr} {pkt : Bytes} {d : Decap}
    (heq : c.decapsulate src pkt = (d, c')) : d.Replies := by
  obtain rfl : (c.wg.decapsulate c.now src pkt).1 = d := congrArg Prod.fst heq
  exact c.wg.replies_decapsulate c.now src pkt

theorem sealed_of_decapsulate (h : c.Sealed) {c' : ShardCtx} {src : SocketAddr} {pkt : Bytes}
    {d : Decap} (heq : c.decapsulate src pkt = (d, c')) : c'.Sealed := by
  rw [eq_of_decapsulate heq]
  exact h.of_wire rfl

theorem sealed_handleDatagram (h : c.Sealed) (src : SocketAddr) (pkt : Bytes) :
    (c.handleDatagram src pkt).1.Sealed := by
  have hsybil : { c with sybil := (c.sybil.allowPreHandshake c.now src).2 }.toShardNet.Sealed :=
    h.of_wire rfl
  simp only [handleDatagram]
  split_ifs
  · exact hsybil
  · split
    · rename_i heq
      exact sealed_of_decapsulate hsybil heq
    · rename_i heq
      exact (sealed_of_decapsulate hsybil heq).transmit
        (.packet ((replies_of_decapsulate heq).network _ rfl))
    · rename_i heq
      obtain ⟨w, rfl⟩ := (replies_of_decapsulate heq).cookie _ rfl
      exact (sealed_of_decapsulate hsybil heq).transmit (.control (.cookie w))
    · rename_i heq
      exact sealed_of_decapsulate hsybil heq
  · exact h

theorem sealed_drainTurn (h : c.Sealed) (src : SocketAddr) : (c.drainTurn src).1.Sealed := by
  rw [drainTurn]
  split
  · rename_i heq
    exact (sealed_of_decapsulate h heq).transmit
        (.packet ((replies_of_decapsulate heq).network _ rfl))
  · rename_i heq
    exact sealed_of_decapsulate h heq
  · rename_i heq
    exact sealed_of_decapsulate h heq
  · rename_i heq
    exact sealed_of_decapsulate h heq

/-- A task that flushes a queue finds a key on record for the address. -/
def FlushKeyed (c : ShardCtx) : Task → Prop
  | .flush src =>
    (c.pendingWg.lookup src).isSome = true → (c.keysByAddr.lookup src).isSome = true
  | _ => True

theorem sealed_runTask (h : c.Sealed) {t : Task} (ht : c.FlushKeyed t) :
    (c.runTask t).1.Sealed := by
  cases t with
  | app src pkt authenticated =>
    exact ShardNet.Sealed.moves h (follows_handleApp ShardNet.Moves.follows c src pkt authenticated)
  | drain src => exact sealed_drainTurn h src
  | flush src => exact ShardNet.Sealed.flushPendingWg h ht
  | timer kind => exact sealed_onTimer h kind

end ShardCtx

/-! ## Runs -/

namespace Machine

/-- If the step flushes the queue of an address, a key is on record for the address. -/
def FlushKeyed (m : Machine) (e : Event) : Prop :=
  match e.input, m.work with
  | .work, t :: _ => (m.ctxAt e.env).FlushKeyed t
  | _, _ => True

theorem sealed_step {m : Machine} {e : Event} (h : m.ctx.Sealed) (he : m.FlushKeyed e) :
    (m.step e).ctx.Sealed := by
  have hat : (m.ctxAt e.env).Sealed := h.of_wire rfl
  rcases m.step_cases e with hm | ⟨src, pkt, -, hc, -⟩ | ⟨cmd, -, hc, -⟩ | ⟨timers, -, hc, -⟩ |
    ⟨t, ts, hin, hwork, hc, -⟩ | ⟨r, -, hc, -⟩ | ⟨-, hc, -⟩
  · rw [hm]
    exact h
  · rw [hc]
    exact ShardCtx.sealed_handleDatagram hat src pkt
  · rw [hc]
    exact ShardNet.Sealed.moves hat
      (ShardCtx.follows_handleCmd ShardNet.Moves.follows (m.ctxAt e.env) cmd _)
  · rw [hc]
    exact h.of_wire rfl
  · rw [hc]
    rw [FlushKeyed, hin, hwork] at he
    exact ShardCtx.sealed_runTask hat he
  · rw [hc]
    exact h.of_wire rfl
  · rw [hc]
    exact h.of_wire rfl

end Machine

end

/-! ## A relay hop recorded by a stranger -/

section

open Sample

/-- The codecs on the messages of the run below, and a tunnel that asks for a handshake first. -/
@[reducible] private def relayCrates : Crates :=
  { crates with
    record :=
      ⟨fun r ↦ [10, 32] ++ r.key ++ [32, UInt8.ofNat r.ttlSecs.toNat], fun _ ↦ none⟩
    storeReq := ⟨fun m ↦ [10, UInt8.ofNat m.record.length] ++ m.record, fun _ ↦ none⟩
    relay :=
      ⟨fun m ↦ [10, 32] ++ m.destId ++ [18, 32] ++ m.fromId
          ++ [26, UInt8.ofNat m.payload.length] ++ m.payload,
        fun b ↦
          if b = [10, 32] ++ ownerHash.val ++ [18, 32] ++ List.replicate 32 7 then
            some ⟨ownerHash.val, List.replicate 32 7, []⟩
          else none⟩
    tunnEncapsulate := fun _ _ _ ↦ (.writeToNetwork ([1, 0, 0, 0] ++ List.replicate 144 0), ()) }

attribute [local instance] relayCrates

private def peerAddr : SocketAddr := ⟨.v4 10 0 0 9, 9000, 0, 0⟩

private def strangerAddr : SocketAddr := ⟨.v4 10 0 0 66, 9000, 0, 0⟩

private def relayEnv : Env := ⟨1000, 1000000, 0, none⟩

/-- A peer with a known key, possibly a relay frame that names it as its sender, and a put. -/
private def relayRun (framed : Bool) : ShardRun where
  start :=
    { id := 0
      identity := ⟨(), Bytes32.fill 1⟩
      cfg := ⟨false, false, false⟩
      localAddr := ⟨.v4 10 0 0 1, 9000, 0, 0⟩
      env := relayEnv
      peers := Peerstore.memory
      store := .new }
  events :=
    [⟨relayEnv, .command (.injectPeer ⟨⟨Bytes32.fill 7⟩, [peerAddr], 0, some (Bytes32.fill 9)⟩)⟩] ++
      (if framed then
        [⟨relayEnv, .datagram strangerAddr ((Header.request .relay .coordination 5).bytes
          ++ [10, 32] ++ ownerHash.val ++ [18, 32] ++ List.replicate 32 7)⟩,
        ⟨relayEnv, .work⟩, ⟨relayEnv, .work⟩]
      else []) ++
      [⟨relayEnv, .command (.put [] 60)⟩]

/-- The call that passes the stored record on to the peer. -/
private def storeCall (hop : Option SocketAddr) : SendCall where
  dest := peerAddr
  x25519 := some (Bytes32.fill 9)
  app := (Header.request .storeReq .coordination 1).bytes
    ++ [10, 36] ++ [10, 32] ++ emptyKey.val.val ++ [32, 60]
  key := some (Bytes32.fill 9)
  hop := hop

end

end Molia
