import Molia.Shard.Machine

/-!
# The queue of a destination

Messages that had to wait for a handshake are flushed in order. A flush encapsulates one after the
other and stops at the first that gets no data packet: a handshake takes its place, or nothing comes
out at all. Whatever the tunnel does, the messages before that point have been sent, each as the
packet made from it and in order, and the others are the queue that is left (`Flushed`).
-/

namespace Molia

section

variable [Crates]

/-- What a tunnel makes of messages that it is given one after the other. -/
def WgEngine.encapsulations (now : ℕ) (dest : SocketAddr) (pk : Bytes32) :
    List Queued → WgEngine → List (Option Bytes)
  | [], _ => []
  | q :: qs, w =>
    let (pkt, w) := w.encapsulateTo now dest pk none (wrapRpc q.app)
    pkt :: encapsulations now dest pk qs w

namespace ShardNet

variable {n n₁ n' : ShardNet} {dest : SocketAddr} {pk : Bytes32} {q : Queued}
  {qs queue done rest : List Queued} {pkt : Bytes} {pkts : List Bytes}

/-- The messages `done` of a queue went out as the packets `pkts`, and `rest` is left. The packet
made of the next message, if there is one, is a handshake and went out too. -/
structure Carried (n : ShardNet) (dest : SocketAddr) (pk : Bytes32) (queue : List Queued)
    (n' : ShardNet) (done rest : List Queued) (pkts : List Bytes) : Prop where
  split : queue = done ++ rest
  made : (n.wg.encapsulations n.now dest pk queue).take done.length = pkts.map some
  data : ∀ pkt ∈ pkts, isInitiation pkt = false
  next : ∀ pkt, (n.wg.encapsulations n.now dest pk queue)[done.length]? = some (some pkt) →
    isInitiation pkt = true
  sent : n'.sent = n.sent
    ++ (pkts ++ (n.wg.encapsulations n.now dest pk queue)[done.length]?.join.toList).map
      fun pkt ↦ ⟨dest, pkt, .tunnel⟩

theorem encapsulations_cons {r : Option Bytes}
    (h : n.encapsulateTo dest pk (wrapRpc q.app) = (r, n₁)) (qs : List Queued) :
    n.wg.encapsulations n.now dest pk (q :: qs)
      = r :: n₁.wg.encapsulations n₁.now dest pk qs := by
  obtain ⟨rfl, rfl⟩ := Prod.mk.inj h
  rfl

namespace Carried

theorem nil (n : ShardNet) (dest : SocketAddr) (pk : Bytes32) :
    Carried n dest pk [] n [] [] [] where
  split := rfl
  made := rfl
  data := List.forall_mem_nil _
  next _ h := by cases h
  sent := (List.append_nil _).symm

theorem of_none (h : n.encapsulateTo dest pk (wrapRpc q.app) = (none, n₁)) (qs : List Queued) :
    Carried n dest pk (q :: qs) n₁ [] (q :: qs) [] := by
  have hsent : n₁.sent = n.sent := congrArg (ShardNet.sent ∘ Prod.snd) h.symm
  refine ⟨rfl, rfl, List.forall_mem_nil _, fun pkt hpkt ↦ ?_, ?_⟩
  · rw [encapsulations_cons h] at hpkt
    cases hpkt
  · rw [encapsulations_cons h, hsent]
    simp

theorem of_initiation (h : n.encapsulateTo dest pk (wrapRpc q.app) = (some pkt, n₁))
    (hinit : isInitiation pkt = true) (qs : List Queued) :
    Carried n dest pk (q :: qs) (n₁.transmit dest pkt .tunnel) [] (q :: qs) [] := by
  have hsent : n₁.sent = n.sent := congrArg (ShardNet.sent ∘ Prod.snd) h.symm
  refine ⟨rfl, rfl, List.forall_mem_nil _, fun pkt' hpkt ↦ ?_, ?_⟩
  · rw [encapsulations_cons h] at hpkt
    cases hpkt
    exact hinit
  · rw [encapsulations_cons h, transmit, hsent]
    simp

theorem cons (h : n.encapsulateTo dest pk (wrapRpc q.app) = (some pkt, n₁))
    (hdata : isInitiation pkt = false)
    (hrest : Carried (n₁.transmit dest pkt .tunnel) dest pk qs n' done rest pkts) :
    Carried n dest pk (q :: qs) n' (q :: done) rest (pkt :: pkts) := by
  have hsent : n₁.sent = n.sent := congrArg (ShardNet.sent ∘ Prod.snd) h.symm
  have hmade := encapsulations_cons h qs
  obtain ⟨rfl, hmade', hdata', hnext, hout⟩ := hrest
  refine ⟨rfl, ?_, List.forall_mem_cons.mpr ⟨hdata, hdata'⟩, ?_, ?_⟩
  · rw [hmade, List.length_cons, List.take_succ_cons, List.map_cons]
    exact congrArg _ hmade'
  · rw [hmade]
    exact hnext
  · rw [hmade, hout]
    show n₁.sent ++ [⟨dest, pkt, .tunnel⟩] ++ List.map _ (pkts ++
      (n₁.wg.encapsulations n₁.now dest pk (done ++ rest))[done.length]?.join.toList) = _
    simp [hsent]

end Carried

/-- The loop sends a part of the queue and hands back the others. -/
theorem carried_flushLoop (dest : SocketAddr) (pk : Bytes32) (queue : List Queued)
    (n : ShardNet) :
    (flushLoop dest pk queue n).1.pendingWg = n.pendingWg ∧
      ∃ done pkts, Carried n dest pk queue (flushLoop dest pk queue n).1 done
        (flushLoop dest pk queue n).2 pkts := by
  induction queue generalizing n with
  | nil => exact ⟨rfl, [], [], .nil n dest pk⟩
  | cons q qs ih =>
    rcases henc : n.encapsulateTo dest pk (wrapRpc q.app) with ⟨r, n₁⟩
    have hpending : n₁.pendingWg = n.pendingWg := congrArg (ShardNet.pendingWg ∘ Prod.snd) henc.symm
    rw [flushLoop, henc]
    -- a turn without a data packet is the last one, and its message is handed back
    rcases r with _ | pkt
    · exact ⟨hpending, [], [], .of_none henc qs⟩
    dsimp only
    by_cases hinit : isInitiation pkt = true
    · rw [if_pos hinit]
      exact ⟨hpending, [], [], .of_initiation henc hinit qs⟩
    · rw [if_neg hinit]
      obtain ⟨hpending', done, pkts, hrest⟩ := ih (n₁.transmit dest pkt .tunnel)
      exact ⟨hpending'.trans hpending, q :: done, pkt :: pkts,
        .cons henc (Bool.eq_false_of_not_eq_true hinit) hrest⟩

/-- How a flush ends. -/
structure Flushed (n : ShardNet) (dest : SocketAddr) (pk : Bytes32) (queue : List Queued)
    (n' : ShardNet) (done rest : List Queued) (pkts : List Bytes) : Prop
    extends Carried n dest pk queue n' done rest pkts where
  left : (n'.pendingWg.lookup dest).getD [] = rest
  others : ∀ dest', dest' ≠ dest → n'.pendingWg.lookup dest' = n.pendingWg.lookup dest'

/-- **A flush loses, doubles and reorders nothing**, whatever the tunnel makes of the messages. -/
theorem flushed_flushPendingWg (n : ShardNet) (dest : SocketAddr) {queue : List Queued}
    {pk : Bytes32} (hqueue : n.pendingWg.lookup dest = some queue)
    (hkey : n.keysByAddr.lookup dest = some pk) :
    ∃ done rest pkts, Flushed n dest pk queue (n.flushPendingWg dest) done rest pkts := by
  obtain ⟨hpending, done, pkts, hcarried⟩ :=
    carried_flushLoop dest pk queue { n with pendingWg := n.pendingWg.erase dest }
  rw [flushPendingWg, hqueue]
  simp only [hkey]
  generalize flushLoop dest pk queue { n with pendingWg := n.pendingWg.erase dest } = r
    at hpending hcarried ⊢
  obtain ⟨n', rest⟩ := r
  obtain ⟨hsplit, hmade, hdata, hnext, hsent⟩ := hcarried
  have hlookup (dest' : SocketAddr) :
      n'.pendingWg.lookup dest' = if dest' = dest then none else n.pendingWg.lookup dest' := by
    rw [hpending]
    exact HashMap.lookup_erase_of _ _ _
  refine ⟨done, rest, pkts, ?_⟩
  rcases rest with _ | ⟨q, rest⟩
  · refine ⟨⟨hsplit, hmade, hdata, hnext, hsent⟩, ?_, fun dest' hne ↦ ?_⟩
    · simp [hlookup]
    · rw [hlookup, if_neg hne]
  · refine ⟨⟨hsplit, hmade, hdata, hnext, hsent⟩, ?_, fun dest' hne ↦ ?_⟩
    · simp [hlookup]
    · simp [hlookup, hne]

end ShardNet

end

section

/-- Tunnels that carry one message, in the clear, and then start a new handshake. -/
@[reducible] private def onceCrates : Crates :=
  { Sample.crates with
    Tunn := Bool
    tunnNew := fun _ _ _ ↦ true
    tunnEncapsulate := fun t _ p ↦
      (.writeToNetwork (u32ToLe (if t then wgTypeData else wgTypeInitiation) ++ u32ToLe 1 ++ p),
        false)
    tunnDecapsulate := fun t _ _ _ ↦ (.done, t)
    tunnUpdateTimers := fun t _ ↦ (.done, t) }

attribute [local instance] onceCrates

private def flushAddr : SocketAddr := .ofV4 10 0 0 9 9000

/-- A shard with two messages that wait. -/
private def flushNet : ShardNet :=
  let start : ShardStart :=
    { id := 0
      identity := ⟨(), Bytes32.fill 1⟩
      cfg := ⟨false, false, false⟩
      localAddr := .ofV4 10 0 0 1 9000
      env := ⟨1000, 1000000, 0, none⟩
      peers := Peerstore.memory
      store := .new }
  { start.machine.ctx.toShardNet with
    keysByAddr := AList.insert flushAddr (Bytes32.fill 9) ∅
    pendingWg := AList.insert flushAddr [⟨[7], 0⟩, ⟨[8], 1⟩] ∅ }

/-- The first of the two messages is sent, and the second is left. -/
theorem ShardNet.flushed_flushPendingWg_two :
    ∃ pkts, Flushed flushNet flushAddr (Bytes32.fill 9) [⟨[7], 0⟩, ⟨[8], 1⟩]
      (flushNet.flushPendingWg flushAddr) [⟨[7], 0⟩] [⟨[8], 1⟩] pkts := by
  obtain ⟨done, rest, pkts, h⟩ := flushed_flushPendingWg flushNet flushAddr rfl rfl
  obtain rfl : [⟨[8], 1⟩] = rest := by
    rw [← h.left]
    decide +kernel
  obtain rfl : [⟨[7], 0⟩] = done := List.append_cancel_right h.split
  exact ⟨pkts, h⟩

end

end Molia
