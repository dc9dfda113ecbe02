import Molia.Net.Failures
import Molia.Shard.TableWrites

/-!
# Dead peers

A peer that does not answer is to leave the routing table at its third timeout. The table counts its
timeouts, but every insertion of the peer sets the count back, and a shard inserts peers it merely
hears of: those a FIND_NODE or FIND_VALUE answer lists, and the sender a PUNCH names. As long as
others keep mentioning a dead peer between its timeouts, it stays.

The tables of a run are numbered by the operations made so far (`tableAfter`), since one expiry of
the lookup timer may count several timeouts of one peer.
-/

namespace Molia

section

variable [Crates]

/-- The address a datagram comes from. -/
def Input.source : Input → Option SocketAddr
  | .datagram src _ => some src
  | _ => none

/-- The operations that some steps make on the table, one after the other. -/
def Machine.tableHistory (m : Machine) : List Event → List TableOp
  | [] => []
  | e :: es => m.tableOps e ++ (m.step e).tableHistory es

theorem Machine.table_foldl_step (m : Machine) (es : List Event) :
    (es.foldl step m).ctx.table = (m.tableHistory es).foldl RoutingTable.apply m.ctx.table := by
  induction es generalizing m with
  | nil => rfl
  | cons e es ih => rw [List.foldl_cons, ih, tableHistory, List.foldl_append, table_step]

namespace ShardRun

open RoutingTable

variable (run : ShardRun)

/-- The operations of a run on its table. -/
def tableOps : List TableOp := run.start.machine.tableHistory run.events

/-- The table after so many operations. -/
def tableAfter (n : ℕ) : RoutingTable :=
  (run.tableOps.take n).foldl apply (new run.start.identity.nodeId)

theorem table_final : run.final.ctx.table = run.tableAfter run.tableOps.length := by
  rw [tableAfter, List.take_length]
  exact Machine.table_foldl_step run.start.machine run.events

theorem tableAfter_succ {n : ℕ} {op : TableOp} (h : run.tableOps[n]? = some op) :
    run.tableAfter (n + 1) = (run.tableAfter n).apply op := by
  rw [tableAfter, List.take_add_one, h, List.foldl_append]
  rfl

/-- **Dead peers.** The operations number `j` and `k` are timeouts of a peer, with none of its
timeouts between them nor between `i` and `j`. After `k` the peer is not in the table exactly if it
was not there before `k`, or else its count was never zero after `i`, and the eviction promotes no
other entry of it. The last of the tables is the one that the run ends with. -/
theorem third_timeout_iff (p : NodeId) {i j k : ℕ} (hij : i < j) (hjk : j < k)
    (hj : run.tableOps[j]? = some (.markFail p)) (hk : run.tableOps[k]? = some (.markFail p))
    (hbetween : ∀ n, i < n → n < k → n ≠ j → run.tableOps[n]? ≠ some (.markFail p)) :
    run.final.ctx.table = run.tableAfter run.tableOps.length ∧
      ((run.tableAfter (k + 1)).get p = none ↔ (run.tableAfter k).get p = none ∨
        ((∀ n, i < n → n ≤ k → (run.tableAfter n).failures p ≠ some 0) ∧
          ∀ e ∈ (run.tableAfter k).promoted p, e.id ≠ p)) := by
  refine ⟨run.table_final, ?_⟩
  have hnot (a b : ℕ) (ha : i < a) (hb : b ≤ k) (hne : b ≤ j ∨ j < a) :
      .markFail p ∉ (run.tableOps.take b).drop a := by
    intro hmem
    obtain ⟨n, hn⟩ := List.getElem?_of_mem hmem
    rw [List.getElem?_drop, List.getElem?_take] at hn
    split_ifs at hn with hlt
    exact hbetween (a + n) (by omega) (by omega) (by omega) hn
  have hcut := Runs.between_eq (Nat.succ_le_of_lt hij) hjk hj
  have hthird := get_markFail_third_iff (tallied_foldl run.start.identity.nodeId p
    (run.tableOps.take (i + 1))) (hnot (i + 1) j (Nat.lt_succ_self i) hjk.le (Or.inl le_rfl))
    (hnot (j + 1) k (by omega) le_rfl (Or.inr (Nat.lt_succ_self j)))
  have hlen : k ≤ run.tableOps.length := (List.getElem?_eq_some_iff.mp hk).1.le
  have hik : i + 1 ≤ k := by omega
  rw [← hcut, Runs.foldl_between hik, Runs.throughout_between_iff hik hlen] at hthird
  rw [tableAfter_succ run hk]
  exact hthird

end ShardRun

end

/-! ## A dead peer that is mentioned -/

section

open Sample

attribute [local instance] wireCrates

private def deadAddr : SocketAddr := .ofV4 10 0 0 9 9000

private def deadPeer : PeerInfo := .new ⟨Bytes32.fill 9⟩ deadAddr

private def gossipAddr : SocketAddr := .ofV4 10 0 0 8 9000

private def gossipHeader : Header := Header.response .findNodeResp .coordination 77

/-- An answer of another peer, which lists itself and the dead peer. -/
private def gossipAnswer : Bytes :=
  gossipHeader.bytes ++ Proto.findNodeRespWire.encode
    ⟨[⟨List.replicate 32 8, [⟨multiaddr gossipAddr⟩], 0, []⟩,
      ⟨List.replicate 32 9, [⟨multiaddr deadAddr⟩], 0, []⟩]⟩

private def afterNoon (ms : ℕ) : Env := { noon with instant := noon.instant + ms * millis }

/-- The timers expire, and those that are due are dealt with. -/
private def expiry (ms : ℕ) : List Event :=
  [⟨afterNoon ms, .tick⟩, ⟨afterNoon ms, .work⟩, ⟨afterNoon ms, .work⟩]

/-- A shard asks its only peer for two keys, and again after both requests have timed out. What is
received in between is given. -/
private def deadRun (received : List Event) : ShardRun where
  start := shardStart ⟨true, false, false⟩
  events := [⟨noon, .command (.injectPeer deadPeer)⟩, ⟨noon, .command (.get emptyKey)⟩,
    ⟨noon, .command (.get ⟨Bytes32.fill 1⟩)⟩] ++ expiry 450 ++ received ++ expiry 900

private theorem tableOps_deadRun : (deadRun []).tableOps =
    [.insert noon.instant deadPeer, .markFail deadPeer.id, .markFail deadPeer.id,
      .markFail deadPeer.id, .markFail deadPeer.id] := by
  decide +kernel

/-- With nothing received, the third timeout evicts the peer. -/
theorem third_timeout_silence : ((deadRun []).tableAfter 4).get deadPeer.id = none := by
  have hops := tableOps_deadRun
  refine ((deadRun []).third_timeout_iff deadPeer.id (i := 1) (j := 2) (k := 3) (by decide)
    (by decide) (by rw [hops]; rfl) (by rw [hops]; rfl) (by omega)).2.mpr (Or.inr ⟨?_, ?_⟩)
  · intro n hn hle
    rw [ShardRun.tableAfter, hops]
    obtain rfl | rfl : n = 2 ∨ n = 3 := by omega
    · decide +kernel
    · decide +kernel
  · rw [ShardRun.tableAfter, hops]
    decide +kernel

private def gossipRun : ShardRun :=
  deadRun [⟨afterNoon 500, .datagram gossipAddr gossipAnswer⟩, ⟨afterNoon 500, .work⟩]

private theorem tableOps_gossipRun : gossipRun.tableOps =
    [.insert noon.instant deadPeer, .markFail deadPeer.id, .markFail deadPeer.id,
      .insert (afterNoon 500).instant (.new ⟨Bytes32.fill 8⟩ gossipAddr),
      .insert (afterNoon 500).instant deadPeer,
      .insert (afterNoon 500).instant (.new ⟨Bytes32.fill 8⟩ gossipAddr),
      .touchOk (afterNoon 500).instant ⟨Bytes32.fill 8⟩ 80000,
      .markFail deadPeer.id, .markFail deadPeer.id] := by
  decide +kernel

/-- The peer is mentioned after its second timeout, and is still in the table after the third. -/
theorem third_timeout_fails :
    ¬∀ (_ : Crates) (run : ShardRun) (p : NodeId) (i j k : ℕ), i < j → j < k →
      run.tableOps[i]? = some (.markFail p) → run.tableOps[j]? = some (.markFail p) →
      run.tableOps[k]? = some (.markFail p) →
      (∀ ev ∈ run.events, ∀ src ∈ ev.input.source,
        ∀ e ∈ (run.tableAfter i).get p, src ∉ e.info.addrs) →
      (run.tableAfter (k + 1)).get p = none := by
  intro hall
  have hops := tableOps_gossipRun
  have hgone := hall wireCrates gossipRun deadPeer.id 1 2 7 (by decide) (by decide)
    (by rw [hops]; rfl) (by rw [hops]; rfl) (by rw [hops]; rfl)
    (by rw [ShardRun.tableAfter, hops]; decide +kernel)
  rw [ShardRun.tableAfter, hops] at hgone
  revert hgone
  decide +kernel

end

end Molia
