import Molia.Net.RelayLedger
import Molia.Shard.Following
import Molia.Shard.Machine

/-!
# What a relay frame costs

A frame for another node is counted as sent before it is known whether the budget allows it, and
counted as relayed before it is known whether the node can be reached. A frame that goes no further
therefore leaves its length in the counters: a refused one raises what may be relayed later, and one
that cannot be delivered uses it up. Only a frame that is not offered for relaying, a frame without
a payload, and any frame at a node that does not relay cost nothing.
-/

namespace Molia

/-! ## The budget -/

theorem RelayState.budget_forward_iff (r : RelayState) (k : ℕ) :
    (r.forward k false).2.budget = r.budget ↔ r.enabled = false ∨ UInt64.ofNat k = 0 := by
  rw [forward]
  by_cases hoff : r.enabled = false
  · rw [if_pos ⟨hoff, rfl⟩]
    exact iff_of_true rfl (Or.inl hoff)
  · rw [if_neg fun hand ↦ hoff hand.1]
    constructor
    · intro hsame
      have hegress : r.budget.egress + UInt64.ofNat k = r.budget.egress :=
        (RelayLedger.egress_allow _ _).symm.trans (congrArg RelayBudget.egress hsame)
      exact Or.inr (UInt64.add_eq_left.mp hegress)
    · rintro (h | hzero)
      · exact absurd h hoff
      · have hcounted : r.budget.onEgress 0 = r.budget := by
          rw [RelayBudget.onEgress, UInt64.add_zero]
        rw [hzero, hcounted]
        rcases RelayLedger.allow_cases r.budget 0 with h | h
        · rw [h, UInt64.add_zero]
        · rw [h]

section

variable [Crates]

attribute [local irreducible] message

namespace ShardNet

/-! ## One frame -/

/-- The payload of a frame that is offered for relaying: one between two ids, for another node. -/
def offered (n : ShardNet) (pkt : Bytes) : Option Bytes :=
  match decodeBody Crates.relay pkt with
  | none => none
  | some r =>
    match NodeId.fromBytes r.destId, NodeId.fromBytes r.fromId with
    | some dest, some _ => if dest = n.identity.nodeId then none else some r.payload
    | _, _ => none

/-- The relay state after a frame. -/
def relayAfter (n : ShardNet) (pkt : Bytes) : RelayState :=
  match n.offered pkt with
  | none => n.relay
  | some payload => (n.relay.forward payload.length false).2

theorem relay_sendControl (n : ShardNet) (dest : SocketAddr) (pkt : Option Bytes) :
    (n.sendControl dest pkt).relay = n.relay := by
  cases pkt with
  | none => rfl
  | some p => rfl

theorem followsNotes_identity : FollowsNotes fun n n' ↦ n'.identity = n.identity where
  refl _ := rfl
  trans h h' := h'.trans h
  posts h := congrArg Knowledge.identity h.sends.knowledge
  relays _ _ _ := rfl
  sybil _ _ := rfl

theorem identity_onRelay (n : ShardNet) (src : SocketAddr) (pkt : Bytes) :
    (n.onRelay src pkt).1.identity = n.identity :=
  followsNotes_identity.onRelay n src pkt

/-- Whatever becomes of a frame, the relay state is decided by whether it was offered. -/
theorem relay_onRelay (n : ShardNet) (src : SocketAddr) (pkt : Bytes) :
    (n.onRelay src pkt).1.relay = n.relayAfter pkt := by
  rw [onRelay, relayAfter, offered]
  rcases decodeBody Crates.relay pkt with _ | r
  · rfl
  dsimp only
  rcases NodeId.fromBytes r.destId with _ | dest
  · rfl
  rcases NodeId.fromBytes r.fromId with _ | sender
  · rfl
  dsimp only
  by_cases hself : dest = n.identity.nodeId
  · rw [if_pos hself, if_pos hself]
  · rw [if_neg hself, if_neg hself]
    split_ifs
    · rfl
    · dsimp only
      split
      · rfl
      · exact relay_sendControl _ _ _

/-- A frame costs something: the node relays, and is offered a frame with a payload. -/
def Costs (n : ShardNet) (pkt : Bytes) : Prop :=
  n.relay.enabled = true ∧ ∃ payload, n.offered pkt = some payload ∧
    UInt64.ofNat payload.length ≠ 0

theorem budget_onRelay_iff (n : ShardNet) (src : SocketAddr) (pkt : Bytes) :
    (n.onRelay src pkt).1.relay.budget = n.relay.budget ↔ ¬n.Costs pkt := by
  rw [relay_onRelay, relayAfter, Costs]
  rcases n.offered pkt with _ | payload
  · simp
  · dsimp only
    rw [RelayState.budget_forward_iff]
    simp [imp_iff_not_or]

/-- Whether a frame costs something depends on the node only through what no frame changes. -/
theorem costs_congr {n m : ShardNet} (hid : m.identity = n.identity)
    (hrelay : m.relay.enabled = n.relay.enabled) (pkt : Bytes) : m.Costs pkt ↔ n.Costs pkt := by
  rw [Costs, Costs, offered, offered, hid, hrelay]

theorem enabled_relayAfter (n : ShardNet) (pkt : Bytes) :
    (n.relayAfter pkt).enabled = n.relay.enabled := by
  rw [relayAfter]
  rcases n.offered pkt with _ | payload
  · rfl
  · dsimp only
    rw [RelayState.forward]
    split_ifs
    · rfl
    · rfl

/-! ## Runs of frames -/

/-- A frame that comes in. -/
def relayStep (n : ShardNet) (frame : SocketAddr × Bytes) : ShardNet :=
  (n.onRelay frame.1 frame.2).1

/-- The frame is not passed on. -/
def Undelivered (n : ShardNet) (frame : SocketAddr × Bytes) : Prop :=
  (n.relayStep frame).sent = n.sent

instance (n : ShardNet) (frame : SocketAddr × Bytes) : Decidable (n.Undelivered frame) :=
  inferInstanceAs (Decidable (_ = _))

/-- **What undelivered frames cost.** In a run of frames of which none is passed on, the counters of
the budget stay as they were throughout if and only if no frame of the run costs something: the node
does not relay, or none with a payload is offered for relaying. -/
theorem undelivered_budget_iff {n : ShardNet} {frames : List (SocketAddr × Bytes)}
    (hrun : Runs.Along relayStep Undelivered n frames) :
    Runs.Throughout relayStep (fun m ↦ m.relay.budget = n.relay.budget) n frames ↔
      ∀ frame ∈ frames, ¬n.Costs frame.2 := by
  have hstep : Runs.Throughout relayStep (fun m ↦ m.relay.budget = n.relay.budget) n frames ↔
      Runs.Along relayStep (fun _ frame ↦ ¬n.Costs frame.2) n frames := by
    refine Runs.throughout_iff_along
      (I := fun m ↦ m.relay.budget = n.relay.budget ∧ m.identity = n.identity ∧
        m.relay.enabled = n.relay.enabled)
      hrun (fun m hm ↦ hm.1) ?_ ?_ ⟨rfl, rfl, rfl⟩
    · rintro m ⟨src, pkt⟩ ⟨hbudget, hid, hon⟩ - hfree
      have hfree' : ¬m.Costs pkt := fun h ↦ hfree ((costs_congr hid hon pkt).mp h)
      refine ⟨((m.budget_onRelay_iff src pkt).mpr hfree').trans hbudget,
        (m.identity_onRelay src pkt).trans hid, ?_⟩
      rw [relayStep, relay_onRelay, enabled_relayAfter, hon]
    · rintro m ⟨src, pkt⟩ ⟨hbudget, hid, hon⟩ - hsame
      have hsame' : (m.onRelay src pkt).1.relay.budget = m.relay.budget :=
        hsame.trans hbudget.symm
      exact fun h ↦ (m.budget_onRelay_iff src pkt).mp hsame' ((costs_congr hid hon pkt).mpr h)
  rw [hstep, Runs.along_iff_forall]

end ShardNet

end

/-! ## A flood -/

section

open Sample

attribute [local instance] wireCrates

/-- A node that has just started, as a relay or not, and knows nobody. -/
private def strangerNode (enabled : Bool) : ShardNet :=
  ShardNet.start 0 (identity .second) ⟨true, false, enabled⟩ (.ofV4 10 0 0 66 9000) noon
    Peerstore.memory

/-- A frame for a third node. -/
private def strayFrame : SocketAddr × Bytes :=
  (.ofV4 10 0 0 9 9000, (Header.request .relay .coordination 1).bytes
    ++ Proto.relayWire.encode ⟨(identity .third).nodeId.val.val, (identity .first).nodeId.val.val,
      [1, 2, 3, 4]⟩)

/-- Where the relay is off, two frames cost nothing. -/
theorem ShardNet.undelivered_budget_off :
    Runs.Throughout ShardNet.relayStep
      (fun m ↦ m.relay.budget = (strangerNode false).relay.budget) (strangerNode false)
      [strayFrame, strayFrame] :=
  (ShardNet.undelivered_budget_iff (by decide +kernel)).mpr fun _ _ h ↦
    absurd h.1 (by decide +kernel)

/-- Where it is on, a frame that is refused is counted as sent. -/
theorem ShardNet.undelivered_budget_fails :
    ¬∀ (_ : Crates) (n : ShardNet) (src : SocketAddr) (pkt : Bytes),
      (n.onRelay src pkt).1.sent = n.sent →
      (n.onRelay src pkt).1.relay.budget = n.relay.budget := by
  intro hall
  have hsame := hall wireCrates (strangerNode true) strayFrame.1 strayFrame.2 (by decide +kernel)
  revert hsame
  decide +kernel

-- the fifth of five such frames is within the budget that the first four have raised, and uses it
-- up for a node that cannot be reached
example : Runs.Along ShardNet.relayStep ShardNet.Undelivered (strangerNode true)
      (List.replicate 5 strayFrame) ∧
    ((List.replicate 5 strayFrame).foldl ShardNet.relayStep (strangerNode true)).relay.budget
      = ⟨20, 4⟩ := by
  decide +kernel

end

end Molia
