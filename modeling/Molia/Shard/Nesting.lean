import Molia.General.Substrings
import Molia.Shard.Machine
import Molia.Shard.PeerLists

/-!
# Frames within frames

The payload of a relay frame for this node is handled like a datagram, and it may be a relay frame
again. The source has no limit on the depth: `handle_app` calls `on_relay`, which calls `handle_app`
on the payload.

What bounds it is the length. A frame whose payload is handled carries two ids of 32 bytes behind a
header of 12, and the payload stands beside them in the same bytes (`RelayApart`), so that it is
shorter by 76. `handleNested` is the recursion of the source, with a list of readings of the clocks,
one for each level; it comes to an end if there are more readings than the datagram has room for
levels. A shard whose next task is the datagram does the same in that many steps.
-/

namespace Molia

section

variable [Crates]

attribute [local irreducible] message

/-- What a relay frame is read as are disjoint parts of its bytes. -/
def RelayApart : Prop :=
  ∀ (b : Bytes) (r : Proto.Relay), Crates.relay.decode b = some r →
    Substrings.Apart [r.destId, r.fromId, r.payload] b

/-- What a frame takes beside its payload: a header and two ids. -/
def frameOverhead : ℕ := headerLen + 32 + 32

theorem ShardNet.decode_of_onRelay {n : ShardNet} {src : SocketAddr} {pkt payload : Bytes}
    (h : (n.onRelay src pkt).2 = some payload) :
    ∃ r dest sender, decodeBody Crates.relay pkt = some r ∧ NodeId.fromBytes r.destId = some dest ∧
      NodeId.fromBytes r.fromId = some sender ∧ r.payload = payload := by
  rw [onRelay] at h
  rcases hdec : decodeBody Crates.relay pkt with _ | r
  · rw [hdec] at h
    cases h
  rw [hdec] at h
  dsimp only at h
  rcases hdest : NodeId.fromBytes r.destId with _ | dest
  · rw [hdest] at h
    cases h
  rcases hsender : NodeId.fromBytes r.fromId with _ | sender
  · rw [hdest, hsender] at h
    cases h
  rw [hdest, hsender] at h
  dsimp only at h
  refine ⟨r, dest, sender, rfl, hdest, hsender, ?_⟩
  by_cases hself : dest = n.identity.nodeId
  · rw [if_pos hself] at h
    exact Option.some.inj h
  · -- a frame for another node is passed on or dropped
    rw [if_neg hself] at h
    split_ifs at h
    split at h
    · cases h
    · cases h

theorem ShardNet.length_payload (happart : RelayApart) {n : ShardNet} {src : SocketAddr}
    {pkt payload : Bytes} (h : (n.onRelay src pkt).2 = some payload) :
    payload.length + frameOverhead ≤ pkt.length := by
  obtain ⟨r, dest, sender, hdec, hdest, hsender, rfl⟩ := decode_of_onRelay h
  rw [decodeBody] at hdec
  split_ifs at hdec with hshort
  have hparts := (happart _ r hdec).sum_length_le
  have hids : [r.destId, r.fromId, r.payload].map List.length = [32, 32, r.payload.length] := by
    rw [List.map_cons, List.map_cons, List.map_singleton, length_of_fromBytes hdest,
      length_of_fromBytes hsender]
  have hsum : [32, 32, r.payload.length].sum = 64 + r.payload.length := by
    simp only [List.sum_cons, List.sum_nil]
    omega
  rw [hids, hsum, List.length_drop] at hparts
  rw [frameOverhead]
  omega

namespace ShardCtx

variable {c c' : ShardCtx} {src : SocketAddr} {pkt payload : Bytes} {authenticated : Bool}

theorem onRelay_of_handleApp (h : (c.handleApp src pkt authenticated).2 = some payload) :
    (c.toShardNet.onRelay src pkt).2 = some payload := by
  rw [handleApp] at h
  rcases hdec : Header.decode pkt with _ | header
  · rw [hdec] at h
    cases h
  rw [hdec] at h
  dsimp only at h
  generalize header.ty = ty at h
  cases ty with
  | relay => exact h
  | _ => cases h

theorem length_inner (happart : RelayApart)
    (h : (c.handleApp src pkt authenticated).2 = some payload) :
    payload.length + frameOverhead ≤ pkt.length :=
  ShardNet.length_payload happart (onRelay_of_handleApp h)

/-- Handle a message and all that is nested in it. The second component is the depth of the
nesting; there is no result if the readings of the clocks do not suffice. -/
def handleNested (c : ShardCtx) (src : SocketAddr) (pkt : Bytes) (authenticated : Bool) :
    List Env → Option (ShardCtx × ℕ)
  | [] => none
  | env :: envs =>
    match { c with env }.handleApp src pkt authenticated with
    | (c, none) => some (c, 0)
    | (c, some payload) => (c.handleNested src payload false envs).map fun r ↦ (r.1, r.2 + 1)

theorem handleNested_of_none {env : Env} {envs : List Env}
    (h : { c with env }.handleApp src pkt authenticated = (c', none)) :
    c.handleNested src pkt authenticated (env :: envs) = some (c', 0) := by
  rw [handleNested, h]

theorem handleNested_of_some {env : Env} {envs : List Env}
    (h : { c with env }.handleApp src pkt authenticated = (c', some payload)) :
    c.handleNested src pkt authenticated (env :: envs)
      = (c'.handleNested src payload false envs).map fun r ↦ (r.1, r.2 + 1) := by
  rw [handleNested, h]

/-- **The recursion ends.** -/
theorem exists_handleNested (happart : RelayApart) {envs : List Env}
    (henvs : pkt.length / frameOverhead < envs.length) :
    ∃ c' depth, c.handleNested src pkt authenticated envs = some (c', depth) ∧
      depth ≤ pkt.length / frameOverhead := by
  have hoverhead : frameOverhead = 76 := rfl
  induction envs generalizing c pkt authenticated with
  | nil => exact absurd henvs (Nat.not_lt_zero _)
  | cons env envs ih =>
    rcases happ : { c with env }.handleApp src pkt authenticated with ⟨c', _ | payload⟩
    · exact ⟨c', 0, handleNested_of_none happ, Nat.zero_le _⟩
    · -- the payload is shorter by what one level takes
      have hshorter := length_inner happart (congrArg Prod.snd happ)
      rw [List.length_cons] at henvs
      have hfewer : payload.length / frameOverhead + 1 ≤ pkt.length / frameOverhead := by
        rw [hoverhead] at hshorter ⊢
        omega
      obtain ⟨c'', depth, hnested, hdepth⟩ : ∃ c'' depth,
          c'.handleNested src payload false envs = some (c'', depth) ∧
            depth ≤ payload.length / frameOverhead := ih (by omega)
      refine ⟨c'', depth + 1, ?_, by omega⟩
      rw [handleNested_of_some happ, hnested]
      rfl

end ShardCtx

/-! ## The machine -/

namespace Machine

/-- A shard whose next task is a message handles it, and what is nested in it, before the rest. -/
theorem foldl_work_of_handleNested {m : Machine} {src : SocketAddr} {pkt : Bytes}
    {authenticated : Bool} {ts : List Task} {envs : List Env} {c' : ShardCtx} {depth : ℕ}
    (hwork : m.work = .app src pkt authenticated :: ts)
    (h : m.ctx.handleNested src pkt authenticated envs = some (c', depth)) :
    (envs.take (depth + 1)).foldl (fun m env ↦ m.step ⟨env, .work⟩) m
      = { m with ctx := c', work := ts } := by
  induction envs generalizing m pkt authenticated depth with
  | nil => cases h
  | cons env envs ih =>
    have hstep := step_work hwork env
    rcases happ : (m.ctxAt env).handleApp src pkt authenticated with ⟨c₁, _ | payload⟩
    · rw [ShardCtx.handleNested_of_none happ] at h
      cases h
      rw [List.take_succ_cons, List.take_zero, List.foldl_cons, List.foldl_nil, hstep,
        ShardCtx.runTask, happ]
      rfl
    · rw [ShardCtx.handleNested_of_some happ] at h
      obtain ⟨⟨c₂, depth'⟩, hnested, hr⟩ := Option.map_eq_some_iff.mp h
      cases hr
      rw [ShardCtx.runTask, happ] at hstep
      rw [List.take_succ_cons, List.foldl_cons, hstep]
      exact ih (m := { m with ctx := c₁, work := .app src payload false :: ts }) rfl hnested

/-- **Nested frames come to an end.** What is nested in a message is shorter by a header and two
ids; so a message of `n` bytes is nested at most `n / 76` deep, the recursion of the source ends,
and a shard is through with it after as many tasks. -/
theorem nesting_terminates (happart : RelayApart) :
    (∀ (c : ShardCtx) (src : SocketAddr) (pkt : Bytes) (authenticated : Bool) (payload : Bytes),
      (c.handleApp src pkt authenticated).2 = some payload →
      payload.length + (headerLen + 32 + 32) ≤ pkt.length) ∧
    (∀ (c : ShardCtx) (src : SocketAddr) (pkt : Bytes) (authenticated : Bool) (envs : List Env),
      pkt.length / 76 < envs.length →
      ∃ c' depth, c.handleNested src pkt authenticated envs = some (c', depth) ∧
        depth ≤ pkt.length / 76) ∧
    ∀ (m : Machine) (src : SocketAddr) (pkt : Bytes) (authenticated : Bool) (ts : List Task)
      (envs : List Env), m.work = .app src pkt authenticated :: ts →
      pkt.length / 76 < envs.length →
      ∃ c' depth, m.ctx.handleNested src pkt authenticated envs = some (c', depth) ∧
        depth ≤ pkt.length / 76 ∧
        (envs.take (depth + 1)).foldl (fun m env ↦ m.step ⟨env, .work⟩) m
          = { m with ctx := c', work := ts } := by
  refine ⟨?_, ?_, ?_⟩
  · intro c src pkt authenticated payload h
    exact ShardCtx.length_inner happart h
  · intro c src pkt authenticated envs henvs
    exact ShardCtx.exists_handleNested happart henvs
  · intro m src pkt authenticated ts envs hwork henvs
    obtain ⟨c', depth, hnested, hdepth⟩ := ShardCtx.exists_handleNested happart henvs
    exact ⟨c', depth, hnested, hdepth, foldl_work_of_handleNested hwork hnested⟩

end Machine

end

/-! ## The wire format -/

theorem Proto.apart_relayWire {b : Bytes} {r : Proto.Relay}
    (h : Proto.relayWire.decode b = some r) :
    Substrings.Apart [r.destId, r.fromId, r.payload] b := by
  obtain ⟨fs, hparse, hr⟩ := Option.bind_eq_some_iff.mp h
  cases hr
  have hnums : [1, 2, 3].Nodup := by decide
  exact Protobuf.apart_getBytes hnums (Protobuf.inOrder_of_parse hparse)

namespace Sample

attribute [local instance] wireCrates

private def frameAddr : SocketAddr := .ofV4 10 0 0 8 9000

/-- A frame for the node itself. -/
private def ownFrame (payload : Bytes) : Bytes :=
  (Header.request .relay .coordination 1).bytes
    ++ Crates.relay.encode ⟨(identity .first).nodeId.val.val, (Bytes32.fill 2).val, payload⟩

/-- A frame in a frame has come in. -/
private def nestedShard : Machine :=
  { (shardStart ⟨true, false, false⟩).machine with
    work := [.app frameAddr (ownFrame (ownFrame [1])) false] }

/-- The shard handles it, down to the bytes within, and has room for no more levels than that. -/
theorem nesting_terminates_twice :
    (ownFrame (ownFrame [1])).length / 76 = 2 ∧
    (nestedShard.ctx.handleNested frameAddr (ownFrame (ownFrame [1])) false
      [noon, noon, noon]).map Prod.snd = some 2 ∧
    ∃ c' depth, depth ≤ (ownFrame (ownFrame [1])).length / 76 ∧
      ([noon, noon, noon].take (depth + 1)).foldl (fun m env ↦ m.step ⟨env, .work⟩) nestedShard
        = { nestedShard with ctx := c', work := [] } := by
  refine ⟨by decide +kernel, by decide +kernel, ?_⟩
  obtain ⟨-, -, hmachine⟩ := Machine.nesting_terminates fun _ _ h ↦ Proto.apart_relayWire h
  obtain ⟨c', depth, -, hdepth, hwork⟩ := hmachine nestedShard frameAddr (ownFrame (ownFrame [1]))
    false [] [noon, noon, noon] rfl (by decide +kernel)
  exact ⟨c', depth, hdepth, hwork⟩

end Sample

end Molia
