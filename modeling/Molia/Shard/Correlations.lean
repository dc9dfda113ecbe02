import Molia.Shard.Ledger

/-!
# Correlation ids identify requests

The counter of a shard runs through all numbers of 32 bits but zero, one after the other, and then
starts again. So the ids of `2 ^ 32 - 1` calls in a row are different (`nextId_iterate_ne`), and a
request that is on file shares its id with no other, as long as fewer calls than that have been made
since its own. An answer then finds the one lookup that asked, in whatever order the map of lookups
is gone through.
-/

namespace Molia

open Tickets

/-! ## The counter -/

namespace ShardNet

theorem nextId_ne_zero (c : UInt32) : nextId c ≠ 0 := by
  rw [nextId]
  split_ifs with hzero
  · decide
  · exact hzero

theorem nextId_iterate_ne_zero {c : UInt32} (h : c ≠ 0) (j : ℕ) : nextId^[j] c ≠ 0 := by
  cases j with
  | zero => exact h
  | succ j =>
    rw [Function.iterate_succ_apply']
    exact nextId_ne_zero _

/-- The counter does not come back before it has gone all the way round. -/
theorem nextId_iterate_ne (c : UInt32) {j k : ℕ} (hlt : j < k) (hnear : k < j + (2 ^ 32 - 1)) :
    nextId^[j] c ≠ nextId^[k] c := by
  intro heq
  obtain ⟨d, rfl⟩ : ∃ d, k = d + j := ⟨k - j, by omega⟩
  rw [Function.iterate_add_apply] at heq
  have hround := corrAdvance_iterate (nextId^[j] c) d
  rw [← heq, corrAdvance_self] at hround
  omega

variable [Crates]

/-- What the `j`-th call of `nextCorr` returns, counted from zero. -/
def callId (n : ShardNet) (j : ℕ) : UInt32 := ((fun n : ShardNet ↦ n.nextCorr.2)^[j] n).nextCorr.1

theorem callId_eq (n : ShardNet) (j : ℕ) : n.callId j = nextId^[j] n.nextCorrId := by
  induction j generalizing n with
  | zero => rfl
  | succ j ih => exact ih n.nextCorr.2

end ShardNet

section

variable [Crates]

/-! ## Answers -/

namespace ShardCtx

/-- Where no two requests share an id, an answer finds the lookup that asked. -/
theorem findLookup_reorder_of_nodup {c : ShardCtx}
    (h : (c.requests.map InFlight.correlation).Nodup) (r : HashMap.Reorder) {id : UInt32}
    {p : PendingLookup} {f : InFlight} (hp : c.lookups.lookup id = some p)
    (hf : f ∈ p.lookup.inFlight) : (c.reorder r).findLookup f.correlation = some id := by
  have hids : (HashMap.gather (fun p : PendingLookup ↦ p.inFlight.map InFlight.correlation)
      c.lookups).Nodup := by
    rw [requests, HashMap.gather, List.map_flatMap] at h
    exact h
  have hown : (⟨id, p⟩ : (_ : UInt32) × PendingLookup) ∈ (c.reorder r).lookups.entries := by
    refine AList.mem_lookup_iff.mp ?_
    exact (HashMap.lookup_reorder r c.lookups id).trans hp
  have hsent : (p.lookup.inFlight.any fun g ↦ g.correlation = f.correlation) = true :=
    List.any_eq_true.mpr ⟨f, hf, decide_eq_true rfl⟩
  rcases hfound : (c.reorder r).findLookup f.correlation with _ | id'
  · exact absurd hsent (List.find?_eq_none.mp (Option.map_eq_none_iff.mp hfound) _ hown)
  · obtain ⟨⟨_, p'⟩, hfirst, rfl⟩ := Option.map_eq_some_iff.mp hfound
    have hany := List.find?_some hfirst
    obtain ⟨g, hg, hsame⟩ := List.any_eq_true.mp hany
    have hp' := AList.mem_lookup_iff.mpr (List.mem_of_find?_eq_some hfirst)
    have hcorr : f.correlation ∈ p'.inFlight.map InFlight.correlation :=
      List.mem_map.mpr ⟨g, hg, of_decide_eq_true hsame⟩
    exact congrArg some (HashMap.eq_of_nodup_gather hids hp (List.mem_map_of_mem hf)
      ((HashMap.lookup_reorder r c.lookups _).symm.trans hp') hcorr)

end ShardCtx

/-! ## Runs -/

namespace ShardRun

/-- The id that the `j`-th call of `nextCorr` in the run returns. -/
def callId (run : ShardRun) (j : ℕ) : UInt32 := run.start.machine.ctx.toShardNet.callId j

theorem callId_eq (run : ShardRun) (j : ℕ) : run.callId j = ShardNet.nextId^[j] 1 :=
  ShardNet.callId_eq _ j

/-- The requests in flight at the end of the run, with the calls that their ids come from. -/
def Outstanding (run : ShardRun) (out : List (ℕ × InFlight)) : Prop :=
  Tickets.Outstanding run.draws run.final.ctx.requests out

/-- **Correlation ids identify requests.** The counter never gives out zero, and in any
`2 ^ 32 - 1` calls in a row no id twice. Every request in flight has the id of a call of its own; if
fewer than `2 ^ 32 - 1` calls have been made since, no two requests in flight share an id, and an
answer finds the lookup that asked in every iteration order. -/
theorem correlations_unique (run : ShardRun) :
    (∀ j, run.callId j ≠ 0) ∧
    (∀ i j, i < j → j < i + (2 ^ 32 - 1) → run.callId i ≠ run.callId j) ∧
    run.final.ctx.nextCorrId = run.callId run.draws.length ∧
    (∀ s ∈ issued run.draws, s.2.correlation = run.callId s.1) ∧
    (∃ out, run.Outstanding out) ∧
    ∀ out, run.Outstanding out → (∀ s ∈ out, run.draws.length - (s.1 + 1) < 2 ^ 32 - 1) →
      (run.final.ctx.requests.map InFlight.correlation).Nodup ∧
      ∀ (r : HashMap.Reorder) (id : UInt32) (p : PendingLookup) (f : InFlight),
        run.final.ctx.lookups.lookup id = some p → f ∈ p.lookup.inFlight →
        (run.final.ctx.reorder r).findLookup f.correlation = some id := by
  have hbooks := run.books_final
  refine ⟨fun j ↦ ?_, fun i j hlt hnear ↦ ?_, ?_, fun s hs ↦ ?_, hbooks.exists_outstanding,
    fun out hout hfew ↦ ?_⟩
  · rw [callId_eq]
    exact ShardNet.nextId_iterate_ne_zero (by decide) j
  · rw [callId_eq, callId_eq]
    exact ShardNet.nextId_iterate_ne 1 hlt hnear
  · rw [callId_eq]
    exact hbooks.counter
  · rw [callId_eq]
    exact hbooks.numbered _ _ (getElem?_of_mem_issued hs)
  · have hnodup : (run.final.ctx.requests.map InFlight.correlation).Nodup := by
      refine hbooks.nodup hout (fun j k hlt hnear ↦ ShardNet.nextId_iterate_ne 1 hlt hnear) ?_
      intro s hs
      have hrecent := hfew s hs
      omega
    exact ⟨hnodup, fun r id p f hp hf ↦ ShardCtx.findLookup_reorder_of_nodup hnodup r hp hf⟩

end ShardRun

end

namespace Sample

attribute [local instance] wireCrates

private def namedPeer (i : UInt8) : PeerInfo := .new ⟨.fill i⟩ (.ofV4 10 0 0 i 9000)

/-- A node that hides its queries among probes has two peers and looks for two keys. -/
private def seekingRun : ShardRun where
  start := shardStart ⟨true, true, false⟩
  events :=
    [⟨noon, .command (.injectPeer (namedPeer 2))⟩, ⟨noon, .command (.injectPeer (namedPeer 3))⟩,
      ⟨noon, .command (.get ⟨.fill 2⟩)⟩, ⟨noon, .command (.get ⟨.fill 3⟩)⟩]

/-- Every request is followed by two probes, which take ids too. An answer with the id 4 finds the
lookup for the first key. -/
theorem correlations_unique_probed :
    seekingRun.final.ctx.requests.map InFlight.correlation = [7, 10, 1, 4] ∧
    (seekingRun.final.ctx.requests.map InFlight.correlation).Nodup ∧
    ∀ r : HashMap.Reorder, (seekingRun.final.ctx.reorder r).findLookup 4 = some 7 := by
  have hrun : seekingRun.draws.length = 12 ∧
      seekingRun.final.ctx.requests.map InFlight.correlation = [7, 10, 1, 4] ∧
      ((seekingRun.final.ctx.lookups.lookup 7).any fun p ↦
        p.lookup.inFlight.any fun f ↦ f.correlation = 4) = true := by decide +kernel
  obtain ⟨hcalls, hids, hsent⟩ := hrun
  obtain ⟨-, -, -, -, ⟨out, hout⟩, hall⟩ := seekingRun.correlations_unique
  obtain ⟨hnodup, hfind⟩ := hall out hout fun s _ ↦ by
    rw [hcalls]
    omega
  refine ⟨hids, hnodup, fun r ↦ ?_⟩
  rcases hp : seekingRun.final.ctx.lookups.lookup 7 with _ | p
  · rw [hp] at hsent
    cases hsent
  rw [hp] at hsent
  obtain ⟨f, hf, hcorr⟩ := List.any_eq_true.mp hsent
  have hfound := hfind r 7 p f hp hf
  rw [of_decide_eq_true hcorr] at hfound
  exact hfound

end Sample

end Molia
