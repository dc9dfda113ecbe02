import Molia.General.Retry
import Molia.Net.LookupRun

/-!
# What a lookup has asked

The history of a run says who was asked, whose request was given up, and who answered, in order. A
lookup does not keep it: being queried means that a request is out, or was answered, or was given
up for good, and a timeout that allows a retry takes the mark away again. But together with the
requests in flight and the retries, the marks determine how far the exchange with each peer has
come (`phase`), and every operation moves each phase as the automaton of `Retry` moves it along the
events of that peer (`run_events`). What the automaton says about its histories then holds of every
run: a peer is asked at most twice, and when a lookup stops by itself, the closest peers have all
answered or timed out twice.
-/

namespace Molia

namespace Lookup

open Retry (Event Phase eventsOf)

variable {l : Lookup} {op : LookupOp} {ops : List LookupOp} {id : NodeId}

/-- The events of one operation. -/
def events (l : Lookup) : LookupOp → List (NodeId × Event)
  | .dispatch _ sends => sends.map fun f ↦ (f.id, .sent)
  | .onTimeouts now => (l.onTimeouts now).1.map fun id ↦ (id, .timedOut)
  | .onCloser sender _ _ => [(sender, .answered)]
  | .onProviders sender _ _ => [(sender, .answered)]
  | .onRecord sender _ => [(sender, .answered)]

/-- The events of a run. -/
def history (l : Lookup) : List LookupOp → List (NodeId × Event)
  | [] => []
  | op :: ops => l.events op ++ (l.step op).history ops

/-- How far the exchange with a peer has come. -/
def phase (l : Lookup) (id : NodeId) : Phase :=
  if id ∈ l.inFlight.map InFlight.id then if id ∈ l.retries then .askedAgain else .asked
  else if id ∈ l.queried then .closed
  else if id ∈ l.retries then .due
  else .fresh

theorem phase_new (now₀ : ℕ) (kind : LookupKind) (target : Key) (seeds : List PeerInfo)
    (privacy : PrivacyMode) (id : NodeId) :
    (new now₀ kind target seeds privacy).phase id = .fresh := by
  simp only [phase, new, List.map_nil, List.not_mem_nil, if_false]

/-! ## One operation -/

/-- Only the requests in flight, the marks and the retries matter to a phase. -/
theorem phase_congr {l' : Lookup}
    (hflight : id ∈ l'.inFlight.map InFlight.id ↔ id ∈ l.inFlight.map InFlight.id)
    (hqueried : id ∈ l'.queried ↔ id ∈ l.queried) (hretries : id ∈ l'.retries ↔ id ∈ l.retries) :
    l'.phase id = l.phase id := by
  simp only [phase, hflight, hqueried, hretries]

theorem run_dispatch {now : ℕ} {sends : List InFlight} (h : l.Sound)
    (hproper : l.Proper (.dispatch now sends)) (id : NodeId) :
    Retry.run (l.phase id) (eventsOf id (l.events (.dispatch now sends))) =
      some ((l.step (.dispatch now sends)).phase id) := by
  have hevents : l.events (.dispatch now sends) =
      (sends.map InFlight.id).map fun id ↦ (id, Event.sent) := by
    rw [List.map_map]
    rfl
  rw [hevents, Retry.eventsOf_map hproper.1, h.step_dispatch hproper]
  by_cases hid : id ∈ sends.map InFlight.id
  · obtain ⟨f, hf, rfl⟩ := List.mem_map.mp hid
    have hfresh := (h.sendable hproper).fresh f hf
    have hflight : f.id ∉ l.inFlight.map InFlight.id := by
      intro hmem
      obtain ⟨g, hg, heq⟩ := List.mem_map.mp hmem
      exact hfresh (heq ▸ h.inFlight_queried g hg)
    rw [if_pos hid, Retry.run_singleton]
    simp only [phase, List.map_append, List.mem_append, hid, hflight, hfresh, or_true, if_true,
      if_false]
    split_ifs
    · rfl
    · rfl
  · rw [if_neg hid, Retry.run_nil]
    refine congrArg some (phase_congr ?_ ?_ ?_).symm
    · rw [List.map_append, List.mem_append, or_iff_left hid]
    · rw [List.mem_append, or_iff_left hid]
    · exact Iff.rfl

theorem mem_inFlight_onTimeouts (h : l.Sound) (now : ℕ) (id : NodeId) :
    id ∈ (l.onTimeouts now).2.inFlight.map InFlight.id ↔
      id ∈ l.inFlight.map InFlight.id ∧ id ∉ l.deadIds now := by
  rw [inFlight_onTimeouts]
  constructor
  · intro hmem
    obtain ⟨f, hf, rfl⟩ := List.mem_map.mp hmem
    obtain ⟨hf, hlive⟩ := List.mem_filter.mp hf
    exact ⟨List.mem_map_of_mem hf, h.not_mem_deadIds hf (by simpa using hlive)⟩
  · rintro ⟨hmem, hlive⟩
    obtain ⟨f, hf, rfl⟩ := List.mem_map.mp hmem
    refine List.mem_map_of_mem (List.mem_filter.mpr ⟨hf, ?_⟩)
    by_contra hdead
    exact hlive (List.mem_map_of_mem (List.mem_filter.mpr ⟨hf, by simpa using hdead⟩))

theorem run_onTimeouts (h : l.Sound) (now : ℕ) (id : NodeId) :
    Retry.run (l.phase id) (eventsOf id (l.events (.onTimeouts now))) =
      some ((l.onTimeouts now).2.phase id) := by
  have hnodup : (l.deadIds now).Nodup := (h.inFlight_filter _).1
  rw [events, onTimeouts_fst, Retry.eventsOf_map hnodup]
  by_cases hid : id ∈ l.deadIds now
  · have hout : id ∈ l.inFlight.map InFlight.id := List.map_subset _ (List.filter_subset_self _) hid
    obtain ⟨f, hf, rfl⟩ := List.mem_map.mp hout
    have hqueried := h.inFlight_queried f hf
    rw [if_pos hid, Retry.run_singleton]
    simp only [phase, mem_inFlight_onTimeouts h, mem_queried_onTimeouts, mem_retries_onTimeouts,
      hid, hout, hqueried, not_true_eq_false, and_false, or_true, true_and, forall_const, if_true,
      if_false]
    split_ifs
    · rfl
    · rfl
  · rw [if_neg hid, Retry.run_nil]
    refine congrArg some (phase_congr ?_ ?_ ?_).symm
    · rw [mem_inFlight_onTimeouts h, and_iff_left hid]
    · rw [mem_queried_onTimeouts, and_iff_left fun hdead ↦ absurd hdead hid]
    · rw [mem_retries_onTimeouts, or_iff_left hid]

theorem mem_inFlight_answered (l : Lookup) (sender id : NodeId) :
    id ∈ (l.answered sender).inFlight.map InFlight.id ↔
      id ∈ l.inFlight.map InFlight.id ∧ id ≠ sender := by
  simp only [answered, List.mem_map, List.mem_filter, decide_eq_true_eq]
  constructor
  · rintro ⟨f, ⟨hf, hne⟩, rfl⟩
    exact ⟨⟨f, hf, rfl⟩, hne⟩
  · rintro ⟨⟨f, hf, rfl⟩, hne⟩
    exact ⟨f, ⟨hf, hne⟩, rfl⟩

/-- An answer closes the exchange if it was waited for, and is ignored otherwise. -/
theorem run_answered (h : l.Sound) (sender id : NodeId) :
    Retry.run (l.phase id) (eventsOf id [(sender, .answered)]) =
      some ((l.answered sender).phase id) := by
  have hflight := mem_inFlight_answered l sender id
  by_cases hid : sender = id
  · subst hid
    rw [Retry.eventsOf_cons_self]
    refine (Retry.run_singleton _ _).trans ?_
    by_cases hout : sender ∈ l.inFlight.map InFlight.id
    · have hqueried : sender ∈ l.queried := by
        obtain ⟨f, hf, rfl⟩ := List.mem_map.mp hout
        exact h.inFlight_queried f hf
      have hclosed : (l.answered sender).phase sender = .closed := by
        rw [phase, if_neg fun hmem ↦ (hflight.mp hmem).2 rfl]
        exact if_pos hqueried
      rw [hclosed, phase, if_pos hout]
      split_ifs
      · rfl
      · rfl
    · have hsame : (l.answered sender).phase sender = l.phase sender := by
        refine phase_congr ?_ ?_ ?_
        · rw [hflight]
          exact iff_of_false (fun hmem ↦ hmem.2 rfl) hout
        · exact Iff.rfl
        · exact Iff.rfl
      rw [hsame, phase, if_neg hout]
      split_ifs <;> rfl
  · rw [Retry.eventsOf_cons_ne hid]
    refine congrArg some (phase_congr ?_ ?_ ?_).symm
    · rw [hflight, and_iff_left (Ne.symm hid)]
    · exact Iff.rfl
    · exact Iff.rfl

theorem phase_onCloser (l : Lookup) (sender : NodeId) (peers : List PeerInfo) (rttUs : UInt32)
    (id : NodeId) : (l.onCloser sender peers rttUs).phase id = (l.answered sender).phase id := by
  rw [onCloser_eq]
  rfl

theorem phase_onProviders (l : Lookup) (sender : NodeId) (providers : List (NodeId × Bytes))
    (closer : List PeerInfo) (id : NodeId) :
    (l.onProviders sender providers closer).phase id = (l.answered sender).phase id := by
  rw [onProviders, phase_onCloser]
  -- the requests to the sender are taken out twice
  refine phase_congr ?_ ?_ ?_
  · simp only [answered, List.filter_filter, Bool.and_self]
  · exact Iff.rfl
  · exact Iff.rfl

/-- **One operation.** The phase of each peer moves along the events of that peer. -/
theorem run_events (h : l.Sound) (hproper : l.Proper op) (id : NodeId) :
    Retry.run (l.phase id) (eventsOf id (l.events op)) = some ((l.step op).phase id) := by
  cases op with
  | dispatch now sends => exact run_dispatch h hproper id
  | onTimeouts now => exact run_onTimeouts h now id
  | onCloser sender peers rttUs =>
    rw [step, phase_onCloser]
    exact run_answered h sender id
  | onProviders sender providers closer =>
    rw [step, phase_onProviders]
    exact run_answered h sender id
  | onRecord sender rec => exact run_answered h sender id

/-! ## Whole runs -/

theorem run_history (h : l.Sound) (hops : Runs.Along step Proper l ops) (id : NodeId) :
    Retry.run (l.phase id) (eventsOf id (l.history ops)) =
      some ((ops.foldl step l).phase id) := by
  induction ops generalizing l with
  | nil => rfl
  | cons op ops ih =>
    rw [history, Retry.eventsOf_append, Retry.run_append, run_events h hops.1, Option.bind_some,
      ih (h.step hops.1) hops.2, List.foldl_cons]

theorem shortlist_subset_step (h : l.Sound) (hproper : l.Proper op) :
    l.shortlist ⊆ (l.step op).shortlist := by
  have hcloser (l : Lookup) (sender : NodeId) (peers : List PeerInfo) (rttUs : UInt32) :
      l.shortlist ⊆ (l.onCloser sender peers rttUs).shortlist := by
    rw [onCloser_eq]
    intro p hp
    exact (perm_sortShortlist _ _).mem_iff.mpr (subset_merge PeerInfo.id _ peers hp)
  cases op with
  | dispatch now sends =>
    rw [h.step_dispatch hproper]
    exact List.Subset.refl _
  | onTimeouts now =>
    rw [step, onTimeouts_snd]
    exact List.Subset.refl _
  | onCloser sender peers rttUs => exact hcloser l sender peers rttUs
  | onProviders sender providers closer => exact hcloser _ sender closer 0
  | onRecord sender rec => exact List.Subset.refl _

theorem shortlist_subset_run (h : l.Sound) (hops : Runs.Along step Proper l ops) :
    l.shortlist ⊆ (ops.foldl step l).shortlist := by
  induction ops generalizing l with
  | nil => exact List.Subset.refl _
  | cons op ops ih =>
    exact List.Subset.trans (shortlist_subset_step h hops.1) (ih (h.step hops.1) hops.2)

theorem mem_shortlist_of_sent_event (h : l.Sound) (hproper : l.Proper op)
    (hsent : (id, .sent) ∈ l.events op) : id ∈ l.shortlist.map PeerInfo.id := by
  cases op with
  | dispatch now sends =>
    obtain ⟨f, hf, heq⟩ := List.mem_map.mp hsent
    obtain ⟨p, hp, hid⟩ := List.mem_map.mp (hproper.2 f hf)
    obtain rfl : f.id = id := congrArg Prod.fst heq
    rw [← hid]
    exact List.mem_map_of_mem (List.mem_of_mem_filter ((h.nextBatch_sublist now).subset hp))
  | onTimeouts now => simp [events] at hsent
  | onCloser sender peers rttUs => simp [events] at hsent
  | onProviders sender providers closer => simp [events] at hsent
  | onRecord sender rec => simp [events] at hsent

theorem mem_shortlist_of_sent (h : l.Sound) (hops : Runs.Along step Proper l ops)
    (hsent : (id, .sent) ∈ l.history ops) :
    id ∈ (ops.foldl step l).shortlist.map PeerInfo.id := by
  induction ops generalizing l with
  | nil => exact absurd hsent List.not_mem_nil
  | cons op ops ih =>
    rcases List.mem_append.mp hsent with hnow | hlater
    · have hgrow := shortlist_subset_run h hops
      exact List.map_subset _ hgrow (mem_shortlist_of_sent_event h hops.1 hnow)
    · exact ih (h.step hops.1) hops.2 hlater

/-- **One retry.** In every run from distinct seeds no peer is asked more than twice, between two
requests to a peer the first is given up, and there are at most two requests for each peer that the
lookup has learned of. -/
theorem asks_at_most_twice (now₀ : ℕ) (kind : LookupKind) (target : Key) (seeds : List PeerInfo)
    (privacy : PrivacyMode) (ops : List LookupOp) (hseeds : (seeds.map PeerInfo.id).Nodup)
    (hops : Runs.Along step Proper (new now₀ kind target seeds privacy) ops) :
    let l := new now₀ kind target seeds privacy
    (∀ id, (l.history ops).count (id, .sent) ≤ 2) ∧
      (∀ id a b c, l.history ops = a ++ (id, .sent) :: (b ++ (id, .sent) :: c) →
        (id, .timedOut) ∈ b) ∧
      (Retry.requests (l.history ops)).length ≤
        2 * ((ops.foldl step l).shortlist.map PeerInfo.id).dedup.length := by
  intro l
  have hsound : l.Sound := sound_new now₀ kind target privacy hseeds
  have hrun : ∀ id, Retry.run .fresh (eventsOf id (l.history ops)) =
      some ((ops.foldl step l).phase id) := by
    intro id
    rw [← phase_new now₀ kind target seeds privacy id]
    exact run_history hsound hops id
  have hcount : ∀ id, (l.history ops).count (id, .sent) ≤ 2 := by
    intro id
    rw [← Retry.count_eventsOf]
    exact Retry.count_sent_le (hrun id)
  refine ⟨hcount, ?_, ?_⟩
  · intro id a b c heq
    have hid := hrun id
    rw [heq] at hid
    exact Retry.timedOut_mem_of_run hid
  · exact Retry.length_requests_le (fun id hsent ↦ mem_shortlist_of_sent hsound hops hsent) hcount

theorem asks_at_most_twice_retry :
    let l := new 0 .findNode ⟨.fill 0⟩ [seedPeer 2, seedPeer 1] .none
    (∀ id, (l.history retryOps).count (id, .sent) ≤ 2) ∧
      (∀ id a b c, l.history retryOps = a ++ (id, .sent) :: (b ++ (id, .sent) :: c) →
        (id, .timedOut) ∈ b) ∧
      (Retry.requests (l.history retryOps)).length ≤
        2 * ((retryOps.foldl step l).shortlist.map PeerInfo.id).dedup.length :=
  asks_at_most_twice 0 .findNode ⟨.fill 0⟩ [seedPeer 2, seedPeer 1] .none retryOps
    (by decide +kernel) (by decide +kernel)

/-! ## When a lookup stops -/

/-- Nobody is waited for and the closest peers have all been asked. -/
def Exhausted (l : Lookup) : Prop :=
  l.inFlight = [] ∧ ∀ p ∈ l.shortlist.take l.k, p.id ∈ l.queried

theorem Sound.exhausted_of_due (h : l.Sound) (hdue : l.due = []) (hflight : l.inFlight = []) :
    l.Exhausted := by
  refine ⟨hflight, ?_⟩
  intro p hp
  have hmin := h.alphaMin_le
  rw [due_eq h.alpha_le, hflight, List.length_nil, Nat.sub_zero, List.take_eq_nil_iff] at hdue
  rcases hdue with hzero | hnone
  · rw [hzero] at hmin
    contradiction
  · have hp' : ¬l.Eligible p := by
      simpa using List.filter_eq_nil_iff.mp hnone p (List.mem_of_mem_take hp)
    by_contra hqueried
    exact hp' ⟨hqueried, by rw [hflight]; exact List.not_mem_nil⟩

theorem exhausted_of_onCloser {sender : NodeId} {peers : List PeerInfo} {rttUs : UInt32}
    (hbefore : l.done = false) (hafter : (l.onCloser sender peers rttUs).done = true) :
    (l.onCloser sender peers rttUs).Exhausted := by
  rw [onCloser_eq] at hafter ⊢
  rw [hbefore, Bool.false_or, decide_eq_true_eq] at hafter
  obtain ⟨-, hflight, hqueried⟩ := hafter
  exact ⟨hflight, fun p hp ↦ hqueried p.id (List.mem_map_of_mem hp)⟩

theorem Sound.exhausted_step (h : l.Sound) (hproper : l.Proper op) (hbefore : l.done = false)
    (hafter : (l.step op).done = true)
    (htime : ∀ now sends, op = .dispatch now sends → now - l.started < l.budget)
    (hrecord : ∀ sender rec, op ≠ .onRecord sender rec) : (l.step op).Exhausted := by
  cases op with
  | dispatch now sends =>
    have htime := htime now sends rfl
    have hover : ¬l.Over now := by
      rw [Over, hbefore]
      exact not_or.mpr ⟨Bool.false_ne_true, Nat.not_le.mpr htime⟩
    have hstep := h.step_dispatch hproper
    rw [hstep, hbefore, Bool.false_or, decide_eq_true_eq] at hafter
    obtain ⟨hdue, hflight⟩ := hafter.resolve_left hover
    obtain ⟨-, hqueried⟩ := h.exhausted_of_due hdue hflight
    -- the batch is empty, so nothing has been sent
    obtain rfl : sends = [] := by
      refine List.eq_nil_iff_forall_not_mem.mpr fun f hf ↦ ?_
      have hbatch := hproper.2 f hf
      rw [nextBatch_of_ends hafter, List.map_nil] at hbatch
      exact absurd hbatch List.not_mem_nil
    rw [hstep, List.map_nil, List.append_nil, List.append_nil]
    exact ⟨hflight, hqueried⟩
  | onTimeouts now =>
    rw [Lookup.step, onTimeouts_snd] at hafter
    exact absurd (hbefore.symm.trans hafter) Bool.false_ne_true
  | onCloser sender peers rttUs => exact exhausted_of_onCloser hbefore hafter
  | onProviders sender providers closer =>
    have hbefore' : { l.answered sender with
        providers := mergeProviders l.providers providers }.done = false := hbefore
    exact exhausted_of_onCloser hbefore' hafter
  | onRecord sender rec => exact absurd rfl (hrecord sender rec)

theorem clock_step (h : l.Sound) (hproper : l.Proper op) :
    (l.step op).started = l.started ∧ (l.step op).budget = l.budget := by
  cases op with
  | dispatch now sends =>
    rw [h.step_dispatch hproper]
    exact ⟨rfl, rfl⟩
  | onTimeouts now =>
    rw [step, onTimeouts_snd]
    exact ⟨rfl, rfl⟩
  | onCloser sender peers rttUs =>
    rw [step, onCloser_eq]
    exact ⟨rfl, rfl⟩
  | onProviders sender providers closer =>
    rw [step, onProviders, onCloser_eq]
    exact ⟨rfl, rfl⟩
  | onRecord sender rec => exact ⟨rfl, rfl⟩

theorem clock_run (h : l.Sound) (hops : Runs.Along step Proper l ops) :
    (ops.foldl step l).started = l.started ∧ (ops.foldl step l).budget = l.budget := by
  induction ops generalizing l with
  | nil => exact ⟨rfl, rfl⟩
  | cons op ops ih =>
    obtain ⟨hstarted, hbudget⟩ := clock_step h hops.1
    obtain ⟨hstarted', hbudget'⟩ := ih (h.step hops.1) hops.2
    exact ⟨hstarted'.trans hstarted, hbudget'.trans hbudget⟩

/-- **A lookup does not stop early.** When the last operation of a run from distinct seeds ends the
lookup, and it is neither a record nor a batch asked for after 1500 ms, nothing is in flight and
each of the twenty closest peers was asked and has answered or timed out twice. -/
theorem stops_when_settled (now₀ : ℕ) (kind : LookupKind) (target : Key) (seeds : List PeerInfo)
    (privacy : PrivacyMode) (ops : List LookupOp) (op : LookupOp)
    (hseeds : (seeds.map PeerInfo.id).Nodup)
    (hops : Runs.Along step Proper (new now₀ kind target seeds privacy) (ops ++ [op]))
    (hbefore : (ops.foldl step (new now₀ kind target seeds privacy)).done = false)
    (hafter : ((ops ++ [op]).foldl step (new now₀ kind target seeds privacy)).done = true)
    (htime : ∀ now sends, op = .dispatch now sends → now - now₀ < 1500 * millis)
    (hrecord : ∀ sender rec, op ≠ .onRecord sender rec) :
    let l := (ops ++ [op]).foldl step (new now₀ kind target seeds privacy)
    l.inFlight = [] ∧ ∀ p ∈ l.shortlist.take 20,
      Retry.Settled p.id ((new now₀ kind target seeds privacy).history (ops ++ [op])) := by
  intro l
  have hnew := sound_new now₀ kind target privacy hseeds
  obtain ⟨hrun, hlast, -⟩ := Runs.along_append.mp hops
  obtain ⟨hstarted, hbudget⟩ := clock_run hnew hrun
  have hl : l = (ops.foldl step (new now₀ kind target seeds privacy)).step op := by
    simp only [l, List.foldl_append, List.foldl_cons, List.foldl_nil]
  have hexhausted : l.Exhausted := by
    rw [hl]
    refine (hnew.run hrun).exhausted_step hlast hbefore (hl ▸ hafter) ?_ hrecord
    rw [hstarted, hbudget]
    exact htime
  obtain ⟨hflight, hqueried⟩ := hexhausted
  have hk : l.k = 20 := (hnew.run hops).k_eq
  rw [hk] at hqueried
  refine ⟨hflight, fun p hp ↦ ?_⟩
  have hclosed : l.phase p.id = .closed := by
    rw [phase, hflight, List.map_nil, if_neg List.not_mem_nil, if_pos (hqueried p hp)]
  refine Retry.settled_of_run ?_
  rw [← hclosed, ← phase_new now₀ kind target seeds privacy p.id]
  exact run_history hnew hops p.id

/-- Both seeds are asked twice; one answers in the end and the other does not. -/
private def lastOps : List LookupOp :=
  [.dispatch 0 [askSeed 1 0, askSeed 2 0], .onTimeouts (500 * millis),
    .dispatch (500 * millis) [askSeed 1 (500 * millis), askSeed 2 (500 * millis)],
    .onCloser ⟨.fill 1⟩ [] 900, .onTimeouts (1000 * millis)]

private def lastOp : LookupOp := .dispatch (1000 * millis) []

theorem stops_when_settled_twice :
    let l₀ := new 0 .findNode ⟨.fill 0⟩ [seedPeer 2, seedPeer 1] .none
    let l := (lastOps ++ [lastOp]).foldl step l₀
    l.inFlight = [] ∧ ∀ p ∈ l.shortlist.take 20,
      Retry.Settled p.id (l₀.history (lastOps ++ [lastOp])) := by
  refine stops_when_settled 0 .findNode ⟨.fill 0⟩ [seedPeer 2, seedPeer 1] .none lastOps lastOp
    (by decide +kernel) (by decide +kernel) (by decide +kernel) (by decide +kernel) ?_ ?_
  · rintro now sends ⟨⟩
    decide
  · rintro sender rec ⟨⟩

end Lookup

end Molia
