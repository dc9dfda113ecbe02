import Mathlib.Data.List.Sort
import Molia.General.Runs
import Molia.Net.Lookup

/-!
# Runs of a lookup

A lookup is driven by five operations: a batch is taken and requests are sent to some of its
members, the requests that are out for too long are given up, and an answer with closer peers, with
providers or with a record is taken in. The senders and the contents of the answers are arbitrary.

`Sound` is the invariant of these runs. The capacity of the in-flight list needs an argument: a
batch is at most what `alpha` leaves beside the requests in flight, and `alpha` never exceeds the
capacity, so the list that silently drops what does not fit is never full when something is noted
(`foldl_note`). That `alpha` shrinks while requests are out does no harm.
-/

namespace Molia

/-! ## The order of the shortlist -/

section Order

variable {target : Key} {a b c : PeerInfo}

theorem closerTo_trans (hab : closerTo target a b) (hbc : closerTo target b c) :
    closerTo target a c := by
  simp only [closerTo] at hab hbc ⊢
  rcases hab with hab | ⟨hab, hrtt⟩
  · rcases hbc with hbc | ⟨hbc, -⟩
    · exact .inl (List.lt_trans hab hbc)
    · exact .inl (hbc ▸ hab)
  · rcases hbc with hbc | ⟨hbc, hrtt'⟩
    · exact .inl (hab ▸ hbc)
    · exact .inr ⟨hab.trans hbc, UInt32.le_trans hrtt hrtt'⟩

theorem closerTo_total (target : Key) (a b : PeerInfo) :
    closerTo target a b ∨ closerTo target b a := by
  simp only [closerTo]
  by_cases hlt : (xorDistance a.id.val target.val).val < (xorDistance b.id.val target.val).val
  · exact .inl (.inl hlt)
  by_cases hgt : (xorDistance b.id.val target.val).val < (xorDistance a.id.val target.val).val
  · exact .inr (.inl hgt)
  have heq := List.le_antisymm (List.not_lt.mp hgt) (List.not_lt.mp hlt)
  rcases UInt32.le_total a.rttMs b.rttMs with hrtt | hrtt
  · exact .inl (.inr ⟨heq, hrtt⟩)
  · exact .inr (.inr ⟨heq.symm, hrtt⟩)

instance (target : Key) : Std.Total (closerTo target) := ⟨closerTo_total target⟩

instance (target : Key) : IsTrans PeerInfo (closerTo target) := ⟨fun _ _ _ ↦ closerTo_trans⟩

theorem pairwise_sortShortlist (list : List PeerInfo) (target : Key) :
    (sortShortlist list target).Pairwise (closerTo target) :=
  List.pairwise_insertionSort (closerTo target) list

theorem perm_sortShortlist (list : List PeerInfo) (target : Key) :
    (sortShortlist list target).Perm list :=
  List.perm_insertionSort (closerTo target) list

end Order

/-! ## Merging by a key -/

section Merge

variable {α β : Type*} [DecidableEq β] (key : α → β)

theorem nodup_map_merge {known : List α} (h : (known.map key).Nodup) (new : List α) :
    ((new.foldl (fun s p ↦ if s.any fun q ↦ key q = key p then s else s ++ [p]) known).map
      key).Nodup := by
  refine List.foldlRecOn (motive := fun s : List α ↦ (s.map key).Nodup) new _ h ?_
  intro s hs p _
  split_ifs with hany
  · exact hs
  · rw [List.map_append, List.map_singleton, ← List.concat_eq_append]
    refine hs.concat ?_
    intro hmem
    obtain ⟨q, hq, hkey⟩ := List.mem_map.mp hmem
    exact hany (List.any_eq_true.mpr ⟨q, hq, decide_eq_true hkey⟩)

theorem mem_map_merge (known new : List α) (x : β) :
    x ∈ (new.foldl (fun s p ↦ if s.any fun q ↦ key q = key p then s else s ++ [p]) known).map key ↔
      x ∈ known.map key ∨ x ∈ new.map key := by
  induction new generalizing known with
  | nil => simp
  | cons p new ih =>
    rw [List.foldl_cons, ih, List.map_cons, List.mem_cons]
    split_ifs with hany
    · obtain ⟨q, hq, hkey⟩ := List.any_eq_true.mp hany
      have hold : key p ∈ known.map key := by
        rw [← of_decide_eq_true hkey]
        exact List.mem_map_of_mem hq
      rw [← or_assoc, or_iff_left_of_imp (fun hx : x = key p ↦ hx ▸ hold)]
    · rw [List.map_append, List.mem_append, List.map_singleton, List.mem_singleton, or_assoc]

theorem subset_merge (known new : List α) :
    known ⊆ new.foldl (fun s p ↦ if s.any fun q ↦ key q = key p then s else s ++ [p]) known := by
  refine List.foldlRecOn (motive := fun s : List α ↦ known ⊆ s) new _ (List.Subset.refl _) ?_
  intro s hs p _
  split_ifs
  · exact hs
  · exact List.subset_append_of_subset_left _ hs

theorem merge_eq_self_iff (known new : List α) :
    new.foldl (fun s p ↦ if s.any fun q ↦ key q = key p then s else s ++ [p]) known = known ↔
      ∀ p ∈ new, key p ∈ known.map key := by
  constructor
  · intro h p hp
    have hmem := (mem_map_merge key known new (key p)).mpr (Or.inr (List.mem_map_of_mem hp))
    rw [h] at hmem
    exact hmem
  · intro h
    refine List.foldlRecOn (motive := fun s : List α ↦ s = known) new _ rfl ?_
    rintro s rfl p hp
    obtain ⟨q, hq, hkey⟩ := List.mem_map.mp (h p hp)
    exact if_pos (List.any_eq_true.mpr ⟨q, hq, decide_eq_true hkey⟩)

end Merge

/-! ## One batch -/

namespace Lookup

variable {l l' : Lookup} {now : ℕ}

/-- The lookup has ended or has no time left. -/
def Over (l : Lookup) (now : ℕ) : Prop := l.done = true ∨ now - l.started ≥ l.budget

instance (l : Lookup) (now : ℕ) : Decidable (l.Over now) := inferInstanceAs (Decidable (_ ∨ _))

/-- The candidates that are asked next. -/
def due (l : Lookup) : List PeerInfo := l.fillBatch l.shortlist []

/-- The lookup ends when it is next asked for a batch. -/
def Ends (l : Lookup) (now : ℕ) : Prop := l.Over now ∨ (l.due = [] ∧ l.inFlight = [])

instance (l : Lookup) (now : ℕ) : Decidable (l.Ends now) := inferInstanceAs (Decidable (_ ∨ _))

theorem ends_iff_over {f : InFlight} (hf : f ∈ l.inFlight) : l.Ends now ↔ l.Over now := by
  refine or_iff_left ?_
  rintro ⟨-, hnil⟩
  rw [hnil] at hf
  cases hf

theorem nextBatch_of_ends (h : l.Ends now) : l.nextBatch now = ([], { l with done := true }) := by
  rw [nextBatch]
  rcases h with hover | hnil
  · exact if_pos hover
  · split
    · rfl
    · exact Prod.ext hnil.1 (if_pos hnil)

theorem nextBatch_of_not_ends (h : ¬l.Ends now) : l.nextBatch now = (l.due, l) := by
  obtain ⟨hover, hnil⟩ := not_or.mp h
  have hover' : ¬(l.done = true ∨ now - l.started ≥ l.budget) := hover
  rw [nextBatch, if_neg hover']
  exact Prod.ext rfl (if_neg hnil)

theorem nextBatch_snd (l : Lookup) (now : ℕ) :
    (l.nextBatch now).2 = { l with done := l.done || decide (l.Ends now) } := by
  by_cases hends : l.Ends now
  · rw [nextBatch_of_ends hends, decide_eq_true hends, Bool.or_true]
  · rw [nextBatch_of_not_ends hends, decide_eq_false hends, Bool.or_false]

/-- A candidate that has not been asked. -/
def Eligible (l : Lookup) (p : PeerInfo) : Prop :=
  p.id ∉ l.queried ∧ p.id ∉ l.inFlight.map InFlight.id

instance (l : Lookup) : DecidablePred l.Eligible := fun _ ↦ inferInstanceAs (Decidable (_ ∧ _))

/-- The batch is the first candidates that have not been asked, as many as `alpha` leaves. -/
theorem fillBatch_eq (halpha : l.alpha ≤ batchCap) (ps batch : List PeerInfo) :
    l.fillBatch ps batch = batch ++
      (ps.filter l.Eligible).take (l.alpha - l.inFlight.length - batch.length) := by
  induction ps generalizing batch with
  | nil => rw [fillBatch, List.filter_nil, List.take_nil, List.append_nil]
  | cons p ps ih =>
    have hflight : (l.inFlight.any fun f ↦ f.id = p.id) = true ↔
        p.id ∈ l.inFlight.map InFlight.id := by
      simp only [List.any_eq_true, decide_eq_true_eq, List.mem_map]
    rw [fillBatch]
    split_ifs with hqueried hout hfull
    · have hp : ¬l.Eligible p := fun h ↦ h.1 hqueried
      rw [ih, List.filter_cons_of_neg (by simpa using hp)]
    · have hp : ¬l.Eligible p := fun h ↦ h.2 (hflight.mp hout)
      rw [ih, List.filter_cons_of_neg (by simpa using hp)]
    · have hzero : l.alpha - l.inFlight.length - batch.length = 0 := by omega
      rw [hzero, List.take_zero, List.append_nil]
    · have hp : l.Eligible p := ⟨hqueried, fun h ↦ hout (hflight.mpr h)⟩
      have hroom : batch.length < batchCap := by omega
      have hleft : l.alpha - l.inFlight.length - batch.length =
          l.alpha - l.inFlight.length - (batch.length + 1) + 1 := by omega
      rw [tryPush, if_pos hroom, ih, List.filter_cons_of_pos (by simpa using hp), hleft,
        List.take_succ_cons, List.length_append, List.length_singleton, List.append_assoc,
        List.singleton_append]

theorem due_eq (halpha : l.alpha ≤ batchCap) :
    l.due = (l.shortlist.filter l.Eligible).take (l.alpha - l.inFlight.length) :=
  fillBatch_eq halpha l.shortlist []

/-! ## What each operation does to the fields -/

section Fields

variable (l : Lookup) (sender : NodeId) (peers : List PeerInfo) (rttUs : UInt32) (x : NodeId)

/-- The shortlist with the peers of an answer. -/
def merged : List PeerInfo := sortShortlist (mergePeers l.shortlist peers) l.target

/-- The answer brings nobody new among the best, all of them have been asked, and nobody is waited
for but the sender. -/
def Converged : Prop :=
  ((l.merged peers).take l.k).map PeerInfo.id = l.best ∧ (l.answered sender).inFlight = [] ∧
    ∀ id ∈ ((l.merged peers).take l.k).map PeerInfo.id, id ∈ l.queried

instance : Decidable (l.Converged sender peers) := inferInstanceAs (Decidable (_ ∧ _))

theorem onCloser_eq : l.onCloser sender peers rttUs =
    { l.answered sender with
      alpha := if rttUs < 80000 then max (l.alpha - 1) alphaMin else l.alpha
      shortlist := l.merged peers
      best := ((l.merged peers).take l.k).map PeerInfo.id
      done := l.done || decide (l.Converged sender peers) } := by
  have hdone : (if l.Converged sender peers then true else l.done) =
      (l.done || decide (l.Converged sender peers)) := by
    split_ifs with hstop
    · rw [decide_eq_true hstop, Bool.or_true]
    · rw [decide_eq_false hstop, Bool.or_false]
  rw [← hdone, onCloser]
  by_cases hrtt : rttUs < 80000
  · simp only [if_pos hrtt]
    rfl
  · simp only [if_neg hrtt]
    rfl

theorem inFlight_onCloser : (l.onCloser sender peers rttUs).inFlight
      = l.inFlight.filter fun f ↦ f.id ≠ sender := by
  rw [onCloser_eq]
  rfl

theorem mem_queried_allowRetry :
    x ∈ (l.allowRetry sender).queried ↔ x ∈ l.queried ∧ (x = sender → x ∈ l.retries) := by
  rw [allowRetry]
  split_ifs with hretried
  · refine (and_iff_left ?_).symm
    rintro rfl
    exact hretried
  · rw [List.mem_filter, decide_eq_true_eq]
    refine and_congr_right fun _ ↦ ⟨fun hne heq ↦ absurd heq hne, ?_⟩
    rintro h rfl
    exact hretried (h rfl)

theorem mem_retries_allowRetry :
    x ∈ (l.allowRetry sender).retries ↔ x ∈ l.retries ∨ x = sender := by
  rw [allowRetry]
  split_ifs with hretried
  · refine (or_iff_left_of_imp ?_).symm
    rintro rfl
    exact hretried
  · rw [List.mem_append, List.mem_singleton]

end Fields

theorem mem_queried_foldl_allowRetry (l : Lookup) (ids : List NodeId) (x : NodeId) :
    x ∈ (ids.foldl allowRetry l).queried ↔ x ∈ l.queried ∧ (x ∈ ids → x ∈ l.retries) := by
  induction ids generalizing l with
  | nil => exact (and_iff_left fun h ↦ absurd h List.not_mem_nil).symm
  | cons id ids ih =>
    rw [List.foldl_cons, ih, mem_queried_allowRetry, mem_retries_allowRetry, List.mem_cons]
    tauto

theorem mem_retries_foldl_allowRetry (l : Lookup) (ids : List NodeId) (x : NodeId) :
    x ∈ (ids.foldl allowRetry l).retries ↔ x ∈ l.retries ∨ x ∈ ids := by
  induction ids generalizing l with
  | nil => exact (or_iff_left List.not_mem_nil).symm
  | cons id ids ih =>
    rw [List.foldl_cons, ih, mem_retries_allowRetry, List.mem_cons, or_assoc]

theorem rest_foldl_allowRetry (l : Lookup) (ids : List NodeId) :
    { ids.foldl allowRetry l with queried := l.queried, retries := l.retries } = l := by
  refine List.foldlRecOn
    (motive := fun l' ↦ { l' with queried := l.queried, retries := l.retries } = l)
    ids allowRetry rfl ?_
  intro l' h id _
  rw [allowRetry]
  split_ifs
  · exact h
  · exact h

/-- The ids whose requests are given up at `now`. -/
def deadIds (l : Lookup) (now : ℕ) : List NodeId := (l.inFlight.filter (dead now)).map InFlight.id

theorem onTimeouts_fst (l : Lookup) (now : ℕ) : (l.onTimeouts now).1 = l.deadIds now := rfl

theorem inFlight_onTimeouts (l : Lookup) (now : ℕ) :
    (l.onTimeouts now).2.inFlight = l.inFlight.filter fun f ↦ !dead now f := by
  have h := fun l ids ↦ congrArg Lookup.inFlight (rest_foldl_allowRetry l ids)
  simp only [onTimeouts]
  split_ifs
  · exact h _ _
  · exact h _ _

theorem mem_queried_onTimeouts (l : Lookup) (now : ℕ) (x : NodeId) :
    x ∈ (l.onTimeouts now).2.queried ↔
      x ∈ l.queried ∧ (x ∈ l.deadIds now → x ∈ l.retries) := by
  simp only [onTimeouts]
  split_ifs
  · exact mem_queried_foldl_allowRetry _ _ x
  · exact mem_queried_foldl_allowRetry _ _ x

theorem mem_retries_onTimeouts (l : Lookup) (now : ℕ) (x : NodeId) :
    x ∈ (l.onTimeouts now).2.retries ↔ x ∈ l.retries ∨ x ∈ l.deadIds now := by
  simp only [onTimeouts]
  split_ifs
  · exact mem_retries_foldl_allowRetry _ _ x
  · exact mem_retries_foldl_allowRetry _ _ x

theorem alpha_onTimeouts (l : Lookup) (now : ℕ) :
    (l.onTimeouts now).2.alpha
      = if l.deadIds now ≠ [] then min (l.alpha + 1) alphaMax else l.alpha := by
  have h (l : Lookup) (ids : List NodeId) : (ids.foldl allowRetry l).alpha = l.alpha := by
    have hrest := congrArg Lookup.alpha (rest_foldl_allowRetry l ids)
    exact hrest
  show (if l.deadIds now ≠ [] then _ else _ : Lookup).alpha = _
  split_ifs
  · exact congrArg (fun a ↦ min (a + 1) alphaMax) (h _ _)
  · exact h _ _

/-- Timeouts change `alpha`, the requests in flight, and who has been asked how often. -/
theorem onTimeouts_snd (l : Lookup) (now : ℕ) :
    (l.onTimeouts now).2 = { l with
      alpha := (l.onTimeouts now).2.alpha
      queried := (l.onTimeouts now).2.queried
      inFlight := (l.onTimeouts now).2.inFlight
      retries := (l.onTimeouts now).2.retries } := by
  have h (l₀ l₁ : Lookup) (hrest : { l₁ with queried := l₀.queried, retries := l₀.retries } = l₀) :
      l₁ = { l₀ with queried := l₁.queried, retries := l₁.retries } := by
    rw [← hrest]
  simp only [onTimeouts]
  rw [h _ _ (rest_foldl_allowRetry _ _)]
  split_ifs
  · rfl
  · rfl

/-! ## Runs -/

end Lookup

/-- What is done to a lookup. A dispatch takes a batch and notes the requests that are sent. -/
inductive LookupOp where
  | dispatch (now : ℕ) (sends : List InFlight)
  | onTimeouts (now : ℕ)
  | onCloser (sender : NodeId) (peers : List PeerInfo) (rttUs : UInt32)
  | onProviders (sender : NodeId) (providers : List (NodeId × Bytes)) (closer : List PeerInfo)
  | onRecord (sender : NodeId) (rec : StoredRecord)
deriving DecidableEq

namespace Lookup

variable {l : Lookup} {now : ℕ} {sends : List InFlight} {op : LookupOp}

def note (l : Lookup) (f : InFlight) : Lookup := l.noteSent f.sentAt f.id f.correlation

def step (l : Lookup) : LookupOp → Lookup
  | .dispatch now sends => sends.foldl note (l.nextBatch now).2
  | .onTimeouts now => (l.onTimeouts now).2
  | .onCloser sender peers rttUs => l.onCloser sender peers rttUs
  | .onProviders sender providers closer => l.onProviders sender providers closer
  | .onRecord sender rec => l.onRecord sender rec

/-- Requests go to distinct members of the batch. -/
def Proper (l : Lookup) : LookupOp → Prop
  | .dispatch now sends => (sends.map InFlight.id).Nodup ∧
      ∀ f ∈ sends, f.id ∈ (l.nextBatch now).1.map PeerInfo.id
  | _ => True

instance (l : Lookup) : DecidablePred l.Proper
  | .dispatch _ _ => inferInstanceAs (Decidable (_ ∧ _))
  | .onTimeouts _ => isTrue trivial
  | .onCloser _ _ _ => isTrue trivial
  | .onProviders _ _ _ => isTrue trivial
  | .onRecord _ _ => isTrue trivial

/-- The invariant of the runs of a lookup. -/
structure Sound (l : Lookup) : Prop where
  k_eq : l.k = kDefault
  shortlist_nodup : (l.shortlist.map PeerInfo.id).Nodup
  shortlist_sorted : l.shortlist.Pairwise (closerTo l.target)
  inFlight_nodup : (l.inFlight.map InFlight.id).Nodup
  inFlight_queried : ∀ f ∈ l.inFlight, f.id ∈ l.queried
  alphaMin_le : alphaMin ≤ l.alpha
  alpha_le : l.alpha ≤ alphaMax
  inFlight_length : l.inFlight.length ≤ batchCap
  providers_nodup : (l.providers.map Prod.fst).Nodup

theorem sound_new (now : ℕ) (kind : LookupKind) (target : Key) {seeds : List PeerInfo}
    (privacy : PrivacyMode) (h : (seeds.map PeerInfo.id).Nodup) :
    Sound (new now kind target seeds privacy) where
  k_eq := rfl
  shortlist_nodup := (((perm_sortShortlist seeds target).map _).nodup_iff).mpr h
  shortlist_sorted := pairwise_sortShortlist seeds target
  inFlight_nodup := List.nodup_nil
  inFlight_queried _ hf := absurd hf List.not_mem_nil
  alphaMin_le := (by decide : alphaMin ≤ alphaDefault)
  alpha_le := (by decide : alphaDefault ≤ alphaMax)
  inFlight_length := Nat.zero_le _
  providers_nodup := List.nodup_nil

/-- Requests that can all be noted: the ids are new and distinct, and there is room. -/
structure Sendable (l : Lookup) (sends : List InFlight) : Prop where
  nodup : (sends.map InFlight.id).Nodup
  fresh : ∀ f ∈ sends, f.id ∉ l.queried
  room : l.inFlight.length + sends.length ≤ batchCap

theorem note_eq {f : InFlight} (hfresh : f.id ∉ l.queried) (hroom : l.inFlight.length < batchCap) :
    l.note f = { l with queried := l.queried ++ [f.id], inFlight := l.inFlight ++ [f] } := by
  rw [note, noteSent, if_neg hfresh, tryPush, if_pos hroom]

theorem foldl_note (h : l.Sendable sends) :
    sends.foldl note l = { l with
      queried := l.queried ++ sends.map InFlight.id, inFlight := l.inFlight ++ sends } := by
  induction sends generalizing l with
  | nil => rw [List.foldl_nil, List.map_nil, List.append_nil, List.append_nil]
  | cons f sends ih =>
    have hroom := h.room
    rw [List.length_cons] at hroom
    obtain ⟨hf, hnodup⟩ := List.nodup_cons.mp h.nodup
    rw [List.foldl_cons, note_eq (h.fresh f List.mem_cons_self) (by omega), ih]
    · simp only [List.append_assoc, List.singleton_append, List.map_cons]
    · refine ⟨hnodup, ?_, ?_⟩
      · intro g hg hmem
        rcases List.mem_append.mp hmem with hold | hnew
        · exact h.fresh g (List.mem_cons_of_mem _ hg) hold
        · rw [← List.mem_singleton.mp hnew] at hf
          exact hf (List.mem_map_of_mem hg)
      · simp only [List.length_append, List.length_singleton]
        omega

namespace Sound

theorem nextBatch_sublist (h : l.Sound) (now : ℕ) :
    (l.nextBatch now).1.Sublist (l.shortlist.filter l.Eligible) := by
  by_cases hends : l.Ends now
  · rw [nextBatch_of_ends hends]
    exact List.nil_sublist _
  · rw [nextBatch_of_not_ends hends, due_eq h.alpha_le]
    exact List.take_sublist _ _

theorem eligible_of_mem_nextBatch (h : l.Sound) {p : PeerInfo} (hp : p ∈ (l.nextBatch now).1) :
    l.Eligible p := by
  simpa using List.of_mem_filter ((h.nextBatch_sublist now).subset hp)

theorem nodup_nextBatch (h : l.Sound) (now : ℕ) :
    ((l.nextBatch now).1.map PeerInfo.id).Nodup :=
  h.shortlist_nodup.sublist (((h.nextBatch_sublist now).trans List.filter_sublist).map _)

theorem length_le_of_proper (h : l.Sound) (hproper : l.Proper (.dispatch now sends)) :
    l.inFlight.length + sends.length ≤ batchCap := by
  have hsub : (sends.map InFlight.id).Subperm ((l.nextBatch now).1.map PeerInfo.id) :=
    List.subperm_of_subset hproper.1 (fun _ ↦ List.forall_mem_map.mpr hproper.2 _)
  have hlen := hsub.length_le
  have hcap := h.inFlight_length
  rw [List.length_map, List.length_map] at hlen
  by_cases hends : l.Ends now
  · rw [nextBatch_of_ends hends, List.length_nil] at hlen
    omega
  · have halpha : l.alpha ≤ batchCap := h.alpha_le
    rw [nextBatch_of_not_ends hends, due_eq halpha, List.length_take] at hlen
    omega

theorem sendable (h : l.Sound) (hproper : l.Proper (.dispatch now sends)) : l.Sendable sends := by
  refine ⟨hproper.1, ?_, h.length_le_of_proper hproper⟩
  intro f hf
  obtain ⟨p, hp, hid⟩ := List.mem_map.mp (hproper.2 f hf)
  rw [← hid]
  exact (h.eligible_of_mem_nextBatch hp).1

theorem step_dispatch (h : l.Sound) (hproper : l.Proper (.dispatch now sends)) :
    l.step (.dispatch now sends) = { l with
      done := l.done || decide (l.Ends now)
      queried := l.queried ++ sends.map InFlight.id
      inFlight := l.inFlight ++ sends } := by
  obtain ⟨hnodup, hfresh, hroom⟩ := h.sendable hproper
  have hsend : Sendable { l with done := l.done || decide (l.Ends now) } sends :=
    ⟨hnodup, hfresh, hroom⟩
  rw [step, nextBatch_snd, foldl_note hsend]

theorem dispatch (h : l.Sound) (hproper : l.Proper (.dispatch now sends)) :
    (l.step (.dispatch now sends)).Sound := by
  obtain ⟨hnodup, hfresh, hroom⟩ := h.sendable hproper
  rw [h.step_dispatch hproper]
  refine { h with inFlight_nodup := ?_, inFlight_queried := ?_, inFlight_length := ?_ }
  · rw [List.map_append]
    refine h.inFlight_nodup.append hnodup ?_
    intro id hold hnew
    obtain ⟨f, hf, rfl⟩ := List.mem_map.mp hold
    obtain ⟨g, hg, hid⟩ := List.mem_map.mp hnew
    exact hfresh g hg (hid ▸ h.inFlight_queried f hf)
  · intro f hf
    rcases List.mem_append.mp hf with hold | hnew
    · exact List.mem_append_left _ (h.inFlight_queried f hold)
    · exact List.mem_append_right _ (List.mem_map_of_mem hnew)
  · rw [List.length_append]
    exact hroom

theorem inFlight_filter (h : l.Sound) (keep : InFlight → Bool) :
    ((l.inFlight.filter keep).map InFlight.id).Nodup ∧
      (l.inFlight.filter keep).length ≤ batchCap :=
  ⟨h.inFlight_nodup.sublist (List.filter_sublist.map _),
    (List.length_filter_le _ _).trans h.inFlight_length⟩

theorem answered (h : l.Sound) (sender : NodeId) : (l.answered sender).Sound :=
  { h with
    inFlight_nodup := (h.inFlight_filter _).1
    inFlight_queried := fun f hf ↦ h.inFlight_queried f (List.mem_of_mem_filter hf)
    inFlight_length := (h.inFlight_filter _).2 }

theorem not_mem_deadIds (h : l.Sound) {f : InFlight} (hf : f ∈ l.inFlight)
    (hlive : dead now f = false) : f.id ∉ l.deadIds now := by
  intro hdead
  obtain ⟨g, hg, hid⟩ := List.mem_map.mp hdead
  obtain ⟨hmem, hgdead⟩ := List.mem_filter.mp hg
  obtain rfl : g = f := List.inj_on_of_nodup_map h.inFlight_nodup hmem hf hid
  rw [hlive] at hgdead
  contradiction

theorem onTimeouts (h : l.Sound) (now : ℕ) : (l.onTimeouts now).2.Sound := by
  have hmin := h.alphaMin_le
  have hmax := h.alpha_le
  rw [onTimeouts_snd, inFlight_onTimeouts, alpha_onTimeouts]
  refine { h with
    inFlight_nodup := (h.inFlight_filter _).1
    inFlight_queried := ?_
    alphaMin_le := ?_
    alpha_le := ?_
    inFlight_length := (h.inFlight_filter _).2 }
  · intro f hf
    obtain ⟨hmem, hlive⟩ := List.mem_filter.mp hf
    have hnot := h.not_mem_deadIds hmem (by simpa using hlive)
    exact (mem_queried_onTimeouts l now f.id).mpr
      ⟨h.inFlight_queried f hmem, fun hdead ↦ absurd hdead hnot⟩
  · show alphaMin ≤ if l.deadIds now ≠ [] then min (l.alpha + 1) alphaMax else l.alpha
    simp only [alphaMin, alphaMax] at hmin hmax ⊢
    split_ifs <;> omega
  · show (if l.deadIds now ≠ [] then min (l.alpha + 1) alphaMax else l.alpha) ≤ alphaMax
    split_ifs
    · exact Nat.min_le_right _ _
    · exact hmax

theorem onCloser (h : l.Sound) (sender : NodeId) (peers : List PeerInfo) (rttUs : UInt32) :
    (l.onCloser sender peers rttUs).Sound := by
  have hmin := h.alphaMin_le
  have hmax := h.alpha_le
  rw [onCloser_eq]
  refine { h.answered sender with
    shortlist_nodup := ?_
    shortlist_sorted := pairwise_sortShortlist _ _
    alphaMin_le := ?_
    alpha_le := ?_ }
  · exact ((perm_sortShortlist _ _).map _).nodup_iff.mpr
      (nodup_map_merge PeerInfo.id h.shortlist_nodup peers)
  · show alphaMin ≤ if rttUs < 80000 then max (l.alpha - 1) alphaMin else l.alpha
    split_ifs
    · exact Nat.le_max_right _ _
    · exact hmin
  · show (if rttUs < 80000 then max (l.alpha - 1) alphaMin else l.alpha) ≤ alphaMax
    simp only [alphaMin, alphaMax] at hmin hmax ⊢
    split_ifs <;> omega

theorem onProviders (h : l.Sound) (sender : NodeId) (providers : List (NodeId × Bytes))
    (closer : List PeerInfo) : (l.onProviders sender providers closer).Sound := by
  have hprov : Sound { l.answered sender with
      providers := mergeProviders l.providers providers } :=
    { h.answered sender with
      providers_nodup := nodup_map_merge Prod.fst h.providers_nodup providers }
  exact hprov.onCloser sender closer 0

theorem onRecord (h : l.Sound) (sender : NodeId) (rec : StoredRecord) :
    (l.onRecord sender rec).Sound :=
  { h.answered sender with }

theorem step (h : l.Sound) (hproper : l.Proper op) : (l.step op).Sound := by
  cases op with
  | dispatch now sends => exact h.dispatch hproper
  | onTimeouts now => exact h.onTimeouts now
  | onCloser sender peers rttUs => exact h.onCloser sender peers rttUs
  | onProviders sender providers closer => exact h.onProviders sender providers closer
  | onRecord sender rec => exact h.onRecord sender rec

theorem run {ops : List LookupOp} (h : l.Sound) (hops : Runs.Along Lookup.step Proper l ops) :
    (ops.foldl Lookup.step l).Sound :=
  hops.invariant (fun _ _ hs hp ↦ hs.step hp) h

end Sound

/-- **The state of a lookup.** In every run from distinct seeds, with requests to distinct members
of each batch and arbitrary answers, the invariant holds, a batch has nobody in it who has been
asked, and every request that is sent is noted. -/
theorem run_sound (now₀ : ℕ) (kind : LookupKind) (target : Key) (seeds : List PeerInfo)
    (privacy : PrivacyMode) (ops : List LookupOp) (hseeds : (seeds.map PeerInfo.id).Nodup)
    (hops : Runs.Along step Proper (new now₀ kind target seeds privacy) ops) :
    let l := ops.foldl step (new now₀ kind target seeds privacy)
    l.Sound ∧
      (∀ now, ∀ p ∈ (l.nextBatch now).1, p.id ∉ l.queried ∧ p.id ∉ l.inFlight.map InFlight.id) ∧
      ∀ now sends, l.Proper (.dispatch now sends) →
        (l.step (.dispatch now sends)).inFlight = l.inFlight ++ sends := by
  intro l
  have hsound : l.Sound := (sound_new now₀ kind target privacy hseeds).run hops
  refine ⟨hsound, fun now p hp ↦ hsound.eligible_of_mem_nextBatch hp, ?_⟩
  intro now sends hproper
  rw [hsound.step_dispatch hproper]

def seedPeer (n : UInt8) : PeerInfo := PeerInfo.new ⟨.fill n⟩ (.ofV4 10 0 0 n 4000)

def askSeed (n : UInt8) (now : ℕ) : InFlight := ⟨⟨.fill n⟩, n.toUInt32, now⟩

/-- Both seeds are asked and time out; one of them is asked again and answers. -/
def retryOps : List LookupOp :=
  [.dispatch 0 [askSeed 1 0, askSeed 2 0], .onTimeouts (500 * millis),
    .dispatch (500 * millis) [askSeed 1 (500 * millis)],
    .onCloser ⟨.fill 1⟩ [seedPeer 2, seedPeer 3] 900]

theorem run_sound_retry :
    let l := retryOps.foldl step (new 0 .findNode ⟨.fill 0⟩ [seedPeer 2, seedPeer 1] .none)
    l.Sound ∧
      (∀ now, ∀ p ∈ (l.nextBatch now).1, p.id ∉ l.queried ∧ p.id ∉ l.inFlight.map InFlight.id) ∧
      ∀ now sends, l.Proper (.dispatch now sends) →
        (l.step (.dispatch now sends)).inFlight = l.inFlight ++ sends :=
  run_sound 0 .findNode ⟨.fill 0⟩ [seedPeer 2, seedPeer 1] .none retryOps
    (by decide +kernel) (by decide +kernel)

end Lookup

end Molia
