import Mathlib.Algebra.Order.Ring.Nat
import Molia.General.Runs
import Molia.Net.Admission

/-!
# The budget of a relay

A relay is meant to spend at most a tenth of what it sends on the traffic of others. The source
keeps two 64-bit counters, and decides on a frame by comparing them. `RelayLedger` keeps beside them
the totals that the rule is about: what the node sent on its own account, what was offered for
relaying, and what was accepted.

## The invariant

The counters are the totals modulo `2 ^ 64`: `egress` is `own + offered`, because a frame is counted
as sent before the decision on it and stays counted when it is refused, and `relayed` is `accepted`.
The decision on a frame of `n` bytes then reads

  `10 * (accepted + n) ≤ 2 * (own + offered + n)`,

where the rule asks for `10 * (accepted + n) ≤ own + (accepted + n)`. A node that has sent nothing
accepts everything.

## What slips through

A frame passes the decision and not the rule if `5 * accepted + 4 * n ≤ own + offered` and
`own < 9 * (accepted + n)`. The longest frame that passes has `(own + offered - 5 * accepted) / 4`
bytes, so a relay that has accepted nothing lets some frame through that breaks the rule as soon as
it has sent four bytes.
-/

namespace Molia

/-- A call on the relay state. -/
inductive RelayCall where
  | onEgress (bytes : UInt64)
  | forward (bytes : UInt64) (control : Bool)
  | allow (bytes : UInt64)

/-- A relay state, with the bytes sent on the node's own account, offered for relaying, and accepted
for relaying. -/
structure RelayLedger where
  relay : RelayState
  own : ℕ
  offered : ℕ
  accepted : ℕ

/-- The decision of `allow` on `n` bytes, given the totals. -/
def Granted (accepted egress n : ℕ) : Prop :=
  egress % 2 ^ 64 = 0 ∨ 10 * (accepted + n) % 2 ^ 64 ≤ 2 * egress % 2 ^ 64

theorem RelayBudget.allow_iff {b : RelayBudget} {accepted egress : ℕ}
    (hrelayed : b.relayed = UInt64.ofNat accepted) (hegress : b.egress = UInt64.ofNat egress)
    (n : UInt64) : (b.allow n).1 = true ↔ Granted accepted egress n.toNat := by
  have hzero : b.egress = 0 ↔ egress % 2 ^ 64 = 0 := by
    rw [hegress, ← UInt64.toNat_inj]
    simp
  have hle : (b.relayed + n) * relayBudgetDen ≤ b.egress * relayBudgetNum + b.egress ↔
      10 * (accepted + n.toNat) % 2 ^ 64 ≤ 2 * egress % 2 ^ 64 := by
    rw [hrelayed, hegress, UInt64.le_iff_toNat_le]
    simp only [relayBudgetDen, relayBudgetNum, UInt64.toNat_mul, UInt64.toNat_add,
      UInt64.toNat_ofNat', UInt64.reduceToNat]
    omega
  rw [Granted, ← hzero, ← hle, allow]
  split_ifs with hsilent hfits
  · simp [hsilent]
  · simp [hfits]
  · simp [hsilent, hfits]

namespace RelayLedger

def new (enabled : Bool) : RelayLedger where
  relay := RelayState.new enabled
  own := 0
  offered := 0
  accepted := 0

/-- A frame is turned away before the budget is looked at. -/
def Closed (L : RelayLedger) (control : Bool) : Prop := L.relay.enabled = false ∧ control = false

instance (L : RelayLedger) (control : Bool) : Decidable (L.Closed control) :=
  inferInstanceAs (Decidable (_ ∧ _))

def step (L : RelayLedger) : RelayCall → RelayLedger
  | .onEgress n =>
    { L with
      relay := { L.relay with budget := L.relay.budget.onEgress n }
      own := L.own + n.toNat }
  | .forward n control =>
    let (ok, relay) := L.relay.forward n.toNat control
    { L with
      relay
      offered := if L.Closed control then L.offered else L.offered + n.toNat
      accepted := if ok then L.accepted + n.toNat else L.accepted }
  | .allow n =>
    let (ok, budget) := L.relay.budget.allow n
    { L with
      relay := { L.relay with budget }
      accepted := if ok then L.accepted + n.toNat else L.accepted }

/-! ## The counters -/

/-- The counters are the totals. -/
structure Counts (enabled : Bool) (L : RelayLedger) : Prop where
  enabled : L.relay.enabled = enabled
  egress : L.relay.budget.egress = UInt64.ofNat (L.own + L.offered)
  relayed : L.relay.budget.relayed = UInt64.ofNat L.accepted

theorem counts_new (enabled : Bool) : Counts enabled (new enabled) := ⟨rfl, rfl, rfl⟩

theorem allow_cases (b : RelayBudget) (n : UInt64) :
    b.allow n = (true, { b with relayed := b.relayed + n }) ∨ b.allow n = (false, b) := by
  rw [RelayBudget.allow]
  split_ifs
  · exact Or.inl rfl
  · exact Or.inl rfl
  · exact Or.inr rfl

theorem egress_allow (b : RelayBudget) (n : UInt64) : (b.allow n).2.egress = b.egress := by
  rcases allow_cases b n with h | h
  · rw [h]
  · rw [h]

theorem relayed_allow {b : RelayBudget} {accepted : ℕ}
    (h : b.relayed = UInt64.ofNat accepted) (n : UInt64) : (b.allow n).2.relayed
      = UInt64.ofNat (if (b.allow n).1 then accepted + n.toNat else accepted) := by
  rcases allow_cases b n with hallow | hallow
  · rw [hallow, if_pos rfl, UInt64.ofNat_add, UInt64.ofNat_toNat, ← h]
  · rw [hallow, if_neg Bool.false_ne_true]
    exact h

variable {enabled : Bool} {L : RelayLedger}

theorem Counts.egress_onEgress (h : Counts enabled L) (n : UInt64) :
    (L.relay.budget.onEgress n).egress = UInt64.ofNat (L.own + L.offered + n.toNat) := by
  rw [UInt64.ofNat_add, UInt64.ofNat_toNat, ← h.egress]
  rfl

theorem forward_of_closed {control : Bool} (h : L.Closed control) (n : ℕ) :
    L.relay.forward n control = (false, L.relay) := if_pos h

theorem forward_of_not_closed {control : Bool} (h : ¬L.Closed control) (n : UInt64) :
    L.relay.forward n.toNat control = (((L.relay.budget.onEgress n).allow n).1,
      { L.relay with budget := ((L.relay.budget.onEgress n).allow n).2 }) := by
  rw [RelayState.forward, UInt64.ofNat_toNat]
  exact if_neg h

theorem Counts.step (h : Counts enabled L) (call : RelayCall) : Counts enabled (L.step call) := by
  rcases call with n | ⟨n, control⟩ | n
  · refine ⟨h.enabled, ?_, h.relayed⟩
    show (L.relay.budget.onEgress n).egress = UInt64.ofNat (L.own + n.toNat + L.offered)
    rw [h.egress_onEgress, Nat.add_right_comm]
  · rw [RelayLedger.step]
    by_cases hclosed : L.Closed control
    · simp only [forward_of_closed hclosed, if_pos hclosed]
      exact h
    · simp only [forward_of_not_closed hclosed, if_neg hclosed]
      refine ⟨h.enabled, ?_, relayed_allow (b := L.relay.budget.onEgress n) h.relayed n⟩
      rw [egress_allow, h.egress_onEgress, Nat.add_assoc]
  · refine ⟨h.enabled, ?_, relayed_allow h.relayed n⟩
    exact (egress_allow L.relay.budget n).trans h.egress

theorem Counts.forward_iff (h : Counts enabled L) (n : UInt64) (control : Bool) :
    (L.relay.forward n.toNat control).1 = true ↔ (enabled = true ∨ control = true) ∧
      Granted L.accepted (L.own + L.offered + n.toNat) n.toNat := by
  have hopen : (enabled = true ∨ control = true) ↔ ¬L.Closed control := by
    rw [Closed, h.enabled, not_and_or, Bool.not_eq_false, Bool.not_eq_false]
  rw [hopen]
  by_cases hclosed : L.Closed control
  · rw [forward_of_closed hclosed]
    simp [hclosed]
  · have hrelayed : (L.relay.budget.onEgress n).relayed = UInt64.ofNat L.accepted := h.relayed
    rw [forward_of_not_closed hclosed, RelayBudget.allow_iff hrelayed (h.egress_onEgress n)]
    simp [hclosed]

/-! ## The rule -/

/-- Ten times what was accepted for relaying is at most what was sent. -/
def TenPercent (L : RelayLedger) : Prop := 10 * L.accepted ≤ L.own + L.accepted

instance (L : RelayLedger) : Decidable L.TenPercent := inferInstanceAs (Decidable (_ ≤ _))

/-- An accepted frame leaves the relay within the rule. -/
def KeepsRule (L : RelayLedger) (call : RelayCall) : Prop :=
  ∀ n control, call = .forward n control → (L.relay.forward n.toNat control).1 = true →
    (L.step call).TenPercent

/-- With these totals, a frame of `n` bytes passes the decision and not the rule: it is more than a
ninth of the node's own traffic, together with everything accepted before. -/
def Slips (accepted own offered n : ℕ) : Prop :=
  own < 9 * (accepted + n) ∧ Granted accepted (own + offered + n) n

/-- The call does not offer such a frame to a relay that is open for it. -/
def NoneSlips (enabled : Bool) (L : RelayLedger) (call : RelayCall) : Prop :=
  ∀ n control, call = .forward n control → (enabled = true ∨ control = true) →
    ¬Slips L.accepted L.own L.offered n.toNat

theorem Counts.keepsRule_iff (h : Counts enabled L) (call : RelayCall) :
    L.KeepsRule call ↔ NoneSlips enabled L call := by
  refine forall₂_congr fun n control ↦ ?_
  rw [h.forward_iff, and_imp]
  refine forall_congr' fun hcall ↦ forall_congr' fun hopen ↦ ?_
  have hafter : Granted L.accepted (L.own + L.offered + n.toNat) n.toNat →
      ((L.step call).TenPercent ↔ ¬L.own < 9 * (L.accepted + n.toNat)) := by
    intro hgranted
    have hok := (h.forward_iff n control).mpr ⟨hopen, hgranted⟩
    have haccepted : (L.step call).accepted = L.accepted + n.toNat := by
      rw [hcall]
      exact if_pos hok
    have hown : (L.step call).own = L.own := by
      rw [hcall]
      rfl
    rw [TenPercent, haccepted, hown]
    omega
  rw [Slips, not_and']
  exact forall_congr' hafter

/-- Where no counter overflows, the frames that slip through lie between two bounds. -/
theorem slips_iff {accepted own offered n : ℕ} (hnext : 10 * (accepted + n) < 2 ^ 64)
    (hegress : 2 * (own + offered + n) < 2 ^ 64) :
    Slips accepted own offered n ↔ own < 9 * (accepted + n) ∧
      (own + offered + n = 0 ∨ 5 * accepted + 4 * n ≤ own + offered) := by
  have hlt : own + offered + n < 2 ^ 64 := by omega
  rw [Slips, Granted, Nat.mod_eq_of_lt hnext, Nat.mod_eq_of_lt hegress, Nat.mod_eq_of_lt hlt]
  omega

/-- There is something between the bounds exactly if the longest frame that passes breaks the
rule. -/
theorem exists_slips_iff (accepted own offered : ℕ) :
    (∃ n, own < 9 * (accepted + n) ∧ 5 * accepted + 4 * n ≤ own + offered) ↔
      5 * accepted ≤ own + offered ∧
        own < 9 * (accepted + (own + offered - 5 * accepted) / 4) := by
  constructor
  · rintro ⟨n, hrule, hpasses⟩
    omega
  · rintro ⟨hroom, hrule⟩
    exact ⟨(own + offered - 5 * accepted) / 4, hrule, by omega⟩

-- refused frames raise the allowance: the fifth attempt is accepted
example : ¬((.onEgress 100 :: List.replicate 5 (.forward 1000 true) : List RelayCall).foldl
    RelayLedger.step (new false)).TenPercent := by
  decide

-- a node that has sent nothing accepts everything
example : ¬(([.allow 1000, .forward 0 true] : List RelayCall).foldl RelayLedger.step
    (new false)).TenPercent := by
  decide

/-! ## What the decision ensures -/

/-- No counter overflows in the call, and nothing is relayed before anything is sent. -/
def Plain (L : RelayLedger) : RelayCall → Prop
  | .onEgress _ => True
  | .forward n _ =>
    10 * (L.accepted + n.toNat) < 2 ^ 64 ∧ 2 * (L.own + L.offered + n.toNat) < 2 ^ 64
  | .allow n =>
    10 * (L.accepted + n.toNat) < 2 ^ 64 ∧ 2 * (L.own + L.offered) < 2 ^ 64 ∧
      (L.own + L.offered = 0 → n = 0)

/-- A fifth of what was counted as sent, refused frames included. -/
def Fifth (L : RelayLedger) : Prop := 5 * L.accepted ≤ L.own + L.offered

theorem fifth_of_granted {accepted egress n : ℕ} (hnext : 10 * (accepted + n) < 2 ^ 64)
    (hegress : 2 * egress < 2 ^ 64) (hzero : egress = 0 → accepted + n = 0)
    (h : Granted accepted egress n) : 5 * (accepted + n) ≤ egress := by
  rcases h with hsilent | hfits
  · have hegress' : egress = 0 := by omega
    rw [hzero hegress', hegress']
  · rw [Nat.mod_eq_of_lt hnext, Nat.mod_eq_of_lt hegress] at hfits
    omega

theorem Fifth.step (hfifth : L.Fifth) (h : Counts enabled L) {call : RelayCall}
    (hcall : L.Plain call) : (L.step call).Fifth := by
  rw [Fifth] at hfifth ⊢
  rcases call with n | ⟨n, control⟩ | n
  · show 5 * L.accepted ≤ L.own + n.toNat + L.offered
    omega
  · rw [RelayLedger.step]
    by_cases hclosed : L.Closed control
    · simp only [forward_of_closed hclosed, if_pos hclosed]
      exact hfifth
    · have hallow := RelayBudget.allow_iff (b := L.relay.budget.onEgress n) h.relayed
        (h.egress_onEgress n) n
      simp only [forward_of_not_closed hclosed, if_neg hclosed]
      split_ifs with hok
      · have hfit := fifth_of_granted hcall.1 hcall.2 (by omega) (hallow.mp hok)
        omega
      · omega
  · have hallow := RelayBudget.allow_iff h.relayed h.egress n
    show 5 * (if (L.relay.budget.allow n).1 then L.accepted + n.toNat else L.accepted)
      ≤ L.own + L.offered
    split_ifs with hok
    · refine fifth_of_granted hcall.1 hcall.2.1 (fun hzero ↦ ?_) (hallow.mp hok)
      rw [hcall.2.2 hzero, UInt64.toNat_zero]
      omega
    · exact hfifth

/-- As long as no counter overflows and something is sent first, at most a fifth of what was counted
as sent was accepted for relaying. -/
theorem accepted_le_fifth {calls : List RelayCall}
    (hrun : Runs.Along RelayLedger.step Plain (new enabled) calls) :
    (calls.foldl RelayLedger.step (new enabled)).Fifth :=
  (hrun.invariant (I := fun L ↦ Counts enabled L ∧ L.Fifth)
    (fun _ call hL hcall ↦ ⟨hL.1.step call, hL.2.step hL.1 hcall⟩)
    ⟨counts_new enabled, Nat.zero_le _⟩).2

end RelayLedger

end Molia
