import Mathlib.Data.List.Induction
import Molia.Shard.Desk

/-!
# One reply for each command

The channel of a command is used up by one reply, or held by one pending lookup. What counts is the
number of replies on the channel plus the number of lookups that hold it (`tally`): tending to the
desk leaves it alone, and a command adds one for its own channel. So there is never more than one
reply.

There is also never less, unless a lookup is filed under the id of another one that is still
pending. Ids repeat themselves after `2 ^ 32 - 1` of them, so this takes as many new ids while a
lookup is pending.
-/

namespace Molia

/-! ## Counting -/

namespace Desk

variable {d d' : Desk}

/-- How many replies have been sent on a channel. -/
def answered (d : Desk) (i : Chan) : ℕ := d.replies.countP fun a ↦ a.1 = i

/-- How many pending lookups hold a channel. -/
def held (d : Desk) (i : Chan) : ℕ :=
  HashMap.countValues (fun p : PendingLookup ↦ p.reply = some i) d.lookups

def tally (d : Desk) (i : Chan) : ℕ := d.answered i + d.held i

theorem tally_append (d : Desk) (l : List (Chan × Reply)) (i : Chan) :
    tally { d with replies := d.replies ++ l } i = d.tally i + l.countP fun a ↦ a.1 = i := by
  have hanswered : answered { d with replies := d.replies ++ l } i
      = d.answered i + l.countP fun a ↦ a.1 = i := List.countP_append
  rw [tally, hanswered, tally, Nat.add_right_comm]
  rfl

theorem tally_reply (d : Desk) (tx i : Chan) (r : Reply) :
    tally { d with replies := d.replies ++ [(tx, r)] } i
      = d.tally i + if tx = i then 1 else 0 := by
  rw [tally_append, List.countP_singleton]
  simp only [decide_eq_true_eq]

theorem tally_mapValues (d : Desk) (f : UInt32 → PendingLookup → PendingLookup)
    (hf : ∀ id p, (f id p).reply = p.reply) (i : Chan) :
    tally { d with lookups := d.lookups.mapValues f } i = d.tally i := by
  have hheld : held { d with lookups := d.lookups.mapValues f } i = d.held i :=
    HashMap.countValues_mapValues fun id p ↦ by rw [hf]
  rw [tally, hheld]
  rfl

theorem tally_erase (d : Desk) {id : UInt32} {p : PendingLookup}
    (hp : d.lookups.lookup id = some p) (i : Chan) :
    d.tally i = tally { d with lookups := d.lookups.erase id } i
      + if p.reply = some i then 1 else 0 := by
  have hheld : d.held i = held { d with lookups := d.lookups.erase id } i
      + if p.reply = some i then 1 else 0 := by
    rw [held, HashMap.countValues_erase hp]
    simp only [decide_eq_true_eq]
    rfl
  rw [tally, hheld, tally, Nat.add_assoc]
  rfl

theorem tally_insert (d : Desk) {id : UInt32} (hid : d.lookups.lookup id = none)
    (p : PendingLookup) (i : Chan) :
    tally { d with lookups := d.lookups.insert id p } i
      = d.tally i + if p.reply = some i then 1 else 0 := by
  have hheld : held { d with lookups := d.lookups.insert id p } i
      = d.held i + if p.reply = some i then 1 else 0 := by
    rw [held, HashMap.countValues_insert hid]
    simp only [decide_eq_true_eq]
    rfl
  rw [tally, hheld, tally, Nat.add_assoc]
  rfl

/-- Under any id, at least no channel is held twice. -/
theorem tally_insert_le (d : Desk) (id : UInt32) (p : PendingLookup) (i : Chan) :
    tally { d with lookups := d.lookups.insert id p } i
      ≤ d.tally i + if p.reply = some i then 1 else 0 := by
  have hheld := HashMap.countValues_insert_le (p := fun p : PendingLookup ↦ p.reply = some i)
    d.lookups id p
  simp only [decide_eq_true_eq] at hheld
  rw [tally, tally, Nat.add_assoc]
  exact Nat.add_le_add_left hheld (d.answered i)

theorem tally_eq_of_tended (h : Tended d d') (i : Chan) : d'.tally i = d.tally i := by
  rcases h with ⟨f, -⟩ | ⟨hp, -⟩ | ⟨hp, -⟩ | r
  · exact tally_mapValues d (fun id p ↦ { p with lookup := f id p.lookup }) (fun _ _ ↦ rfl) i
  · rename_i id p l
    rw [tally_erase d hp]
    exact tally_insert { d with lookups := d.lookups.erase id } (AList.lookup_erase id d.lookups)
      { p with lookup := l } i
  · rename_i id p l
    have hsent : ((p.reply.map fun tx ↦ (tx, l.outcome)).toList.countP fun a ↦ a.1 = i)
        = if p.reply = some i then 1 else 0 := by
      rcases p.reply with _ | tx
      · rfl
      · simp [List.countP_singleton]
    rw [tally_erase d hp, ← hsent]
    exact tally_append { d with lookups := d.lookups.erase id } _ i
  · exact congrArg (d.answered i + ·) (HashMap.countValues_reorder r d.lookups)

theorem tally_eq_of_tends (h : d.Tends d') (i : Chan) : d'.tally i = d.tally i :=
  h.invariant (I := fun d' ↦ d'.tally i = d.tally i)
    (fun _ _ htended heq ↦ (tally_eq_of_tended htended i).trans heq) rfl

theorem tally_eq_of_receives {taken : Option (UInt32 × Found)} (h : d.Receives taken d')
    (i : Chan) : d'.tally i = d.tally i := by
  rcases taken with _ | ⟨id, found⟩
  · exact tally_eq_of_tends h i
  · obtain ⟨f, -, htends⟩ := h
    rw [tally_eq_of_tends htends]
    refine tally_mapValues d _ (fun id' p ↦ ?_) i
    split
    · rfl
    · rfl

/-! ## Ids on the desk -/

theorem isSome_of_tended (h : Tended d d') {id : UInt32} (hid : (d'.lookups.lookup id).isSome) :
    (d.lookups.lookup id).isSome := by
  rcases h with ⟨f, -⟩ | ⟨hp, -⟩ | ⟨hp, -⟩ | r
  · rwa [HashMap.lookup_mapValues, Option.isSome_map] at hid
  · rw [HashMap.lookup_insert_of, HashMap.lookup_erase_of] at hid
    split_ifs at hid with heq
    · rw [heq, hp]
      rfl
    · exact hid
  · rw [HashMap.lookup_erase_of] at hid
    split_ifs at hid
    · cases hid
    · exact hid
  · rwa [HashMap.lookup_reorder] at hid

theorem isSome_of_receives {taken : Option (UInt32 × Found)} (h : d.Receives taken d')
    {id : UInt32} (hid : (d'.lookups.lookup id).isSome) : (d.lookups.lookup id).isSome := by
  have htends : ∀ {d₁ : Desk}, d₁.Tends d' → (d₁.lookups.lookup id).isSome := by
    intro d₁ h₁
    revert hid
    exact h₁.invariant (I := fun d' ↦ (d'.lookups.lookup id).isSome → (d₁.lookups.lookup id).isSome)
      (fun _ _ htended ih hid ↦ ih (isSome_of_tended htended hid)) fun h ↦ h
  rcases taken with _ | ⟨id', found⟩
  · exact htends h
  · obtain ⟨f, -, hgiven⟩ := h
    have hsome := htends hgiven
    rwa [give, HashMap.lookup_modify, Option.isSome_map] at hsome

end Desk

/-! ## The counter -/

/-- How far the counter has gone from one id to another, on a circle of `2 ^ 32 - 1` ids. -/
def corrAdvance (c c' : UInt32) : ℕ := (c'.toNat + (2 ^ 32 - 1) - c.toNat) % (2 ^ 32 - 1)

theorem toNat_nextId (c : UInt32) :
    (ShardNet.nextId c).toNat % (2 ^ 32 - 1) = (c.toNat + 1) % (2 ^ 32 - 1) := by
  have hlt := c.toNat_lt
  rw [ShardNet.nextId]
  split_ifs with hzero
  · rw [← UInt32.toNat_inj, UInt32.toNat_add] at hzero
    simp only [UInt32.reduceToNat] at hzero ⊢
    omega
  · rw [← UInt32.toNat_inj, UInt32.toNat_add] at hzero
    rw [UInt32.toNat_add]
    simp only [UInt32.reduceToNat] at hzero ⊢
    omega

theorem corrAdvance_self (c : UInt32) : corrAdvance c c = 0 := by
  rw [corrAdvance, Nat.add_sub_cancel_left, Nat.mod_self]

theorem corrAdvance_iterate (c : UInt32) (k : ℕ) :
    corrAdvance c (ShardNet.nextId^[k] c) = k % (2 ^ 32 - 1) := by
  have hmod : (ShardNet.nextId^[k] c).toNat % (2 ^ 32 - 1) = (c.toNat + k) % (2 ^ 32 - 1) := by
    induction k with
    | zero => rfl
    | succ k ih =>
      have hnext := toNat_nextId (ShardNet.nextId^[k] c)
      rw [Function.iterate_succ_apply']
      omega
  have hlt := c.toNat_lt
  rw [corrAdvance]
  omega

section

variable [Crates]

namespace Machine

/-- How many ids a step uses up. A step that goes all the way round counts for less. -/
def allocates (m : Machine) (e : Event) : ℕ :=
  corrAdvance m.ctx.nextCorrId (m.step e).ctx.nextCorrId

/-- How many ids a run uses up. -/
def allocated : Machine → List Event → ℕ
  | _, [] => 0
  | m, e :: es => m.allocates e + allocated (m.step e) es

theorem allocated_append (m : Machine) (es es' : List Event) :
    m.allocated (es ++ es') = m.allocated es + (es.foldl step m).allocated es' := by
  induction es generalizing m with
  | nil => exact (Nat.zero_add _).symm
  | cons e es ih => rw [List.cons_append, allocated, ih, allocated, List.foldl_cons, Nat.add_assoc]

theorem allocated_mod (m : Machine) (es : List Event) :
    m.allocated es % (2 ^ 32 - 1)
      = corrAdvance m.ctx.nextCorrId (es.foldl step m).ctx.nextCorrId := by
  induction es generalizing m with
  | nil => exact (corrAdvance_self _).symm
  | cons e es ih =>
    have hrest := ih (m.step e)
    -- both sides are only known up to full rounds of the counter
    have hlt := m.ctx.nextCorrId.toNat_lt
    have hlt' := (m.step e).ctx.nextCorrId.toNat_lt
    rw [allocated, allocates, List.foldl_cons]
    generalize (es.foldl step (m.step e)).ctx.nextCorrId = last at hrest ⊢
    rw [corrAdvance] at hrest ⊢
    rw [corrAdvance]
    omega

/-- A lookup is pending under the id. -/
def Pends (id : UInt32) (m : Machine) : Prop := (m.ctx.lookups.lookup id).isSome

/-- Fewer than `2 ^ 32 - 1` ids are used up while one lookup is pending. -/
def Metered (m : Machine) (es : List Event) : Prop :=
  ∀ pre mid post, es = pre ++ mid ++ post →
    ∀ id, Runs.Throughout step (Pends id) (pre.foldl step m) mid →
      (pre.foldl step m).allocated mid < 2 ^ 32 - 1

/-- A run that uses up few ids on the whole. -/
theorem metered_of_allocated {m : Machine} {es : List Event} (h : m.allocated es < 2 ^ 32 - 1) :
    m.Metered es := by
  rintro pre mid post rfl id -
  rw [allocated_append, allocated_append] at h
  omega

theorem Metered.init {m : Machine} {es : List Event} {e : Event} (h : m.Metered (es ++ [e])) :
    m.Metered es := by
  rintro pre mid post rfl
  exact h pre mid (post ++ [e]) (List.append_assoc _ _ _)

/-- Every pending lookup was filed under the counter of that moment. -/
def Filed (m : Machine) (es : List Event) : Prop :=
  ∀ id, Pends id (es.foldl step m) → ∃ pre mid, es = pre ++ mid ∧
    (pre.foldl step m).ctx.nextCorrId = id ∧ Runs.Throughout step (Pends id) (pre.foldl step m) mid

theorem pends_of_pends_step {m : Machine} {e : Event} {id : UInt32} (h : Pends id (m.step e)) :
    Pends id m ∨ (m.step e).ctx.nextCorrId = id := by
  rcases m.desk_step e with ⟨-, hreceives⟩ | ⟨cmd, -, -, hserves⟩
  · exact Or.inl (Desk.isSome_of_receives hreceives h)
  · have hsame : (m.step e).ctx.lookups = m.ctx.lookups →
        Pends id m ∨ (m.step e).ctx.nextCorrId = id := by
      intro hlookups
      rw [Pends, hlookups] at h
      exact Or.inl h
    rcases hserves with ⟨-, hdesk⟩ | ⟨-, hdesk⟩ | ⟨-, -, -, hdesk⟩
    · exact hsame (congrArg Desk.lookups hdesk)
    · exact hsame (congrArg Desk.lookups hdesk)
    · have hfiled := congrArg Desk.lookups hdesk
      change (m.step e).ctx.lookups = _ at hfiled
      rw [Pends, hfiled, HashMap.lookup_insert_of] at h
      split_ifs at h with hid
      · exact Or.inr hid.symm
      · exact Or.inl h

theorem Filed.concat {m : Machine} {es : List Event} (h : m.Filed es) (e : Event) :
    m.Filed (es ++ [e]) := by
  intro id hid
  have hstep : (es ++ [e]).foldl step m = (es.foldl step m).step e := by
    rw [List.foldl_append]
    rfl
  rw [hstep] at hid
  -- it was pending before, or this step has filed it
  rcases pends_of_pends_step hid with hbefore | hnew
  · obtain ⟨pre, mid, rfl, hpre, hmid⟩ := h id hbefore
    refine ⟨pre, mid ++ [e], List.append_assoc _ _ _, hpre, ?_⟩
    rw [Runs.throughout_concat, ← List.foldl_append, ← List.append_assoc, hstep]
    exact ⟨hmid, hid⟩
  · refine ⟨es ++ [e], [], (List.append_nil _).symm, ?_, ?_⟩
    · rw [hstep]
      exact hnew
    · rw [hstep]
      exact hid

/-- **Ids are fresh.** In a metered run, a lookup is never filed under the id of another. -/
theorem Filed.fresh {m : Machine} {es : List Event} (h : m.Filed es) {e : Event}
    (hm : m.Metered (es ++ [e])) (halloc : 0 < (es.foldl step m).allocates e)
    (hafter : Pends ((es.foldl step m).step e).ctx.nextCorrId ((es.foldl step m).step e)) :
    ¬Pends ((es.foldl step m).step e).ctx.nextCorrId (es.foldl step m) := by
  intro hbefore
  obtain ⟨pre, mid, rfl, hpre, hmid⟩ := h _ hbefore
  have hstep : (mid ++ [e]).foldl step (pre.foldl step m)
      = ((pre ++ mid).foldl step m).step e := by
    rw [List.foldl_append, List.foldl_append]
    rfl
  have hfew := hm pre (mid ++ [e]) [] (by simp) _ (Runs.throughout_concat.mpr ⟨hmid, by
    rw [hstep]
    exact hafter⟩)
  -- the counter has come back to where it was, so it has not moved at all
  have hround := (pre.foldl step m).allocated_mod (mid ++ [e])
  rw [hstep, hpre, corrAdvance_self, Nat.mod_eq_of_lt hfew, allocated_append,
    ← List.foldl_append] at hround
  have hlast : ((pre ++ mid).foldl step m).allocated [e]
      = ((pre ++ mid).foldl step m).allocates e := Nat.add_zero _
  omega

/-! ## The law -/

/-- What a channel is good for: one reply if its command asks for one. -/
def due (asked : List ShardCmd) (i : Chan) : ℕ :=
  if asked[i]?.map ShardCmd.replies = some true then 1 else 0

omit [Crates] in
theorem due_le_one (asked : List ShardCmd) (i : Chan) : due asked i ≤ 1 := by
  rw [due]
  split
  · exact Nat.le_refl 1
  · exact Nat.zero_le 1

omit [Crates] in
theorem due_concat (asked : List ShardCmd) (cmd : ShardCmd) (i : Chan) :
    due (asked ++ [cmd]) i
      = due asked i + if cmd.replies = true ∧ asked.length = i then 1 else 0 := by
  rw [due, due]
  rcases lt_trichotomy i asked.length with hlt | rfl | hgt
  · rw [List.getElem?_append_left hlt, if_neg (c := _ ∧ _) fun h ↦ hlt.ne' h.2, Nat.add_zero]
  · simp
  · have hlen : (asked ++ [cmd]).length ≤ i := by
      rw [List.length_append, List.length_singleton]
      exact hgt
    rw [List.getElem?_eq_none hlen, List.getElem?_eq_none hgt.le,
      if_neg (c := _ ∧ _) fun h ↦ hgt.ne h.2, Nat.add_zero]

omit [Crates] in
theorem replies_of_answers {cmd : ShardCmd} {r : Reply} (h : cmd.Answers r) :
    cmd.replies = true := by
  rcases cmd with _ | _ | _ | _ | _ | _ | _ | _
  · exact h.elim
  · rfl
  · rfl
  · rfl
  · rfl
  · rfl
  · exact h.elim
  · exact h.elim

omit [Crates] in
theorem replies_of_looksUp {cmd : ShardCmd} {key : Key}
    (h : cmd = .get key ∨ cmd = .findProviders key) : cmd.replies = true := by
  rcases h with rfl | rfl
  · rfl
  · rfl

theorem pends_of_desk_eq {m : Machine} {d : Desk} {id : UInt32} {p : PendingLookup}
    (h : m.ctx.desk = { d with lookups := d.lookups.insert id p }) : Pends id m := by
  have hlookups : m.ctx.lookups = d.lookups.insert id p := congrArg Desk.lookups h
  rw [Pends, hlookups, AList.lookup_insert]
  rfl

theorem allocates_pos {m : Machine} {e : Event}
    (h : ShardNet.Allocates 1 (alphaDefault * 6) (m.ctxAt e.env).toShardNet
      (m.step e).ctx.toShardNet) : 0 < m.allocates e := by
  obtain ⟨k, hk, hk', heq⟩ := h
  have hadvance := corrAdvance_iterate m.ctx.nextCorrId k
  have hsmall : k < 2 ^ 32 - 1 := lt_of_le_of_lt hk' (by decide)
  rw [allocates, heq]
  change 0 < corrAdvance m.ctx.nextCorrId (ShardNet.nextId^[k] m.ctx.nextCorrId)
  rw [hadvance, Nat.mod_eq_of_lt hsmall]
  exact hk

/-- **The law of a step.** No channel is counted for more than its command asks for, and none for
less if a new lookup comes with a new id. -/
theorem tally_step (m : Machine) (e : Event) (i : Chan) :
    (m.step e).ctx.desk.tally i + due m.asked i ≤ m.ctx.desk.tally i + due (m.step e).asked i ∧
      ((0 < m.allocates e → Pends (m.step e).ctx.nextCorrId (m.step e) →
          ¬Pends (m.step e).ctx.nextCorrId m) →
        (m.step e).ctx.desk.tally i + due m.asked i
          = m.ctx.desk.tally i + due (m.step e).asked i) := by
  rcases m.desk_step e with ⟨hasked, hreceives⟩ | ⟨cmd, -, hasked, hserves⟩
  · rw [hasked, Desk.tally_eq_of_receives hreceives]
    exact ⟨Nat.le_refl _, fun _ ↦ rfl⟩
  rw [hasked, due_concat]
  rcases hserves with ⟨hcmd, hdesk⟩ | ⟨hcmd, hdesk⟩ | ⟨hcmd, -, halloc, hdesk⟩
  · rw [hdesk, hcmd, if_neg (c := _ ∧ _) fun h ↦ by cases h.1]
    exact ⟨Nat.le_refl _, fun _ ↦ rfl⟩
  · rename_i r
    have htally : (m.step e).ctx.desk.tally i
        = m.ctx.desk.tally i + if m.asked.length = i then 1 else 0 := by
      rw [hdesk]
      exact Desk.tally_reply m.ctx.desk m.asked.length i r
    rw [htally, replies_of_answers hcmd]
    simp only [true_and]
    omega
  · rename_i key l
    have hfiled : (m.step e).ctx.desk = { m.ctx.desk with
        lookups := m.ctx.desk.lookups.insert (m.step e).ctx.nextCorrId
          ⟨l, some m.asked.length⟩ } := hdesk
    rw [replies_of_looksUp hcmd]
    simp only [true_and]
    refine ⟨?_, fun hfresh ↦ ?_⟩
    · -- under an id in use, the new lookup takes the place of another
      have hle := Desk.tally_insert_le m.ctx.desk (m.step e).ctx.nextCorrId
        ⟨l, some m.asked.length⟩ i
      simp only [← hfiled, Option.some.injEq] at hle
      omega
    · have hafter := pends_of_desk_eq hfiled
      have hnone := Option.not_isSome_iff_eq_none.mp (hfresh (allocates_pos halloc) hafter)
      have heq := Desk.tally_insert m.ctx.desk hnone ⟨l, some m.asked.length⟩ i
      simp only [← hfiled, Option.some.injEq] at heq
      omega

end Machine

namespace ShardRun

open Machine

/-- No channel is counted for more than its command asks for. -/
theorem tally_le (run : ShardRun) (i : Chan) :
    run.final.ctx.desk.tally i ≤ due run.final.asked i := by
  refine Runs.Along.invariant (I := fun m : Machine ↦ m.ctx.desk.tally i ≤ due m.asked i)
    Runs.along_true (fun m e h _ ↦ ?_) (Nat.le_refl 0)
  have hstep := (m.tally_step e i).1
  omega

/-- **The law of a run.** In a metered run each channel is counted for what its command asks for. -/
theorem tally_eq (run : ShardRun) (hm : run.start.machine.Metered run.events) (i : Chan) :
    run.final.ctx.desk.tally i = due run.final.asked i := by
  obtain ⟨start, events⟩ := run
  have hall : start.machine.Filed events ∧ (events.foldl step start.machine).ctx.desk.tally i
      = due (events.foldl step start.machine).asked i := by
    induction events using List.reverseRecOn with
    | nil =>
      refine ⟨fun id hid ↦ ?_, rfl⟩
      cases hid
    | append_singleton es e ih =>
      obtain ⟨hfiled, htally⟩ := ih hm.init
      have hstep := ((es.foldl step start.machine).tally_step e i).2
        fun halloc hafter ↦ hfiled.fresh hm halloc hafter
      refine ⟨hfiled.concat e, ?_⟩
      rw [List.foldl_append]
      change (step _ e).ctx.desk.tally i = due (step _ e).asked i
      omega
  exact hall.2

end ShardRun

/-- **One reply for each command.** In every run in which fewer than `2 ^ 32 - 1` ids are used up
while a lookup is pending, no channel gets two replies; and a command that looks something up has
been answered once and for all, or its channel is held by exactly one pending lookup. -/
theorem one_reply (run : ShardRun) (hm : run.start.machine.Metered run.events) :
    (∀ i, run.final.ctx.desk.answered i ≤ 1) ∧
      ∀ i key, run.final.asked[i]? = some (.get key) ∨
          run.final.asked[i]? = some (.findProviders key) →
        (run.final.ctx.desk.answered i = 1 ∧ run.final.ctx.desk.held i = 0) ∨
          (run.final.ctx.desk.answered i = 0 ∧ run.final.ctx.desk.held i = 1) := by
  refine ⟨fun i ↦ ?_, fun i key hasked ↦ ?_⟩
  · have htally := run.tally_le i
    have hdue := Machine.due_le_one run.final.asked i
    rw [Desk.tally] at htally
    omega
  · have htally := run.tally_eq hm i
    have hdue : Machine.due run.final.asked i = 1 := by
      rcases hasked with hget | hfind
      · rw [Machine.due, hget]
        rfl
      · rw [Machine.due, hfind]
        rfl
    rw [hdue, Desk.tally] at htally
    omega

end

section

attribute [local instance] Sample.wireCrates

open Sample

/-- A shard that has asked its only peer for a key. -/
private def waitingRun : ShardRun where
  start := shardStart ⟨true, false, false⟩
  events := [⟨noon, .command (.injectPeer (.new ⟨Bytes32.fill 5⟩ (.ofV4 10 0 0 9 9000)))⟩,
    ⟨noon, .command (.get ⟨Bytes32.fill 7⟩)⟩]

/-- One lookup is pending for it. -/
theorem one_reply_waiting :
    waitingRun.final.ctx.desk.answered 1 = 0 ∧ waitingRun.final.ctx.desk.held 1 = 1 := by
  have hfew : waitingRun.start.machine.allocated waitingRun.events < 2 ^ 32 - 1 := by
    decide +kernel
  have hunanswered : waitingRun.final.ctx.desk.answered 1 = 0 := by decide +kernel
  rcases (one_reply waitingRun (Machine.metered_of_allocated hfew)).2 1 ⟨Bytes32.fill 7⟩
    (Or.inl (by decide +kernel)) with ⟨hone, -⟩ | hheld
  · rw [hunanswered] at hone
    cases hone
  · exact hheld

end

end Molia
