import Molia.Node.ReadBack
import Molia.Node.ReplyTypes

/-!
# Waiting for a reply

A get that a shard cannot answer at once makes a lookup, and the client waits for what the lookup
ends with. While it waits the node goes on: other clients are served, messages of all kinds come in,
timers fire. Of all this, only the records and the providers that the network gives to this one
lookup matter for what the reply says (`Node.hears`).

The proof follows the channel of the get over the desk of the shard. What its lookup has found is
what it was given so far, in this order, and a reply on the channel says just that. A channel has
one holder or one reply, and never both, so nothing is given to the lookup once it has replied.
-/

namespace Molia

/-! ## Findings -/

namespace Findings

/-- The reply for what has been found. -/
def reply (f : Findings) : Reply :=
  match f.record with
  | some r => .record (some r)
  | none => if f.providers ≠ [] then .providers f.providers else .value none

/-- What a lookup of a value has found once it has been given all this. -/
def ofFounds (key : Key) (founds : List Found) : Findings :=
  founds.foldl add ⟨.findValue, key, none, []⟩

theorem kind_ofFounds (key : Key) (founds : List Found) :
    (ofFounds key founds).kind = .findValue := by
  refine List.foldlRecOn (motive := fun f : Findings ↦ f.kind = .findValue) founds add rfl ?_
  intro f hf found _
  rcases found with r | ps
  · exact hf
  · exact hf

theorem ofFounds_concat (key : Key) (founds : List Found) (found : Found) :
    ofFounds key (founds ++ [found]) = (ofFounds key founds).add found := by
  rw [ofFounds, List.foldl_append]
  rfl

end Findings

theorem Lookup.outcome_of_findings {l : Lookup} {key : Key} {founds : List Found}
    (h : l.findings = .ofFounds key founds) : l.outcome = (Findings.ofFounds key founds).reply := by
  have hkind : l.kind = .findValue :=
    (congrArg Findings.kind h).trans (Findings.kind_ofFounds key founds)
  rw [← h, outcome, hkind]
  rfl

/-! ## One channel of a desk -/

/-- What of a history was given to the lookup of the channel. -/
def heardOn (tx : Chan) (heard : List (Chan × Found)) : List Found :=
  heard.filterMap fun a ↦ if a.1 = tx then some a.2 else none

theorem heardOn_append (tx : Chan) (heard heard' : List (Chan × Found)) :
    heardOn tx (heard ++ heard') = heardOn tx heard ++ heardOn tx heard' := List.filterMap_append

namespace Desk

variable {tx : Chan} {key : Key} {founds : List Found} {d d' : Desk}

/-- A lookup that holds the channel has found what it was given, and a reply on it says so. -/
structure Follows (tx : Chan) (key : Key) (founds : List Found) (d : Desk) : Prop where
  lookups : ∀ id p, d.lookups.lookup id = some p → p.reply = some tx →
    p.lookup.findings = .ofFounds key founds
  replies : ∀ r, (tx, r) ∈ d.replies → r = (Findings.ofFounds key founds).reply

namespace Follows

theorem tended (h : d.Follows tx key founds) (ht : Tended d d') : d'.Follows tx key founds := by
  rcases ht with ⟨f, hf⟩ | ⟨hp, hl⟩ | ⟨hp, hl⟩ | r
  · refine ⟨fun id p hid hreply ↦ ?_, h.replies⟩
    rw [HashMap.lookup_mapValues] at hid
    obtain ⟨p', hp', rfl⟩ := Option.map_eq_some_iff.mp hid
    exact (hf id _).trans (h.lookups id p' hp' hreply)
  · rename_i id₀ p₀ l
    refine ⟨fun id p hid hreply ↦ ?_, h.replies⟩
    rw [HashMap.lookup_insert_of, HashMap.lookup_erase_of] at hid
    split_ifs at hid
    · obtain rfl := Option.some.inj hid
      exact hl.trans (h.lookups id₀ p₀ hp hreply)
    · exact h.lookups id p hid hreply
  · rename_i id₀ p₀ l
    refine ⟨fun id p hid hreply ↦ ?_, fun r hr ↦ ?_⟩
    · rw [HashMap.lookup_erase_of] at hid
      split_ifs at hid
      exact h.lookups id p hid hreply
    · rcases List.mem_append.mp hr with hold | hnew
      · exact h.replies r hold
      · -- the lookup that settles is the one that holds the channel
        rw [Option.mem_toList, Option.map_eq_some_iff] at hnew
        obtain ⟨tx', htx', heq⟩ := hnew
        obtain ⟨rfl, rfl⟩ := Prod.mk.inj heq
        exact Lookup.outcome_of_findings (hl.trans (h.lookups id₀ p₀ hp htx'))
  · refine ⟨fun id p hid hreply ↦ ?_, h.replies⟩
    rw [HashMap.lookup_reorder] at hid
    exact h.lookups id p hid hreply

theorem tends (h : d.Follows tx key founds) (ht : d.Tends d') : d'.Follows tx key founds :=
  ht.invariant (fun _ _ hstep hd ↦ hd.tended hstep) h

/-- An answer for the channel. No reply has been sent on it, and no other lookup holds it. -/
theorem give (h : d.Follows tx key founds) (hone : d.tally tx ≤ 1) {id : UInt32}
    {p : PendingLookup} (hp : d.lookups.lookup id = some p) (htx : p.reply = some tx)
    {f : Lookup → Lookup} {found : Found} (hf : ∀ l, (f l).findings = l.findings.add found) :
    (d.give id f).Follows tx key (founds ++ [found]) := by
  have hheld := held_pos hp htx
  rw [tally] at hone
  refine ⟨fun id' p' hp' hreply ↦ ?_, fun r hr ↦ ?_⟩
  · rcases lookup_give hp' with ⟨rfl, p₁, hp₁, rfl⟩ | ⟨hid, hp₁⟩
    · obtain rfl := Option.some.inj (hp.symm.trans hp₁)
      rw [hf, h.lookups _ p hp htx, Findings.ofFounds_concat]
    · exact absurd (eq_of_held_le_one (by omega) hp htx hp₁ hreply) hid
  · have hanswered := answered_pos (d := d) hr
    dsimp only at hanswered
    omega

theorem give_other (h : d.Follows tx key founds) {id : UInt32}
    (hother : ∀ p, d.lookups.lookup id = some p → p.reply ≠ some tx) (f : Lookup → Lookup) :
    (d.give id f).Follows tx key founds := by
  refine ⟨fun id' p' hp' hreply ↦ ?_, h.replies⟩
  rcases lookup_give hp' with ⟨rfl, p₁, hp₁, rfl⟩ | ⟨-, hp₁⟩
  · exact absurd hreply (hother p₁ hp₁)
  · exact h.lookups id' p' hp₁ hreply

theorem receives (h : d.Follows tx key founds) (hone : d.tally tx ≤ 1)
    {taken : Option (UInt32 × Found)} (hr : d.Receives taken d') :
    d'.Follows tx key (founds ++ heardOn tx (d.given taken).toList) := by
  rcases taken with _ | ⟨id, found⟩
  · have hnone : heardOn tx (d.given none).toList = [] := rfl
    rw [hnone, List.append_nil]
    exact h.tends hr
  obtain ⟨f, hf, htends⟩ := hr
  refine tends ?_ htends
  by_cases hwaits : ∃ p, d.lookups.lookup id = some p ∧ p.reply = some tx
  · obtain ⟨p, hp, htx⟩ := hwaits
    have hheard : heardOn tx (d.given (some (id, found))).toList = [found] := by
      simp [given, hp, htx, heardOn]
    rw [hheard]
    exact h.give hone hp htx hf
  · have hheard : heardOn tx (d.given (some (id, found))).toList = [] := by
      rcases hp : d.lookups.lookup id with _ | p
      · simp [given, hp, heardOn]
      · rcases htx : p.reply with _ | tx'
        · simp [given, hp, htx, heardOn]
        · have hne : tx' ≠ tx := fun heq ↦ hwaits ⟨p, hp, heq ▸ htx⟩
          simp [given, hp, htx, heardOn, hne]
    rw [hheard, List.append_nil]
    exact h.give_other (fun p hp htx ↦ hwaits ⟨p, hp, htx⟩) f

end Follows

theorem replies_subset_of_tended (h : Tended d d') : d.replies ⊆ d'.replies := by
  rcases h with ⟨f, hf⟩ | ⟨hp, hl⟩ | ⟨hp, hl⟩ | r
  · exact List.Subset.refl _
  · exact List.Subset.refl _
  · exact List.subset_append_left _ _
  · exact List.Subset.refl _

theorem replies_subset_of_tends (h : d.Tends d') : d.replies ⊆ d'.replies :=
  h.invariant (I := fun d' ↦ d.replies ⊆ d'.replies)
    (fun _ _ ht ih ↦ List.Subset.trans ih (replies_subset_of_tended ht)) (List.Subset.refl _)

theorem replies_subset_of_receives {taken : Option (UInt32 × Found)} (h : d.Receives taken d') :
    d.replies ⊆ d'.replies := by
  rcases taken with _ | ⟨id, found⟩
  · exact replies_subset_of_tends h
  · obtain ⟨f, -, htends⟩ := h
    have hsubset := replies_subset_of_tends htends
    exact hsubset

end Desk

section

variable [Crates]

/-! ## Along a run -/

namespace Machine

open Desk

variable {tx : Chan} {key : Key} {founds : List Found} {m : Machine}

/-- Another command has another channel. -/
theorem follows_of_serves {c c' : ShardCtx} {cmd : ShardCmd} {tx' : Chan} (hne : tx' ≠ tx)
    (h : c.desk.Follows tx key founds) (hs : c.Serves cmd tx' c') :
    c'.desk.Follows tx key founds := by
  rcases hs with ⟨-, hdesk⟩ | ⟨-, hdesk⟩ | ⟨-, -, -, hdesk⟩
  · rw [hdesk]
    exact h
  · rw [hdesk]
    refine ⟨h.lookups, fun r hr ↦ ?_⟩
    rcases List.mem_append.mp hr with hold | hnew
    · exact h.replies r hold
    · exact absurd (Prod.mk.inj (List.mem_singleton.mp hnew)).1.symm hne
  · rw [hdesk]
    refine ⟨fun id p hp hreply ↦ ?_, h.replies⟩
    rw [HashMap.lookup_insert_of] at hp
    split_ifs at hp
    · obtain rfl := Option.some.inj hp
      exact absurd (Option.some.inj hreply) hne
    · exact h.lookups id p hp hreply

theorem follows_step (h : m.ctx.desk.Follows tx key founds) (hone : m.ctx.desk.tally tx ≤ 1)
    (htx : tx < m.asked.length) (e : Event) :
    (m.step e).ctx.desk.Follows tx key (founds ++ heardOn tx (m.given e).toList) := by
  rcases m.desk_step e with ⟨-, hreceives⟩ | ⟨cmd, htaken, -, hserves⟩
  · exact h.receives hone hreceives
  · have hnone : m.given e = none := by
      rw [given, htaken]
      rfl
    have hheard : heardOn tx (none : Option (Chan × Found)).toList = [] := rfl
    rw [hnone, hheard, List.append_nil]
    exact follows_of_serves (c := m.ctxAt e.env) htx.ne' h hserves

/-- Over a whole run, the channel says what its lookup has heard. -/
theorem follows_foldl (h : m.ctx.desk.Follows tx key founds)
    (hle : m.ctx.desk.tally tx ≤ due m.asked tx) (htx : tx < m.asked.length) (es : List Event) :
    (es.foldl step m).ctx.desk.Follows tx key (founds ++ heardOn tx (m.heard es)) := by
  induction es generalizing m founds with
  | nil => exact (List.append_nil founds).symm ▸ h
  | cons e es ih =>
    have hstep := m.follows_step h (hle.trans (due_le_one _ _)) htx e
    have htally := (m.tally_step e tx).1
    have hlonger : m.asked.length ≤ (m.step e).asked.length := by
      rcases m.desk_step e with ⟨hasked, -⟩ | ⟨cmd, -, hasked, -⟩
      · rw [hasked]
      · rw [hasked, List.length_append]
        exact Nat.le_add_right _ _
    rw [List.foldl_cons, heard, heardOn_append, ← List.append_assoc]
    exact ih hstep (by omega) (htx.trans_le hlonger)

theorem replies_subset_step (m : Machine) (e : Event) :
    m.ctx.desk.replies ⊆ (m.step e).ctx.desk.replies := by
  rcases m.desk_step e with ⟨-, hreceives⟩ | ⟨cmd, -, -, hserves⟩
  · exact replies_subset_of_receives hreceives
  · rcases hserves with ⟨-, hdesk⟩ | ⟨-, hdesk⟩ | ⟨-, -, -, hdesk⟩
    · rw [hdesk]
      exact List.Subset.refl _
    · rw [hdesk]
      exact List.subset_append_left _ _
    · rw [hdesk]
      exact List.Subset.refl _

theorem replies_subset_foldl (m : Machine) (es : List Event) :
    m.ctx.desk.replies ⊆ (es.foldl step m).ctx.desk.replies :=
  List.foldlRecOn (motive := fun m' : Machine ↦ m.ctx.desk.replies ⊆ m'.ctx.desk.replies) es step
    (List.Subset.refl _) fun m' h e _ ↦ List.Subset.trans h (m'.replies_subset_step e)

end Machine

/-! ## Gets -/

namespace ShardCtx

/-- The lookup that a get starts. -/
def newLookup (c : ShardCtx) (key : Key) : Lookup :=
  Lookup.new c.now .findValue key (c.table.closest key alphaDefault)
    (if c.cfg.queryBlind then .blind else .none)

/-- What a get is answered in the step that takes it. A lookup that does not end at once is answered
later, or not at all. -/
def getAnswer (c : ShardCtx) (key : Key) : Option Reply :=
  match c.store.get c.env.unix key with
  | some r => some (.record (some r))
  | none => if (c.newLookup key).Ends c.now then some (.value none) else none

theorem replies_handleGet (c : ShardCtx) (key : Key) (tx : Chan) :
    (c.handleGet key tx).replies
      = c.replies ++ (c.getAnswer key).toList.map fun r ↦ (tx, r) := by
  rw [handleGet, getAnswer]
  rcases c.store.get c.env.unix key with _ | r
  · have hstart : c.startLookup .findValue key (some tx) =
        if (c.toShardNet.dispatchLookupBatch (c.newLookup key)).2.done then
          { c.withNet (c.toShardNet.dispatchLookupBatch (c.newLookup key)).1 with
            batches := c.batches ++ [(c.newLookup key, c.now)] }.finishLookup
            (c.toShardNet.dispatchLookupBatch (c.newLookup key)).2 (some tx)
        else
          { c.withNet (c.toShardNet.dispatchLookupBatch (c.newLookup key)).1 with
            batches := c.batches ++ [(c.newLookup key, c.now)]
            lookups := c.lookups.insert
              (c.toShardNet.dispatchLookupBatch (c.newLookup key)).1.nextCorrId
              ⟨(c.toShardNet.dispatchLookupBatch (c.newLookup key)).2, some tx⟩ } := rfl
    simp only [hstart]
    by_cases hends : (c.newLookup key).Ends c.now
    · rw [ShardNet.dispatch_of_ends hends, if_pos hends]
      rfl
    · have hdone : ¬(c.toShardNet.dispatchLookupBatch (c.newLookup key)).2.done = true := by
        rw [(ShardNet.grows_dispatch hends).done_eq]
        exact Bool.false_ne_true
      rw [if_neg hdone, if_neg hends]
      exact (List.append_nil _).symm
  · rfl

/-- A get that is not answered at once has its lookup on the desk, with nothing found. -/
theorem follows_handleGet {c : ShardCtx} {key : Key} {tx : Chan} (hfree : c.desk.tally tx = 0)
    (hnone : c.getAnswer key = none) : (c.handleGet key tx).desk.Follows tx key [] := by
  have hreplies := c.replies_handleGet key tx
  rw [hnone, Option.toList_none, List.map_nil, List.append_nil] at hreplies
  have hunanswered : c.desk.answered tx = 0 := by
    rw [Desk.tally] at hfree
    omega
  have hunheld : c.desk.held tx = 0 := by
    rw [Desk.tally] at hfree
    omega
  rcases c.serves_handleCmd (.get key) tx with ⟨hcmd, -⟩ | ⟨-, hdesk⟩ | ⟨hcmd, hl, -, hdesk⟩
  · cases hcmd
  · have hmore : c.replies = c.replies ++ [(tx, _)] :=
      hreplies.symm.trans (congrArg Desk.replies hdesk)
    have hlength := congrArg List.length hmore
    rw [List.length_append, List.length_singleton] at hlength
    omega
  · rename_i key' l
    obtain rfl : key = key' := by
      rcases hcmd with hget | hfind
      · exact ShardCmd.get.inj hget
      · cases hfind
    change (c.handleGet key tx).desk = _ at hdesk
    rw [hdesk]
    refine ⟨fun id p hp hreply ↦ ?_, fun r hr ↦ ?_⟩
    · rw [HashMap.lookup_insert_of] at hp
      split_ifs at hp
      · rw [← Option.some.inj hp]
        exact hl
      · have hheld := Desk.held_pos (d := c.desk) hp hreply
        omega
    · have hanswered := Desk.answered_pos (d := c.desk) hr
      dsimp only at hanswered
      omega

end ShardCtx

namespace Machine

/-- The shard is at the end of some run. -/
def Reachable (m : Machine) : Prop := ∃ run : ShardRun, run.final = m

theorem Reachable.step {m : Machine} (h : m.Reachable) (e : Event) : (m.step e).Reachable := by
  obtain ⟨⟨start, events⟩, rfl⟩ := h
  exact ⟨⟨start, events ++ [e]⟩, List.foldl_append⟩

theorem Reachable.tally_le {m : Machine} (h : m.Reachable) (i : Chan) :
    m.ctx.desk.tally i ≤ due m.asked i := by
  obtain ⟨run, rfl⟩ := h
  exact run.tally_le i

end Machine

namespace Node

variable {node : Node} {env : Env} {i : ℕ} {k : Key} {m : Machine} {wait : List (ℕ × Event)}

/-- Every shard is at the end of some run. -/
def Reachable (node : Node) : Prop :=
  ∀ (i : ℕ) (m : Machine), node.shards[i]? = some m → m.Reachable

theorem Reachable.step (h : node.Reachable) (e : ℕ × Event) : (node.step e).Reachable := by
  intro i m' hm'
  rw [Node.step, List.getElem?_modify] at hm'
  obtain ⟨m, hm, rfl⟩ := Option.map_eq_some_iff.mp hm'
  split_ifs
  · exact (h i m hm).step e.2
  · exact h i m hm

/-- What happens at shard `i`. -/
def eventsAt (i : ℕ) (wait : List (ℕ × Event)) : List Event :=
  wait.filterMap fun e ↦ if e.1 = i then some e.2 else none

/-- What happens up to the deadline. -/
def inTime (deadline : ℕ) (wait : List (ℕ × Event)) : List (ℕ × Event) :=
  wait.takeWhile fun e ↦ e.2.env.instant ≤ deadline

/-- What the network gives to the lookup of a get while the client waits. -/
def hears (node : Node) (env : Env) (key : Key) (wait : List (ℕ × Event)) : List Found :=
  match node.shards[node.owner key]? with
  | none => []
  | some m => heardOn m.asked.length ((m.step ⟨env, .command (.get key)⟩).heard
      (eventsAt (node.owner key) (inTime (env.instant + callTimeout) wait)))

omit [Crates] in
theorem eventsAt_cons (e : ℕ × Event) :
    eventsAt i (e :: wait) = if e.1 = i then e.2 :: eventsAt i wait else eventsAt i wait := by
  rw [eventsAt, List.filterMap_cons]
  split_ifs
  · rfl
  · rfl

theorem shards_foldl (hm : node.shards[i]? = some m) (wait : List (ℕ × Event)) :
    (wait.foldl step node).shards[i]? = some ((eventsAt i wait).foldl Machine.step m) := by
  induction wait generalizing node m with
  | nil => exact hm
  | cons e wait ih =>
    rw [List.foldl_cons, ih (shards_step e hm), eventsAt_cons]
    split_ifs
    · rfl
    · rfl

theorem received_of_recvTimeout {tx : Chan} {seen deadline : ℕ} {r : Reply}
    (h : (recvTimeout i tx seen deadline node wait).1 = .ok r) :
    ∃ early, early <+: inTime deadline wait ∧
      (early.foldl step node).received i tx seen = some r := by
  induction wait generalizing node with
  | nil =>
    rw [recvTimeout] at h
    rcases hr : node.received i tx seen with _ | r'
    · rw [hr] at h
      cases h
    · rw [hr] at h
      cases h
      exact ⟨[], List.nil_prefix, hr⟩
  | cons e wait ih =>
    rw [recvTimeout] at h
    rcases hr : node.received i tx seen with _ | r'
    · simp only [hr] at h
      split_ifs at h with hdeadline
      · obtain ⟨early, hearly, hreceived⟩ := ih h
        refine ⟨e :: early, ?_, hreceived⟩
        rw [inTime, List.takeWhile_cons, if_pos (decide_eq_true hdeadline)]
        exact (List.prefix_cons_inj e).mpr hearly
    · simp only [hr] at h
      cases h
      exact ⟨[], List.nil_prefix, hr⟩

theorem eq_of_recvTimeout_error {tx : Chan} {seen deadline : ℕ} {e : String}
    (h : (recvTimeout i tx seen deadline node wait).1 = .error e) : e = "timeout" := by
  induction wait generalizing node with
  | nil =>
    rw [recvTimeout] at h
    rcases hr : node.received i tx seen with _ | r
    · rw [hr] at h
      cases h
      rfl
    · rw [hr] at h
      cases h
  | cons _ wait ih =>
    rw [recvTimeout] at h
    rcases hr : node.received i tx seen with _ | r
    · simp only [hr] at h
      split_ifs at h
      · exact ih h
      · cases h
        rfl
    · simp only [hr] at h
      cases h

theorem mem_replies_of_received {tx : Chan} {seen : ℕ} {r : Reply} (hm : node.shards[i]? = some m)
    (h : node.received i tx seen = some r) : (tx, r) ∈ m.ctx.replies := by
  rw [received, hm] at h
  obtain ⟨m', hm', hfound⟩ := Option.bind_eq_some_iff.mp h
  obtain rfl := Option.some.inj hm'
  obtain ⟨a, ha, hr⟩ := Option.bind_eq_some_iff.mp hfound
  have htx := List.find?_some ha
  rw [decide_eq_true_eq] at htx
  obtain rfl : a.2 = r := Option.some.inj hr
  rw [← htx]
  exact List.mem_of_mem_drop (List.mem_of_find?_eq_some ha)

/-- **What a get returns**, if it returns in time: what the shard has, or else what its lookup is
given while the client waits. -/
theorem reply_of_call_get {r : Reply} (hm : node.shards[node.owner k]? = some m)
    (hreachable : m.Reachable) (h : (node.call env (node.owner k) (.get k) wait).1 = .ok r) :
    r = ((m.ctxAt env).getAnswer k).getD (Findings.ofFounds k (node.hears env k wait)).reply := by
  obtain ⟨m', hm', hready⟩ := ready_of_call h
  obtain rfl : m = m' := Option.some.inj (hm.symm.trans hm')
  have hstep : m.step ⟨env, .command (.get k)⟩ = m.takeCommand env (.get k) := if_pos hready
  rcases hanswer : (m.ctxAt env).getAnswer k with _ | a
  · -- the lookup replies while the client waits, and the reply is still there at the end
    rw [call, hm] at h
    simp only [if_neg hready.ne_exited, if_pos hready] at h
    obtain ⟨early, ⟨rest, hrest⟩, hreceived⟩ := received_of_recvTimeout h
    have hm₁ := shards_step (node.owner k, ⟨env, .command (.get k)⟩) hm
    rw [if_pos rfl] at hm₁
    have hearly := mem_replies_of_received (shards_foldl hm₁ early) hreceived
    have hfree : m.ctx.desk.tally m.asked.length = 0 := by
      have hle := hreachable.tally_le m.asked.length
      simpa [Machine.due] using hle
    have hfiled : (m.step ⟨env, .command (.get k)⟩).ctx.desk.Follows m.asked.length k [] := by
      rw [hstep]
      exact ShardCtx.follows_handleGet hfree hanswer
    have hasked : m.asked.length < (m.step ⟨env, .command (.get k)⟩).asked.length := by
      rw [hstep]
      simp [Machine.takeCommand]
    have hfollows := Machine.follows_foldl hfiled ((hreachable.step _).tally_le _) hasked
      (eventsAt (node.owner k) (inTime (env.instant + callTimeout) wait))
    have hlast := Machine.replies_subset_foldl _ (eventsAt (node.owner k) rest) hearly
    rw [← List.foldl_append, eventsAt, eventsAt, ← List.filterMap_append, hrest] at hlast
    rw [Option.getD_none, hears, hm]
    exact hfollows.replies r hlast
  · have hreplies := (m.ctxAt env).replies_handleGet k m.asked.length
    rw [hanswer] at hreplies
    have hcall : node.call env (node.owner k) (.get k) wait
        = (.ok a, node.step (node.owner k, ⟨env, .command (.get k)⟩)) :=
      call_of_ready hm hready hreplies
    rw [hcall] at h
    cases h
    rfl

end Node

end

end Molia
