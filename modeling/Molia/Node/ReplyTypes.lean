import Molia.Node.Basic
import Molia.Shard.Replies

/-!
# Replies and the calls that read them

A `Get` and a `FindProviders` run the same kind of lookup, and a lookup replies with the best it has
found: a record, else providers, else nothing. The client calls read different replies. `get` and
`get_record` do not know what to do with providers, and `find_providers` not with a record.

Which reply a lookup ends with depends on the answers it has been given. They are collected here as
a history of the run, under the channel of the command. What the client makes of the reply can then
be read off the history.
-/

namespace Molia

/-! ## Histories -/

/-- A record has been given to the lookup of the channel. -/
def HeardRecord (heard : List (Chan × Found)) (i : Chan) : Prop := ∃ r, (i, Found.record r) ∈ heard

/-- Providers have been given to it. -/
def HeardProviders (heard : List (Chan × Found)) (i : Chan) : Prop :=
  ∃ ps, ps ≠ [] ∧ (i, Found.providers ps) ∈ heard

section

variable {heard : List (Chan × Found)} {i tx : Chan} {found : Found}

theorem heardRecord_concat : HeardRecord (heard ++ [(tx, found)]) i ↔
    HeardRecord heard i ∨ (tx = i ∧ ∃ r, found = .record r) := by
  simp only [HeardRecord, List.mem_append, List.mem_singleton, Prod.mk.injEq, exists_or]
  refine or_congr Iff.rfl ⟨?_, ?_⟩
  · rintro ⟨r, rfl, rfl⟩
    exact ⟨rfl, r, rfl⟩
  · rintro ⟨rfl, r, rfl⟩
    exact ⟨r, rfl, rfl⟩

theorem heardProviders_concat : HeardProviders (heard ++ [(tx, found)]) i ↔
    HeardProviders heard i ∨ (tx = i ∧ ∃ ps, ps ≠ [] ∧ found = .providers ps) := by
  simp only [HeardProviders, List.mem_append, List.mem_singleton, Prod.mk.injEq, and_or_left,
    exists_or]
  refine or_congr Iff.rfl ⟨?_, ?_⟩
  · rintro ⟨ps, hps, rfl, rfl⟩
    exact ⟨rfl, ps, hps, rfl⟩
  · rintro ⟨rfl, ps, hps, rfl⟩
    exact ⟨ps, hps, rfl, rfl⟩

theorem mergeProviders_ne_nil_iff (known new : List (NodeId × Bytes)) :
    Lookup.mergeProviders known new ≠ [] ↔ known ≠ [] ∨ new ≠ [] := by
  rw [Lookup.mergeProviders]
  induction new generalizing known with
  | nil => simp
  | cons p new ih =>
    rw [List.foldl_cons, ih]
    split
    · rename_i hany
      have hknown : known ≠ [] := by
        rintro rfl
        cases hany
      simp [hknown]
    · simp

/-! ## What a lookup has heard -/

/-- What a lookup has found is what it has heard. -/
structure Findings.Tells (f : Findings) (heard : List (Chan × Found)) (i : Chan) : Prop where
  kind : f.kind = .findValue
  record : f.record.isSome ↔ HeardRecord heard i
  providers : f.providers ≠ [] ↔ HeardProviders heard i

namespace Findings.Tells

variable {f : Findings}

theorem new (key : Key) (h : ∀ a ∈ heard, a.1 ≠ i) :
    Tells ⟨.findValue, key, none, []⟩ heard i := by
  refine ⟨rfl, iff_of_false (by simp) ?_, iff_of_false (by simp) ?_⟩
  · rintro ⟨r, hr⟩
    exact h _ hr rfl
  · rintro ⟨ps, -, hps⟩
    exact h _ hps rfl

theorem add (h : f.Tells heard i) (found : Found) :
    (f.add found).Tells (heard ++ [(i, found)]) i := by
  refine ⟨?_, ?_, ?_⟩
  · rcases found with r | ps
    · exact h.kind
    · exact h.kind
  · rw [heardRecord_concat, ← h.record]
    rcases found with r | ps
    · simp [Findings.add]
    · simp [Findings.add]
  · rw [heardProviders_concat, ← h.providers]
    rcases found with r | ps
    · simp [Findings.add]
    · rw [Findings.add]
      dsimp only
      rw [mergeProviders_ne_nil_iff]
      simp

theorem other (h : f.Tells heard i) (hne : tx ≠ i) : f.Tells (heard ++ [(tx, found)]) i := by
  refine ⟨h.kind, ?_, ?_⟩
  · rw [heardRecord_concat, ← h.record]
    simp [hne]
  · rw [heardProviders_concat, ← h.providers]
    simp [hne]

end Findings.Tells

/-! ## What a client is told -/

/-- A reply such as a lookup ends with. -/
def Reply.OfLookup (r : Reply) : Prop :=
  (∃ rec, r = .record (some rec)) ∨ (∃ l, r = .providers l) ∨ r = .value none

/-- The reply to a command that looks something up is the one that goes with what was heard. -/
structure Typed (asked : List ShardCmd) (heard : List (Chan × Found)) (i : Chan) (r : Reply) :
    Prop where
  shape : ∀ key, asked[i]? = some (.get key) ∨ asked[i]? = some (.findProviders key) → r.OfLookup
  get : ∀ key, asked[i]? = some (.get key) →
    ((∃ l, r = .providers l) ↔ HeardProviders heard i ∧ ¬HeardRecord heard i)
  findProviders : ∀ key, asked[i]? = some (.findProviders key) →
    ((∃ rec, r = .record rec) ↔ HeardRecord heard i)

namespace Typed

variable {asked : List ShardCmd} {r : Reply}

theorem outcome {l : Lookup} (h : l.findings.Tells heard i) : Typed asked heard i l.outcome := by
  have hkind : l.kind = .findValue := h.kind
  have hrecord : l.foundRecord.isSome ↔ HeardRecord heard i := h.record
  have hproviders : l.providers ≠ [] ↔ HeardProviders heard i := h.providers
  rw [Lookup.outcome, hkind]
  rcases hfound : l.foundRecord with _ | rec
  · have hnone : ¬HeardRecord heard i := by
      rw [← hrecord, hfound]
      exact Bool.false_ne_true
    by_cases hps : l.providers ≠ []
    · simp only [if_pos hps]
      exact ⟨fun _ _ ↦ Or.inr (Or.inl ⟨_, rfl⟩),
        fun _ _ ↦ iff_of_true ⟨_, rfl⟩ ⟨hproviders.mp hps, hnone⟩,
        fun _ _ ↦ iff_of_false (by simp) hnone⟩
    · simp only [if_neg hps]
      exact ⟨fun _ _ ↦ Or.inr (Or.inr rfl),
        fun _ _ ↦ iff_of_false (by simp) fun h ↦ hps (hproviders.mpr h.1),
        fun _ _ ↦ iff_of_false (by simp) hnone⟩
  · have hsome : HeardRecord heard i := hrecord.mp (by rw [hfound]; rfl)
    exact ⟨fun _ _ ↦ Or.inl ⟨_, rfl⟩, fun _ _ ↦ iff_of_false (by simp) fun h ↦ h.2 hsome,
      fun _ _ ↦ iff_of_true ⟨_, rfl⟩ hsome⟩

theorem answers {cmd : ShardCmd} (hcmd : cmd.Answers r) (hi : asked[i]? = some cmd)
    (h : ∀ a ∈ heard, a.1 ≠ i) : Typed asked heard i r := by
  have hrecord : ¬HeardRecord heard i := fun ⟨_, hr⟩ ↦ h _ hr rfl
  have hproviders : ¬HeardProviders heard i := fun ⟨_, _, hps⟩ ↦ h _ hps rfl
  refine ⟨fun key hasked ↦ ?_, fun key hasked ↦ ?_, fun key hasked ↦ ?_⟩
  · rcases hasked with hget | hfind
    · rw [hi, Option.some.injEq] at hget
      rw [hget] at hcmd
      rcases hcmd with ⟨rec, rfl⟩ | rfl
      · exact Or.inl ⟨rec, rfl⟩
      · exact Or.inr (Or.inr rfl)
    · rw [hi, Option.some.injEq] at hfind
      rw [hfind] at hcmd
      rcases hcmd with ⟨l, rfl⟩ | rfl
      · exact Or.inr (Or.inl ⟨l, rfl⟩)
      · exact Or.inr (Or.inr rfl)
  · rw [hi, Option.some.injEq] at hasked
    rw [hasked] at hcmd
    refine iff_of_false ?_ fun h ↦ hproviders h.1
    rcases hcmd with ⟨rec, rfl⟩ | rfl
    · simp
    · simp
  · rw [hi, Option.some.injEq] at hasked
    rw [hasked] at hcmd
    refine iff_of_false ?_ hrecord
    rcases hcmd with ⟨l, rfl⟩ | rfl
    · simp
    · simp

theorem other (h : Typed asked heard i r) (hne : tx ≠ i) :
    Typed asked (heard ++ [(tx, found)]) i r := by
  refine ⟨h.shape, fun key hasked ↦ ?_, fun key hasked ↦ ?_⟩
  · rw [h.get key hasked, heardProviders_concat, heardRecord_concat]
    simp [hne]
  · rw [h.findProviders key hasked, heardRecord_concat]
    simp [hne]

theorem mono (h : Typed asked heard i r) (hlt : i < asked.length) (cmd : ShardCmd) :
    Typed (asked ++ [cmd]) heard i r := by
  have hsame : (asked ++ [cmd])[i]? = asked[i]? := List.getElem?_append_left hlt
  refine ⟨fun key ↦ ?_, fun key ↦ ?_, fun key ↦ ?_⟩
  · rw [hsame]
    exact h.shape key
  · rw [hsame]
    exact h.get key
  · rw [hsame]
    exact h.findProviders key

end Typed

/-! ## The desk -/

namespace Desk

/-- The desk agrees with what was heard. -/
structure Told (asked : List ShardCmd) (heard : List (Chan × Found)) (d : Desk) : Prop where
  lookups : ∀ id p i, d.lookups.lookup id = some p → p.reply = some i →
    p.lookup.findings.Tells heard i
  replies : ∀ a ∈ d.replies, Typed asked heard a.1 a.2
  heard : ∀ a ∈ heard, a.1 < asked.length

variable {asked : List ShardCmd} {d d' : Desk}

theorem Told.tended (h : d.Told asked heard) (ht : Tended d d') : d'.Told asked heard := by
  rcases ht with ⟨f, hf⟩ | ⟨hp, hl⟩ | ⟨hp, hl⟩ | r
  · refine ⟨fun id p i hid hreply ↦ ?_, h.replies, h.heard⟩
    rw [HashMap.lookup_mapValues] at hid
    obtain ⟨p', hp', rfl⟩ := Option.map_eq_some_iff.mp hid
    have htells := h.lookups id p' i hp' hreply
    rw [← hf id] at htells
    exact htells
  · rename_i id₀ p₀ l
    refine ⟨fun id p i hid hreply ↦ ?_, h.replies, h.heard⟩
    rw [HashMap.lookup_insert_of, HashMap.lookup_erase_of] at hid
    split_ifs at hid
    · obtain rfl := Option.some.inj hid
      have htells := h.lookups id₀ p₀ i hp hreply
      rw [← hl] at htells
      exact htells
    · exact h.lookups id p i hid hreply
  · rename_i id₀ p₀ l
    refine ⟨fun id p i hid hreply ↦ ?_, fun a ha ↦ ?_, h.heard⟩
    · rw [HashMap.lookup_erase_of] at hid
      split_ifs at hid
      exact h.lookups id p i hid hreply
    · rcases List.mem_append.mp ha with hold | hnew
      · exact h.replies a hold
      · rw [Option.mem_toList, Option.map_eq_some_iff] at hnew
        obtain ⟨tx, htx, rfl⟩ := hnew
        have htells := h.lookups id₀ p₀ tx hp htx
        rw [← hl] at htells
        exact Typed.outcome htells
  · refine ⟨fun id p i hid hreply ↦ ?_, h.replies, h.heard⟩
    rw [HashMap.lookup_reorder] at hid
    exact h.lookups id p i hid hreply

theorem Told.tends (h : d.Told asked heard) (ht : d.Tends d') : d'.Told asked heard :=
  ht.invariant (fun _ _ hstep hd ↦ hd.tended hstep) h

/-- Whom an answer is for, and what it adds. -/
def given (d : Desk) (taken : Option (UInt32 × Found)) : Option (Chan × Found) := do
  let (id, found) ← taken
  let p ← d.lookups.lookup id
  let tx ← p.reply
  return (tx, found)

theorem held_pos {id : UInt32} {p : PendingLookup} (hp : d.lookups.lookup id = some p)
    (hreply : p.reply = some i) : 0 < d.held i :=
  HashMap.countValues_pos_iff.mpr ⟨id, p, hp, decide_eq_true hreply⟩

theorem eq_of_held_le_one (hone : d.held i ≤ 1) {id id' : UInt32} {p p' : PendingLookup}
    (hp : d.lookups.lookup id = some p) (hreply : p.reply = some i)
    (hp' : d.lookups.lookup id' = some p') (hreply' : p'.reply = some i) : id' = id :=
  HashMap.eq_of_countValues_le_one hone hp (decide_eq_true hreply) hp' (decide_eq_true hreply')

theorem answered_pos {a : Chan × Reply} (ha : a ∈ d.replies) : 0 < d.answered a.1 :=
  List.countP_pos_iff.mpr ⟨a, ha, decide_eq_true rfl⟩

theorem lt_length_of_due (h : 0 < Machine.due asked i) : i < asked.length := by
  by_contra hge
  rw [Machine.due, List.getElem?_eq_none (Nat.le_of_not_lt hge)] at h
  exact Nat.lt_irrefl 0 h

/-- An answer to a lookup that a client waits for. The channel is on the desk only there. -/
theorem Told.give (h : d.Told asked heard) (hle : ∀ i, d.tally i ≤ Machine.due asked i)
    {id : UInt32} {p : PendingLookup} (hp : d.lookups.lookup id = some p)
    (htx : p.reply = some tx) {f : Lookup → Lookup}
    (hf : ∀ l, (f l).findings = l.findings.add found) :
    (d.give id f).Told asked (heard ++ [(tx, found)]) := by
  have hdue := hle tx
  have hone := Machine.due_le_one asked tx
  have hheld := held_pos hp htx
  rw [tally] at hdue
  refine ⟨fun id' p' i hp' hreply ↦ ?_, fun a ha ↦ ?_, fun a ha ↦ ?_⟩
  · rcases lookup_give hp' with ⟨rfl, p₁, hp₁, rfl⟩ | ⟨hid, hp₁⟩
    · obtain rfl := Option.some.inj (hp.symm.trans hp₁)
      obtain rfl := Option.some.inj (htx.symm.trans hreply)
      rw [hf]
      exact (h.lookups _ p tx hp htx).add found
    · -- there is room for one holder of the channel, so another lookup answers another client
      refine (h.lookups id' p' i hp₁ hreply).other fun heq ↦ hid ?_
      exact eq_of_held_le_one (by omega) hp htx hp₁ (hreply.trans (congrArg some heq.symm))
  · -- and a channel that is held has had no reply
    refine (h.replies a ha).other fun heq ↦ ?_
    have hanswered := answered_pos (d := d) ha
    rw [← heq] at hanswered
    omega
  · rcases List.mem_append.mp ha with hold | hnew
    · exact h.heard a hold
    · rw [List.mem_singleton.mp hnew]
      exact lt_length_of_due (i := tx) (by omega)

theorem Told.receives (h : d.Told asked heard) (hle : ∀ i, d.tally i ≤ Machine.due asked i)
    {taken : Option (UInt32 × Found)} (hr : d.Receives taken d') :
    d'.Told asked (heard ++ (d.given taken).toList) := by
  rcases taken with _ | ⟨id, found⟩
  · have hgiven : d.given none = none := rfl
    rw [hgiven, Option.toList_none, List.append_nil]
    exact h.tends hr
  obtain ⟨f, hf, htends⟩ := hr
  refine Told.tends ?_ htends
  by_cases hwaits : ∃ p tx, d.lookups.lookup id = some p ∧ p.reply = some tx
  · obtain ⟨p, tx, hp, htx⟩ := hwaits
    have hgiven : d.given (some (id, found)) = some (tx, found) := by
      simp [given, hp, htx]
    rw [hgiven]
    exact h.give hle hp htx hf
  · -- the lookup is gone, or nobody waits for it
    have hgiven : d.given (some (id, found)) = none := by
      rcases hp : d.lookups.lookup id with _ | p
      · simp [given, hp]
      · rcases htx : p.reply with _ | tx
        · simp [given, hp, htx]
        · exact (hwaits ⟨p, tx, hp, htx⟩).elim
    rw [hgiven, Option.toList_none, List.append_nil]
    refine ⟨fun id' p' i hp' hreply ↦ ?_, h.replies, h.heard⟩
    rcases lookup_give hp' with ⟨rfl, p₁, hp₁, rfl⟩ | ⟨-, hp₁⟩
    · exact (hwaits ⟨p₁, i, hp₁, hreply⟩).elim
    · exact h.lookups id' p' i hp₁ hreply

theorem Told.mono (h : d.Told asked heard) (hle : ∀ i, d.tally i ≤ Machine.due asked i)
    (cmd : ShardCmd) : d.Told (asked ++ [cmd]) heard := by
  refine ⟨h.lookups, fun a ha ↦ (h.replies a ha).mono ?_ cmd, fun a ha ↦ ?_⟩
  · have hdue := hle a.1
    have hanswered := answered_pos ha
    rw [tally] at hdue
    exact lt_length_of_due (by omega)
  · rw [List.length_append]
    exact Nat.lt_add_right _ (h.heard a ha)

theorem Told.serves [Crates] {c c' : ShardCtx} (h : c.desk.Told asked heard)
    (hle : ∀ i, c.desk.tally i ≤ Machine.due asked i) {cmd : ShardCmd}
    (hs : c.Serves cmd asked.length c') : c'.desk.Told (asked ++ [cmd]) heard := by
  have hmono := h.mono hle cmd
  have hunheard : ∀ a ∈ heard, a.1 ≠ asked.length := fun a ha ↦ (h.heard a ha).ne
  rcases hs with ⟨-, hdesk⟩ | ⟨hcmd, hdesk⟩ | ⟨-, hl, -, hdesk⟩
  · rw [hdesk]
    exact hmono
  · rename_i r
    rw [hdesk]
    refine ⟨hmono.lookups, fun a ha ↦ ?_, hmono.heard⟩
    rcases List.mem_append.mp ha with hold | hnew
    · exact hmono.replies a hold
    · rw [List.mem_singleton.mp hnew]
      exact Typed.answers hcmd (List.getElem?_concat_length) hunheard
  · rename_i key l
    rw [hdesk]
    refine ⟨fun id p i hp hreply ↦ ?_, hmono.replies, hmono.heard⟩
    rw [HashMap.lookup_insert_of] at hp
    split_ifs at hp
    · obtain rfl := Option.some.inj hp
      obtain rfl := Option.some.inj hreply
      dsimp only
      rw [hl]
      exact .new key hunheard
    · exact hmono.lookups id p i hp hreply

end Desk

end

/-! ## The calls -/

namespace Reply

variable {r : Reply}

theorem getResult_iff (h : r.OfLookup) :
    Node.getResult r = .error "unexpected" ↔ ∃ l, r = .providers l := by
  rcases h with ⟨rec, rfl⟩ | ⟨l, rfl⟩ | rfl
  · simp [Node.getResult]
  · simp [Node.getResult]
  · simp [Node.getResult]

theorem getRecordResult_iff (h : r.OfLookup) (key : Key) :
    Node.getRecordResult key r = .error "unexpected" ↔ ∃ l, r = .providers l := by
  rcases h with ⟨rec, rfl⟩ | ⟨l, rfl⟩ | rfl
  · simp [Node.getRecordResult]
  · simp [Node.getRecordResult]
  · simp [Node.getRecordResult]

theorem findProvidersResult_iff (h : r.OfLookup) :
    Node.findProvidersResult r = .error "unexpected" ↔ ∃ rec, r = .record rec := by
  rcases h with ⟨rec, rfl⟩ | ⟨l, rfl⟩ | rfl
  · simp [Node.findProvidersResult]
  · simp [Node.findProvidersResult]
  · simp [Node.findProvidersResult]

end Reply

/-! ## Runs -/

section

variable [Crates]

namespace Machine

/-- Whom a step brings an answer for, and what it adds. -/
def given (m : Machine) (e : Event) : Option (Chan × Found) := m.ctx.desk.given (m.taken e)

/-- What the lookups of the clients have been given in a run, in order. -/
def heard : Machine → List Event → List (Chan × Found)
  | _, [] => []
  | m, e :: es => (m.given e).toList ++ heard (m.step e) es

theorem heard_concat (m : Machine) (es : List Event) (e : Event) :
    m.heard (es ++ [e]) = m.heard es ++ ((es.foldl step m).given e).toList := by
  induction es generalizing m with
  | nil => exact List.append_nil _
  | cons e' es ih => rw [List.cons_append, heard, ih, heard, List.foldl_cons, List.append_assoc]

end Machine

namespace ShardRun

def heard (run : ShardRun) : List (Chan × Found) := run.start.machine.heard run.events

/-- **The law of a run.** The desk always agrees with what was heard. -/
theorem told (run : ShardRun) : run.final.ctx.desk.Told run.final.asked run.heard := by
  obtain ⟨start, events⟩ := run
  induction events using List.reverseRecOn with
  | nil =>
    refine ⟨fun id p i hp ↦ ?_, fun a ha ↦ ?_, fun a ha ↦ ?_⟩
    · cases hp
    · cases ha
    · cases ha
  | append_singleton es e ih =>
    have hle := tally_le ⟨start, es⟩
    generalize hm : final ⟨start, es⟩ = m at ih hle
    have hlast : final ⟨start, es ++ [e]⟩ = m.step e := by
      rw [← hm]
      exact List.foldl_append
    have hheard : heard ⟨start, es ++ [e]⟩ = heard ⟨start, es⟩ ++ (m.given e).toList := by
      rw [← hm]
      exact start.machine.heard_concat es e
    rw [hlast, hheard]
    rcases m.desk_step e with ⟨hasked, hreceives⟩ | ⟨cmd, htaken, hasked, hserves⟩
    · rw [hasked]
      exact ih.receives hle hreceives
    · have hnone : m.given e = none := by
        rw [Machine.given, htaken]
        rfl
      rw [hasked, hnone, Option.toList_none, List.append_nil]
      exact Desk.Told.serves (c := m.ctxAt e.env) ih hle hserves

end ShardRun

/-- **When replies and calls disagree.** In every run, `get` and `get_record` fail with `unexpected`
exactly if their lookup has been given providers and no record, and `find_providers` exactly if its
lookup has been given a record. -/
theorem reply_types_iff (run : ShardRun) (i : Chan) (r : Reply) (key : Key)
    (hr : (i, r) ∈ run.final.ctx.replies) :
    (run.final.asked[i]? = some (.get key) →
      (Node.getResult r = .error "unexpected" ↔
        HeardProviders run.heard i ∧ ¬HeardRecord run.heard i) ∧
      (Node.getRecordResult key r = .error "unexpected" ↔
        HeardProviders run.heard i ∧ ¬HeardRecord run.heard i)) ∧
    (run.final.asked[i]? = some (.findProviders key) →
      (Node.findProvidersResult r = .error "unexpected" ↔ HeardRecord run.heard i)) := by
  have htyped : Typed run.final.asked run.heard i r := run.told.replies (i, r) hr
  refine ⟨fun hget ↦ ?_, fun hfind ↦ ?_⟩
  · have hshape := htyped.shape key (Or.inl hget)
    rw [Reply.getResult_iff hshape, Reply.getRecordResult_iff hshape]
    exact ⟨htyped.get key hget, htyped.get key hget⟩
  · rw [Reply.findProvidersResult_iff (htyped.shape key (Or.inr hfind))]
    exact htyped.findProviders key hfind

end

section

attribute [local instance] Sample.wireCrates

open Sample

private def helperAddr : SocketAddr := .ofV4 10 0 0 9 9000

/-- Two seconds after noon. -/
private def twoLater : Env := { noon with instant := noon.instant + 2000 * millis }

/-- The only peer answers a command with the given result, and two seconds pass. -/
private def helpedRun (cmd : ShardCmd) (r : Proto.FindValueResult) : ShardRun where
  start := shardStart ⟨true, false, false⟩
  events := [⟨noon, .command (.injectPeer (.new ⟨Bytes32.fill 9⟩ helperAddr))⟩,
    ⟨noon, .command cmd⟩,
    ⟨noon, .datagram helperAddr ((Header.response .findValueResp .coordination 1).bytes ++
      Proto.findValueRespWire.encode ⟨some r, []⟩)⟩,
    ⟨noon, .work⟩, ⟨twoLater, .tick⟩, ⟨twoLater, .work⟩]

/-- The record of the empty value. -/
private def foundRecord : Proto.FindValueResult := .record ([10, 32] ++ emptyKey.val.val)

/-- One provider. -/
private def foundProvider : Proto.FindValueResult := .providers [⟨List.replicate 32 5, []⟩]

/-- The reply to either command when the peer knows a provider. -/
private def tellsProvider : Reply := .providers [(⟨Bytes32.fill 5⟩, [])]

/-- The reply to either command when the peer has the record. -/
private def tellsRecord : Reply :=
  .record (some
    { key := emptyKey
      value := []
      sequence := 0
      ttlSecs := mutableTtlSecs
      notBeforeUnix := 0
      ownerPubkey := []
      signature := []
      kind := kindImmutable
      ns := []
      salt := []
      storedUnix := 1000
      cache := false })

/-- Told of a provider, a client that asked for providers has been given no record. -/
theorem reply_types_provided :
    ¬HeardRecord (helpedRun (.findProviders emptyKey) foundProvider).heard 1 := by
  have hreads := (reply_types_iff (helpedRun (.findProviders emptyKey) foundProvider) 1
    tellsProvider emptyKey (by decide +kernel)).2 (by decide +kernel)
  rw [← hreads]
  exact fun h ↦ by cases h

/-- **The two disagreements.** A client that asks for a value gets an error if only a provider is
found, and one that asks for providers if the record is. -/
theorem reply_types_fail :
    (¬∀ (_ : Crates) (run : ShardRun) (i : Chan) (r : Reply) (key : Key),
      (i, r) ∈ run.final.ctx.replies → run.final.asked[i]? = some (.get key) →
      Node.getResult r ≠ .error "unexpected" ∧
        Node.getRecordResult key r ≠ .error "unexpected") ∧
    ¬∀ (_ : Crates) (run : ShardRun) (i : Chan) (r : Reply) (key : Key),
      (i, r) ∈ run.final.ctx.replies → run.final.asked[i]? = some (.findProviders key) →
      Node.findProvidersResult r ≠ .error "unexpected" := by
  refine ⟨fun hall ↦ ?_, fun hall ↦ ?_⟩
  · exact (hall wireCrates (helpedRun (.get emptyKey) foundProvider) 1 tellsProvider emptyKey
      (by decide +kernel) (by decide +kernel)).1 rfl
  · exact hall wireCrates (helpedRun (.findProviders emptyKey) foundRecord) 1 tellsRecord emptyKey
      (by decide +kernel) (by decide +kernel) rfl

end

end Molia
