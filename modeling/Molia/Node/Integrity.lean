import Molia.Node.Basic
import Molia.Shard.Desk
import Molia.Store.Content

/-!
# Integrity of a read

A value that `get` returns for a key should hash to that key, or be signed by the owner of the named
slot with that key. The checks on the way in leave two holes. Provider records pass every check, so
one of them can be filed under any key; and the record in a FIND_VALUE answer is checked on its own,
but its key is not compared with the key that was asked for.

Outside these two holes the property holds along every run. The invariant has two parts: the store
holds no provider record, and every pending lookup and every reply is genuine for the key its client
asked for. What happens to lookups and replies is known from `Machine.desk_step`; of the commands,
only a `get` has to be looked at.
-/

namespace Molia

section

variable [Crates]

open Crates

/-! ## What belongs under a key -/

/-- The value hashes to the key, or is the value of a validly signed record of that slot. -/
def BelongsTo (k : Key) (v : Bytes) : Prop :=
  hashValue v = k ∨ ∃ r : StoredRecord, r.value = v ∧ r.key = k ∧ r.envelopeOk = true

/-- An authentic record for the key, of a kind that is checked. -/
structure StoredRecord.Genuine (k : Key) (r : StoredRecord) : Prop where
  authentic : r.authentic = true
  key : r.key = k
  kind : r.kind ≠ kindProvider

theorem StoredRecord.Genuine.belongsTo {k : Key} {r : StoredRecord} (h : r.Genuine k) :
    BelongsTo k r.value := by
  have hsigned : r.Signed → BelongsTo k r.value := by
    intro hs
    have henv := h.authentic
    rw [authentic_of_signed hs] at henv
    exact Or.inr ⟨r, rfl, h.key, henv⟩
  rcases kind_of_authentic h.authentic with hk | hk | hk | hk
  · have hhash := h.authentic
    rw [authentic_of_immutable hk, decide_eq_true_iff] at hhash
    exact Or.inl (hhash.trans h.key)
  · exact hsigned (Or.inl hk)
  · exact absurd hk h.kind
  · exact hsigned (Or.inr hk)

/-! ## Stores without provider records -/

/-- The store is sound and holds no provider record. -/
structure Store.Clean (s : Store) : Prop where
  sound : s.Sound
  kind : ∀ {k r}, s.records.lookup k = some r → r.kind ≠ kindProvider

/-- The operation hands over a provider record to be stored. -/
def StoreOp.FilesProvider : StoreOp → Prop
  | putRecord r probe => r.kind = kindProvider ∧ probe = false
  | _ => False

instance : DecidablePred StoreOp.FilesProvider
  | .putRecord r probe => inferInstanceAs (Decidable (r.kind = kindProvider ∧ probe = false))
  | .putImmutableTtl .. => instDecidableFalse
  | .cacheHit .. => instDecidableFalse
  | .announceProvider .. => instDecidableFalse
  | .gc _ => instDecidableFalse
  | .flushWal => instDecidableFalse

theorem StoreOp.kind_of_inserted {s : Store} {op : StoreOp} {r : StoredRecord}
    (hop : ¬op.FilesProvider) (h : op.inserted s = some r) : r.kind ≠ kindProvider := by
  cases op with
  | putImmutableTtl now value ttlSecs =>
    rw [inserted] at h
    split_ifs at h
    cases h
    show kindImmutable ≠ kindProvider
    decide
  | putRecord q probe =>
    obtain ⟨-, -, hprobe, rfl⟩ := inserted_putRecord_eq_some.mp h
    intro hk
    have hnt : q.kind ≠ kindTombstone := by rw [hk]; decide
    exact hop ⟨hk, hprobe.resolve_left hnt⟩
  | cacheHit now q checked => cases h
  | announceProvider now key peerId metadata => cases h
  | gc now => cases h
  | flushWal => cases h

theorem Store.Clean.exec {s : Store} (h : s.Clean) {op : StoreOp} (hop : ¬op.FilesProvider) :
    (op.exec s).Clean where
  sound := h.sound.exec op
  kind {k r} hr := by
    rcases op.lookup_exec_cases s k with h' | ⟨q, hq, -, h'⟩ | ⟨now, -, h'⟩
    · exact h.kind (h' ▸ hr)
    · obtain rfl : q = r := Option.some.inj (h'.symm.trans hr)
      exact StoreOp.kind_of_inserted hop hq
    · rw [h'] at hr
      cases hr

theorem Store.Clean.foldl {s : Store} (h : s.Clean) {ops : List StoreOp}
    (hops : ∀ op ∈ ops, ¬op.FilesProvider) : (ops.foldl StoreOp.exec s).Clean :=
  Runs.Along.invariant (Runs.along_of_forall hops) (fun _ _ hs hop ↦ hs.exec hop) h

theorem Store.Clean.get {s : Store} (h : s.Clean) {now : UInt64} {k : Key} {r : StoredRecord}
    (hr : s.get now k = some r) : r.Genuine k := by
  have hcache : ∀ {c}, (s.cache.lookup k).filter (fun c ↦ !c.expired now) = some c →
      c.Genuine k := by
    intro c hc
    have hmem := (Option.filter_eq_some_iff.mp hc).1
    obtain ⟨hkey, hkind, hauth⟩ := h.sound.cache hmem
    exact ⟨hauth, hkey, by rw [hkind]; decide⟩
  rw [Store.get] at hr
  rcases hq : s.records.lookup k with _ | q
  · rw [hq] at hr
    exact hcache hr
  · simp only [hq] at hr
    split_ifs at hr with hlive
    · cases hr
      obtain ⟨hkey, hauth⟩ := h.sound.records hq
      exact ⟨hauth, hkey, h.kind hq⟩
    · exact hcache hr

/-! ## What a lookup is after -/

namespace Lookup

/-- The target of a lookup and the record found for it. -/
def goal (l : Lookup) : Key × Option StoredRecord := (l.target, l.foundRecord)

/-- A record found is genuine for the target. -/
def Genuine (l : Lookup) : Prop := ∀ r, l.foundRecord = some r → r.Genuine l.target

omit [Crates] in
theorem goal_of_findings {l l' : Lookup} (h : l'.findings = l.findings) : l'.goal = l.goal :=
  congrArg (fun f : Findings ↦ (f.target, f.record)) h

theorem Genuine.of_goal {l l' : Lookup} (h : l.Genuine) (hgoal : l'.goal = l.goal) :
    l'.Genuine := by
  obtain ⟨htarget, hfound⟩ := Prod.mk.inj hgoal
  intro r hr
  rw [htarget]
  exact h r (hfound ▸ hr)

end Lookup

/-! ## What clients are told -/

/-- The command on channel `tx` asked for `k`. -/
def Asked (asked : List ShardCmd) (tx : Chan) (k : Key) : Prop :=
  asked[tx]? = some (.get k) ∨ asked[tx]? = some (.findProviders k)

omit [Crates] in
theorem Asked.lt {asked : List ShardCmd} {tx : Chan} {k : Key} (h : Asked asked tx k) :
    tx < asked.length := by
  rcases h with hk | hk
  · exact (List.getElem?_eq_some_iff.mp hk).1
  · exact (List.getElem?_eq_some_iff.mp hk).1

/-- A reply to a `get` that carries a value carries one that belongs to the key. -/
structure ReplyOk (asked : List ShardCmd) (tx : Chan) (r : Reply) : Prop where
  lt : tx < asked.length
  belongsTo : ∀ {k v}, asked[tx]? = some (.get k) → Node.getResult r = .ok (some v) →
    BelongsTo k v

/-- A pending lookup is after the key its client asked for, and has found nothing else. -/
structure PendingLookup.Honest (asked : List ShardCmd) (p : PendingLookup) : Prop where
  genuine : p.lookup.Genuine
  asked : ∀ tx, p.reply = some tx → Asked asked tx p.lookup.target

namespace PendingLookup.Honest

variable {asked : List ShardCmd} {p : PendingLookup}

theorem of_goal (h : p.Honest asked) {l : Lookup} (hl : l.goal = p.lookup.goal) :
    Honest asked { p with lookup := l } := by
  refine ⟨h.genuine.of_goal hl, fun tx htx ↦ ?_⟩
  rw [(Prod.mk.inj hl).1]
  exact h.asked tx htx

theorem new {l : Lookup} {kind : LookupKind} {target : Key}
    (hl : l.findings = ⟨kind, target, none, []⟩) {tx : Chan} (ha : Asked asked tx target) :
    Honest asked ⟨l, some tx⟩ := by
  obtain ⟨-, htarget, hfound, -⟩ := Findings.mk.inj hl
  refine ⟨fun r hr ↦ ?_, fun tx' htx ↦ ?_⟩
  · rw [hfound] at hr
    cases hr
  · cases htx
    rw [htarget]
    exact ha

/-- A client hears of a genuine record for the key it asked for, or of no value. -/
theorem replyOk (h : p.Honest asked) {tx : Chan} (htx : p.reply = some tx) :
    ReplyOk asked tx p.lookup.outcome := by
  have hasked := h.asked tx htx
  refine ⟨hasked.lt, fun {k v} hk hv ↦ ?_⟩
  rw [Lookup.outcome] at hv
  split at hv
  · cases hv
  · split at hv
    · rename_i r hfound
      have hkey : p.lookup.target = k := by
        rcases hasked with hk' | hk'
        · exact ShardCmd.get.inj (Option.some.inj (hk'.symm.trans hk))
        · exact absurd (Option.some.inj (hk'.symm.trans hk)) (by simp)
      obtain rfl : r.value = v := by
        simpa [Node.getResult] using hv
      exact hkey ▸ (h.genuine r hfound).belongsTo
    · split_ifs at hv
      · cases hv
      · cases hv

end PendingLookup.Honest

namespace ShardCtx

structure Honest (asked : List ShardCmd) (c : ShardCtx) : Prop where
  lookups : ∀ {id p}, c.lookups.lookup id = some p → p.Honest asked
  replies : ∀ a ∈ c.replies, ReplyOk asked a.1 a.2

/-- The part of the state that clients are answered from. -/
def front (c : ShardCtx) : HashMap UInt32 PendingLookup × List (Chan × Reply) :=
  (c.lookups, c.replies)

namespace Honest

variable {asked : List ShardCmd} {c c' : ShardCtx}

theorem of_front (h : c.Honest asked) (hf : c'.front = c.front) : c'.Honest asked := by
  obtain ⟨hl, hr⟩ := Prod.mk.inj hf
  refine ⟨fun {id p} hp ↦ ?_, fun a ha ↦ h.replies a ?_⟩
  · have hp' : c.lookups.lookup id = some p := hl ▸ hp
    exact h.lookups hp'
  · rw [← hr]
    exact ha

theorem of_desk (h : c.Honest asked) (hd : c'.desk = c.desk) : c'.Honest asked :=
  h.of_front (congrArg (fun d : Desk ↦ (d.lookups, d.replies)) hd)

theorem send (h : c.Honest asked) {tx : Chan} {r : Reply} (hr : ReplyOk asked tx r) :
    (c.send tx r).Honest asked := by
  refine ⟨h.lookups, fun a ha ↦ ?_⟩
  rcases List.mem_append.mp ha with ha | ha
  · exact h.replies a ha
  · obtain rfl := List.mem_singleton.mp ha
    exact hr

theorem insert (h : c.Honest asked) {p : PendingLookup} (hp : p.Honest asked) (id : UInt32) :
    { c with lookups := c.lookups.insert id p }.Honest asked := by
  refine ⟨fun {id' q} hq ↦ ?_, h.replies⟩
  rw [HashMap.lookup_insert_of] at hq
  split_ifs at hq
  · cases hq
    exact hp
  · exact h.lookups hq

theorem erase (h : c.Honest asked) (id : UInt32) :
    { c with lookups := c.lookups.erase id }.Honest asked := by
  refine ⟨fun {id' q} hq ↦ ?_, h.replies⟩
  rw [HashMap.lookup_erase_of] at hq
  split_ifs at hq
  exact h.lookups hq

theorem mapLookups (h : c.Honest asked) (f : UInt32 → PendingLookup → PendingLookup)
    (hf : ∀ id p, c.lookups.lookup id = some p → p.Honest asked → (f id p).Honest asked) :
    { c with lookups := c.lookups.mapValues f }.Honest asked := by
  refine ⟨fun {id q} hq ↦ ?_, h.replies⟩
  rw [HashMap.lookup_mapValues, Option.map_eq_some_iff] at hq
  obtain ⟨p, hp, rfl⟩ := hq
  exact hf id p hp (h.lookups hp)

/-! ## The desk -/

theorem tended (h : c.Honest asked) {d : Desk} (ht : c.desk.Tended d) :
    { c with lookups := d.lookups, replies := d.replies }.Honest asked := by
  cases ht with
  | touch f hf =>
    exact h.mapLookups _ fun id p _ hp ↦ hp.of_goal (Lookup.goal_of_findings (hf id p.lookup))
  | putBack hp hl =>
    exact (h.erase _).insert ((h.lookups hp).of_goal (Lookup.goal_of_findings hl)) _
  | settle hp hl =>
    rename_i id p l
    have hpend := (h.lookups hp).of_goal (Lookup.goal_of_findings hl)
    dsimp only
    rcases hreply : p.reply with _ | tx
    · exact (h.erase id).of_front (Prod.ext rfl (List.append_nil _))
    · exact (h.erase id).send (hpend.replyOk hreply)
  | reorder r =>
    refine ⟨fun {id p} hp ↦ ?_, h.replies⟩
    have hp' : c.lookups.lookup id = some p := by
      rw [← hp]
      exact (HashMap.lookup_reorder r c.lookups id).symm
    exact h.lookups hp'

theorem tends (h : c.Honest asked) {d : Desk} (ht : c.desk.Tends d) :
    { c with lookups := d.lookups, replies := d.replies }.Honest asked := by
  induction ht with
  | refl => exact h
  | tail _ hlast ih => exact ih.tended hlast

/-- A lookup may be given a record that is genuine for its target, and any providers. -/
theorem receives (h : c.Honest asked) {taken : Option (UInt32 × Found)} {d : Desk}
    (hd : c.desk.Receives taken d)
    (hgenuine : ∀ id r p, taken = some (id, .record r) → c.lookups.lookup id = some p →
      r.Genuine p.lookup.target) :
    { c with lookups := d.lookups, replies := d.replies }.Honest asked := by
  rcases taken with _ | ⟨id, found⟩
  · exact h.tends hd
  · obtain ⟨f, hf, htends⟩ := hd
    have hgiven : { c with lookups := (c.desk.give id f).lookups }.Honest asked := by
      refine h.mapLookups
        (fun id' p ↦ if id' = id then { p with lookup := f p.lookup } else p)
        fun id' p hp hpend ↦ ?_
      split_ifs with hid
      · rcases found with r | ps
        · -- the target stays, and the record found is the one of the answer
          have hgoal : (f p.lookup).goal = (p.lookup.target, some r) :=
            congrArg (fun f : Findings ↦ (f.target, f.record)) (hf p.lookup)
          obtain ⟨htarget, hfound⟩ := Prod.mk.inj hgoal
          refine ⟨fun r' hr' ↦ ?_, fun tx htx ↦ ?_⟩
          · rw [hfound] at hr'
            rw [← Option.some.inj hr', htarget]
            exact hgenuine id r p rfl (hid ▸ hp)
          · rw [htarget]
            exact hpend.asked tx htx
        · exact hpend.of_goal (congrArg (fun f : Findings ↦ (f.target, f.record)) (hf p.lookup))
      · exact hpend
    exact hgiven.tends htends

theorem startLookup (h : c.Honest asked) (kind : LookupKind) {target : Key} {tx : Chan}
    (ha : Asked asked tx target) : (c.startLookup kind target (some tx)).Honest asked := by
  obtain ⟨l, hl, hdesk⟩ := c.startLookup_cases kind target (some tx)
  have hpend := PendingLookup.Honest.new hl ha
  rcases hdesk with hends | ⟨-, hfiled⟩
  · exact (h.send (hpend.replyOk rfl)).of_desk hends
  · exact (h.insert hpend _).of_desk hfiled

end Honest

/-! ## Handlers -/

/-- The pending lookup and the authentic record that a FIND_VALUE answer brings together. -/
def matchedAnswer (c : ShardCtx) (h : Header) (pkt : Bytes) : Option (Lookup × StoredRecord) :=
  match decodeBody Crates.findValueResp pkt with
  | none => none
  | some resp =>
    match resp.result with
    | some (.record bytes) =>
      match authenticRecord c.env.unix bytes, c.findLookup h.correlation with
      | some rec, some id => (c.lookups.lookup id).map fun p ↦ (p.lookup, rec.val)
      | _, _ => none
    | _ => none

/-- The same for any application message. -/
def matched (c : ShardCtx) (pkt : Bytes) : Option (Lookup × StoredRecord) :=
  match Header.decode pkt with
  | none => none
  | some h => if h.ty = .findValueResp then c.matchedAnswer h pkt else none

/-- The record is the one the lookup asked for, and of a kind that is checked. -/
def Fitting (a : Option (Lookup × StoredRecord)) : Prop :=
  ∀ m ∈ a, m.2.key = m.1.target ∧ m.2.kind ≠ kindProvider

instance (a : Option (Lookup × StoredRecord)) : Decidable (Fitting a) :=
  inferInstanceAs (Decidable (∀ m ∈ a, _))

theorem genuine_of_taken {c : ShardCtx} {hdr : Header} {pkt : Bytes} {id : UInt32}
    {r : StoredRecord} {p : PendingLookup} (hfit : Fitting (c.matchedAnswer hdr pkt))
    (htaken : c.taken hdr pkt = some (id, .record r)) (hp : c.lookups.lookup id = some p) :
    r.Genuine p.lookup.target := by
  simp only [taken, Option.bind_eq_bind, Option.bind_eq_some_iff] at htaken
  obtain ⟨resp, hdec, found, hfound, id', hid, heq⟩ := htaken
  obtain ⟨rfl, rfl⟩ := Prod.mk.inj (Option.some.inj heq)
  rcases hres : resp.result with _ | bytes | ps
  · rw [hres] at hfound
    cases hfound
  · rw [hres, foundIn, Option.map_eq_some_iff] at hfound
    obtain ⟨rec, hrec, heq⟩ := hfound
    obtain rfl : rec.val = r := Found.record.inj heq
    obtain ⟨hkey, hkind⟩ := hfit (p.lookup, rec.val)
      (by simp [matchedAnswer, hdec, hres, hrec, hid, hp])
    exact ⟨rec.property, hkey, hkind⟩
  · rw [hres] at hfound
    cases hfound

namespace Honest

variable {asked : List ShardCmd} {c : ShardCtx}

theorem mono (h : c.Honest asked) (cmd : ShardCmd) : c.Honest (asked ++ [cmd]) := by
  refine ⟨fun {id p} hp ↦ ⟨(h.lookups hp).genuine, fun tx htx ↦ ?_⟩, fun a ha ↦ ⟨?_, ?_⟩⟩
  · have hasked := (h.lookups hp).asked tx htx
    rw [Asked, List.getElem?_append_left hasked.lt]
    exact hasked
  · rw [List.length_append]
    exact Nat.lt_add_right _ (h.replies a ha).lt
  · intro k v hk hv
    rw [List.getElem?_append_left (h.replies a ha).lt] at hk
    exact (h.replies a ha).belongsTo hk hv

theorem handleGet (h : c.Honest asked) (hclean : c.store.Clean) {key : Key} {tx : Chan}
    (hcmd : asked[tx]? = some (.get key)) : (c.handleGet key tx).Honest asked := by
  rw [ShardCtx.handleGet]
  split
  · rename_i r hr
    refine h.send ⟨(List.getElem?_eq_some_iff.mp hcmd).1, fun {k v} hk hv ↦ ?_⟩
    obtain rfl : key = k := ShardCmd.get.inj (Option.some.inj (hcmd.symm.trans hk))
    obtain rfl : r.value = v := by simpa [Node.getResult] using hv
    exact (hclean.get hr).belongsTo
  · exact h.startLookup _ (Or.inl hcmd)

theorem handleCmd (h : c.Honest asked) (hclean : c.store.Clean) {cmd : ShardCmd} {tx : Chan}
    (hcmd : asked[tx]? = some cmd) : (c.handleCmd cmd tx).Honest asked := by
  by_cases hget : ∃ key, cmd = .get key
  · obtain ⟨key, rfl⟩ := hget
    exact h.handleGet hclean hcmd
  -- no other command is answered with a value
  have hreply : ∀ r, ReplyOk asked tx r := by
    intro r
    refine ⟨(List.getElem?_eq_some_iff.mp hcmd).1, fun {k v} hk _ ↦ ?_⟩
    exact absurd ⟨k, Option.some.inj (hcmd.symm.trans hk)⟩ hget
  cases c.serves_handleCmd cmd tx with
  | silent _ hdesk => exact h.of_desk hdesk
  | answered _ hdesk => exact (h.send (hreply _)).of_desk hdesk
  | filed hkey hl _ hdesk =>
    refine (h.insert (PendingLookup.Honest.new hl ?_) _).of_desk hdesk
    rcases hkey with rfl | rfl
    · exact absurd ⟨_, rfl⟩ hget
    · exact Or.inr hcmd

end Honest

end ShardCtx

/-! ## Runs -/

namespace Machine

/-- The pending lookup and the authentic record that a step brings together. -/
def matched (m : Machine) (e : Event) : Option (Lookup × StoredRecord) :=
  match e.input, m.work with
  | .work, .app _ pkt _ :: _ => (m.ctxAt e.env).matched pkt
  | _, _ => none

/-- The step files no provider record, and a record it gives to a lookup is one for the key the
lookup asked for and of a kind that is checked. -/
structure Guarded (m : Machine) (e : Event) : Prop where
  store : ∀ op ∈ m.storeOps e, ¬op.FilesProvider
  answer : ShardCtx.Fitting (m.matched e)

instance (m : Machine) (e : Event) : Decidable (m.Guarded e) :=
  decidable_of_iff (_ ∧ _) ⟨fun h ↦ ⟨h.1, h.2⟩, fun h ↦ ⟨h.store, h.answer⟩⟩

/-- The invariant. -/
structure Honest (m : Machine) : Prop where
  store : m.ctx.store.Clean
  ctx : m.ctx.Honest m.asked

theorem genuine_of_taken {m : Machine} {e : Event} {id : UInt32} {r : StoredRecord}
    {p : PendingLookup} (hfit : ShardCtx.Fitting (m.matched e))
    (htaken : m.taken e = some (id, .record r)) (hp : m.ctx.lookups.lookup id = some p) :
    r.Genuine p.lookup.target := by
  rw [taken] at htaken
  split at htaken
  · rename_i src pkt authenticated ts hin hwork
    rw [matched, hin, hwork] at hfit
    dsimp only at hfit
    rw [ShardCtx.takenBy] at htaken
    rw [ShardCtx.matched] at hfit
    split at htaken
    · rename_i hdr hdec
      rw [hdec] at hfit
      dsimp only at hfit
      split_ifs at htaken hfit
      exact ShardCtx.genuine_of_taken hfit htaken hp
    · cases htaken
  · cases htaken

theorem Honest.step {m : Machine} {e : Event} (h : m.Honest) (he : m.Guarded e) :
    (m.step e).Honest := by
  have hstore : (m.step e).ctx.store.Clean := by
    rw [store_step]
    exact h.store.foldl he.store
  refine ⟨hstore, ?_⟩
  have hother : (m.step e).asked = m.asked → (m.step e).ctx.Honest (m.step e).asked := by
    intro hasked
    rcases m.desk_step e with ⟨-, hdesk⟩ | ⟨cmd, -, hcmd, -⟩
    · rw [hasked]
      exact (h.ctx.receives hdesk fun _ _ _ ↦ genuine_of_taken he.answer).of_front rfl
    · rw [hasked] at hcmd
      simp at hcmd
  rcases m.step_cases e with hm | ⟨-, -, -, -, ha⟩ | ⟨cmd, -, hc, ha⟩ | ⟨-, -, -, ha⟩ |
    ⟨-, -, -, -, -, ha⟩ | ⟨-, -, -, ha⟩ | ⟨-, -, ha⟩
  · exact hother (congrArg asked hm)
  · exact hother ha
  · have hat : (m.ctxAt e.env).Honest m.asked := h.ctx.of_front rfl
    rw [hc, ha]
    exact (hat.mono cmd).handleCmd h.store List.getElem?_concat_length
  · exact hother ha
  · exact hother ha
  · exact hother ha
  · exact hother ha

end Machine

theorem StoreStart.clean {start : StoreStart}
    (h : ∀ r ∈ start.recovered, r.kind ≠ kindProvider) : start.store.Clean where
  sound := Store.sound_start start
  kind {_ r} hr := h r (StoreStart.lookup_store hr).1

/-- In every run in which no provider record is recovered from the log or filed, and every record
given to a pending lookup is for the key it asked for and of a checked kind, `get` returns only
values that belong to the key. -/
theorem get_integrity (run : ShardRun)
    (hlog : ∀ r ∈ run.start.store.recovered, r.kind ≠ kindProvider)
    (hrun : Runs.Along Machine.step Machine.Guarded run.start.machine run.events)
    (tx : Chan) (k : Key) (hget : run.final.asked[tx]? = some (.get k))
    (reply : Reply) (hreply : (tx, reply) ∈ run.final.ctx.replies) (v : Bytes)
    (hv : Node.getResult reply = .ok (some v)) : BelongsTo k v := by
  have hstart : run.start.machine.Honest := by
    refine ⟨StoreStart.clean hlog, ⟨fun {id p} hp ↦ ?_, fun a ha ↦ ?_⟩⟩
    · cases hp
    · cases ha
  have hfinal : run.final.Honest := hrun.invariant (fun _ _ h he ↦ h.step he) hstart
  exact (hfinal.ctx.replies (tx, reply) hreply).belongsTo hget hv

end

/-! ## A lookup answered with another record -/

section

open Sample

/-- The record of the empty value, as a FIND_VALUE answer carries it. -/
private def emptyRecordBytes : Bytes := [10, 32] ++ emptyKey.val.val

private def emptyRecordProto : Proto.Record where
  key := emptyKey.val.val
  value := []
  sequence := 0
  ttlSecs := 0
  notBeforeUnix := 0
  ownerPubkey := []
  signature := []
  validators := []
  kind := kindImmutable
  ns := []
  salt := []

/-- The codecs on the messages of the run below. -/
@[reducible] private def lookupCrates : Crates :=
  { crates with
    findValueReq := ⟨fun m ↦ [10, 32] ++ m.key ++ [16, 16], fun _ ↦ none⟩
    findValueResp := ⟨fun _ ↦ [], fun b ↦
      if b = [10, 34] ++ emptyRecordBytes then some ⟨some (.record emptyRecordBytes), []⟩ else none⟩
    record := ⟨fun _ ↦ [], fun b ↦ if b = emptyRecordBytes then some emptyRecordProto else none⟩ }

attribute [local instance] lookupCrates

private def remoteAddr : SocketAddr := ⟨.v4 10 0 0 9, 9000, 0, 0⟩

private def lookupEnv : Env := ⟨1000, 1000000, 0, none⟩

/-- A client asks for `k`, and the one known peer answers with the record of the empty value. -/
private def lookupRun (k : Key) : ShardRun where
  start :=
    { id := 0
      identity := ⟨(), Bytes32.fill 1⟩
      cfg := ⟨true, false, false⟩
      localAddr := ⟨.v4 10 0 0 1, 9000, 0, 0⟩
      env := lookupEnv
      peers := Peerstore.memory
      store := .new }
  events :=
    [⟨lookupEnv, .command (.injectPeer (PeerInfo.new ⟨Bytes32.fill 7⟩ remoteAddr))⟩,
      ⟨lookupEnv, .command (.get k)⟩,
      ⟨lookupEnv, .datagram remoteAddr
        ((Header.response .findValueResp .coordination 1).bytes ++ [10, 34] ++ emptyRecordBytes)⟩,
      ⟨lookupEnv, .work⟩]

/-- The record as the node reads it. -/
private def emptyRecord : StoredRecord where
  key := emptyKey
  value := []
  sequence := 0
  ttlSecs := mutableTtlSecs
  notBeforeUnix := 0
  ownerPubkey := []
  signature := []
  kind := kindImmutable
  ns := []
  salt := []
  storedUnix := 1000
  cache := false

/-- Asked for the empty value, the node returns it. -/
theorem get_integrity_empty_value :
    (1, Reply.record (some emptyRecord)) ∈ (lookupRun emptyKey).final.ctx.replies ∧
      BelongsTo emptyKey [] := by
  have hreply : (1, Reply.record (some emptyRecord)) ∈ (lookupRun emptyKey).final.ctx.replies := by
    decide +kernel
  exact ⟨hreply, get_integrity (lookupRun emptyKey) (List.forall_mem_nil _) (by decide +kernel) 1
    emptyKey (by decide +kernel) _ hreply [] rfl⟩

/-- Asked for the key of a named slot, the node returns the empty value all the same. -/
theorem get_integrity_fails :
    ¬∀ (_ : Crates) (run : ShardRun) (tx : Chan) (k : Key),
      run.final.asked[tx]? = some (.get k) →
      ∀ reply, (tx, reply) ∈ run.final.ctx.replies →
      ∀ v, Node.getResult reply = .ok (some v) → BelongsTo k v := by
  intro h
  rcases h lookupCrates (lookupRun slotKey) 1 slotKey (by decide +kernel)
    (.record (some emptyRecord)) (by decide +kernel) [] rfl with hhash | ⟨r, hv, hk, henv⟩
  · exact absurd hhash (by decide +kernel)
  · -- the owner's signatures are over values of one byte
    rw [StoredRecord.envelopeOk, hv, hk, verifyRecord, Bool.and_eq_true] at henv
    obtain ⟨vk, sig, hver⟩ := verify_of_verifySignature henv.2
    have hlen := length_of_verify hver
    rw [length_recordBytes] at hlen
    cases hlen

end

end Molia
