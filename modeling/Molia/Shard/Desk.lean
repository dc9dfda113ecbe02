import Mathlib.Logic.Relation
import Molia.Shard.Pending

/-!
# The desk of a shard

Clients see two things of a shard: the lookups that run for them, and the replies. Together they are
its desk. A shard tends to its desk in four ways. It changes lookups without adding to what they
have found; it puts a lookup back with its next requests sent; it settles one, with a reply; and the
map is iterated over in another order. Beyond that, a lookup is given an answer from the network,
and a command is answered at once or makes a new lookup. `Machine.desk_step` says that this is all.

A new lookup is filed under the correlation id that comes after those of its first requests. At
least one id is used up before.
-/

namespace Molia

/-! ## Findings -/

/-- What a lookup is for, and what it has found. -/
structure Findings where
  kind : LookupKind
  target : Key
  record : Option StoredRecord
  providers : List (NodeId × Bytes)
deriving DecidableEq

/-- What an answer from the network adds. -/
inductive Found where
  | record (r : StoredRecord)
  | providers (ps : List (NodeId × Bytes))
deriving DecidableEq

def Findings.add (f : Findings) : Found → Findings
  | .record r => { f with record := some r }
  | .providers ps => { f with providers := Lookup.mergeProviders f.providers ps }

namespace Lookup

def findings (l : Lookup) : Findings := ⟨l.kind, l.target, l.foundRecord, l.providers⟩

/-- The reply that a lookup ends with. -/
def outcome (l : Lookup) : Reply :=
  match l.kind with
  | .findNode => .peers l.finishPeers
  | .findValue =>
    match l.foundRecord with
    | some r => .record (some r)
    | none => if l.providers ≠ [] then .providers l.providers else .value none

theorem findings_nextBatch (l : Lookup) (now : ℕ) : (l.nextBatch now).2.findings = l.findings := by
  rw [nextBatch]
  split
  · rfl
  · dsimp only
    split
    · rfl
    · rfl

theorem findings_allowRetry (l : Lookup) (id : NodeId) :
    (l.allowRetry id).findings = l.findings := by
  rw [allowRetry]
  split
  · rfl
  · rfl

theorem findings_onTimeouts (l : Lookup) (now : ℕ) :
    (l.onTimeouts now).2.findings = l.findings := by
  have hretry : ∀ (ids : List NodeId) (l : Lookup),
      (ids.foldl allowRetry l).findings = l.findings := by
    intro ids l
    exact List.foldlRecOn (motive := fun l' : Lookup ↦ l'.findings = l.findings) ids allowRetry rfl
      fun l' h id _ ↦ (findings_allowRetry l' id).trans h
  simp only [onTimeouts]
  split
  · exact hretry _ _
  · exact hretry _ _

theorem findings_onCloser (l : Lookup) (sender : NodeId) (peers : List PeerInfo) (rttUs : UInt32) :
    (l.onCloser sender peers rttUs).findings = l.findings := by
  by_cases h : rttUs < 80000
  · simp only [onCloser, if_pos h]
    rfl
  · simp only [onCloser, if_neg h]
    rfl

theorem findings_onRecord (l : Lookup) (sender : NodeId) (rec : StoredRecord) :
    (l.onRecord sender rec).findings = l.findings.add (.record rec) := rfl

theorem findings_onProviders (l : Lookup) (sender : NodeId) (providers : List (NodeId × Bytes))
    (closer : List PeerInfo) :
    (l.onProviders sender providers closer).findings = l.findings.add (.providers providers) :=
  findings_onCloser _ _ _ _

end Lookup

/-! ## The desk -/

/-- What the clients of a shard see of it. -/
structure Desk where
  lookups : HashMap UInt32 PendingLookup
  replies : List (Chan × Reply)

namespace Desk

/-- One thing done to the desk, unasked. -/
inductive Tended : Desk → Desk → Prop
  | touch (d : Desk) (f : UInt32 → Lookup → Lookup) (hf : ∀ id l, (f id l).findings = l.findings) :
    Tended d { d with
      lookups := d.lookups.mapValues fun id p ↦ { p with lookup := f id p.lookup } }
  | putBack (d : Desk) {id : UInt32} {p : PendingLookup} {l : Lookup}
    (hp : d.lookups.lookup id = some p) (hl : l.findings = p.lookup.findings) :
    Tended d { d with lookups := (d.lookups.erase id).insert id { p with lookup := l } }
  | settle (d : Desk) {id : UInt32} {p : PendingLookup} {l : Lookup}
    (hp : d.lookups.lookup id = some p) (hl : l.findings = p.lookup.findings) :
    Tended d
      { lookups := d.lookups.erase id
        replies := d.replies ++ (p.reply.map fun tx ↦ (tx, l.outcome)).toList }
  | reorder (d : Desk) (r : HashMap.Reorder) : Tended d { d with lookups := d.lookups.reorder r }

/-- Any number of such things. -/
abbrev Tends : Desk → Desk → Prop := Relation.ReflTransGen Tended

/-- **The rule.** -/
theorem Tends.invariant {I : Desk → Prop} {d d' : Desk} (h : Tends d d')
    (hstep : ∀ d d', Tended d d' → I d → I d') (hd : I d) : I d' := by
  induction h with
  | refl => exact hd
  | tail _ hlast ih => exact hstep _ _ hlast ih

/-- Change one lookup. -/
def give (d : Desk) (id : UInt32) (f : Lookup → Lookup) : Desk :=
  { d with lookups := d.lookups.modify id fun p ↦ { p with lookup := f p.lookup } }

theorem lookup_give {d : Desk} {id id' : UInt32} {f : Lookup → Lookup} {p' : PendingLookup}
    (h : (d.give id f).lookups.lookup id' = some p') :
    (id' = id ∧ ∃ p, d.lookups.lookup id = some p ∧ p' = { p with lookup := f p.lookup }) ∨
      id' ≠ id ∧ d.lookups.lookup id' = some p' := by
  rw [give, HashMap.lookup_modify] at h
  obtain ⟨p, hp, rfl⟩ := Option.map_eq_some_iff.mp h
  by_cases hid : id' = id
  · rw [if_pos hid]
    exact .inl ⟨hid, p, hid ▸ hp, rfl⟩
  · rw [if_neg hid]
    exact .inr ⟨hid, hp⟩

theorem tended_give (d : Desk) (id : UInt32) {f : Lookup → Lookup}
    (hf : ∀ l, (f l).findings = l.findings) : Tended d (d.give id f) := by
  have htouch := Tended.touch d (fun id' l ↦ if id' = id then f l else l) fun id' l ↦ by
    split
    · exact hf l
    · rfl
  have heq : (fun (id' : UInt32) (p : PendingLookup) ↦
      if id' = id then { p with lookup := f p.lookup } else p)
      = fun id' p ↦ { p with lookup := if id' = id then f p.lookup else p.lookup } := by
    funext id' p
    split
    · rfl
    · rfl
  rw [give, HashMap.modify, heq]
  exact htouch

/-- An answer is taken, if there is one, and the desk is tended to. -/
def Receives (d : Desk) (taken : Option (UInt32 × Found)) (d' : Desk) : Prop :=
  match taken with
  | none => d.Tends d'
  | some (id, found) =>
    ∃ f : Lookup → Lookup, (∀ l, (f l).findings = l.findings.add found) ∧ (d.give id f).Tends d'

end Desk

section

variable [Crates]

open Crates

attribute [local irreducible] message

namespace ShardNet

theorem findings_dispatchTo (acc : ShardNet × Lookup) (p : PeerInfo) :
    (dispatchTo acc p).2.findings = acc.2.findings := by
  rcases dispatchTo_snd acc p with hsame | ⟨corr, hnoted⟩
  · rw [hsame]
  · rw [hnoted]
    rfl

theorem findings_dispatchLookupBatch (n : ShardNet) (l : Lookup) :
    (n.dispatchLookupBatch l).2.findings = l.findings :=
  List.foldlRecOn (motive := fun acc : ShardNet × Lookup ↦ acc.2.findings = l.findings)
    (l.nextBatch n.now).1 dispatchTo (l.findings_nextBatch n.now)
    fun acc h p _ ↦ (findings_dispatchTo acc p).trans h

/-! ## Correlation ids -/

/-- The id after an id. -/
def nextId (c : UInt32) : UInt32 := if c + 1 = 0 then 1 else c + 1

/-- The step uses up at least `a` and at most `b` correlation ids. -/
def Allocates (a b : ℕ) (n n' : ShardNet) : Prop :=
  ∃ k, a ≤ k ∧ k ≤ b ∧ n'.nextCorrId = nextId^[k] n.nextCorrId

namespace Allocates

variable {a b a' b' : ℕ} {n n' n'' : ShardNet}

theorem of_eq (h : n'.nextCorrId = n.nextCorrId) : Allocates 0 0 n n' :=
  ⟨0, Nat.le_refl 0, Nat.le_refl 0, h⟩

theorem trans (h : Allocates a b n n') (h' : Allocates a' b' n' n'') :
    Allocates (a + a') (b + b') n n'' := by
  obtain ⟨k, ha, hb, hk⟩ := h
  obtain ⟨k', ha', hb', hk'⟩ := h'
  refine ⟨k' + k, by omega, by omega, ?_⟩
  rw [Function.iterate_add_apply, ← hk, hk']

theorem mono (h : Allocates a b n n') (ha : a' ≤ a) (hb : b ≤ b') : Allocates a' b' n n' := by
  obtain ⟨k, hak, hkb, hk⟩ := h
  exact ⟨k, ha.trans hak, hkb.trans hb, hk⟩

theorem nextCorr (n : ShardNet) : Allocates 1 1 n n.nextCorr.2 :=
  ⟨1, Nat.le_refl 1, Nat.le_refl 1, rfl⟩

theorem sendRelayFrame (n : ShardNet) (hop : SocketAddr) (dest : NodeId) (app : Bytes) (i : ℕ) :
    Allocates 0 1 n (n.sendRelayFrame hop dest app i) := by
  rw [ShardNet.sendRelayFrame]
  split
  · exact (of_eq rfl).mono (Nat.le_refl 0) (Nat.zero_le 1)
  · dsimp only
    have hcorr : Allocates 0 1 n n.nextCorr.2 := (nextCorr n).mono (Nat.zero_le 1) (Nat.le_refl 1)
    split
    · exact hcorr.trans (of_eq rfl)
    · exact hcorr

theorem sendSealed (n : ShardNet) (dest : SocketAddr) (pk : Bytes32) (q : Queued) :
    Allocates 0 0 n (n.sendSealed dest pk q) := by
  rw [ShardNet.sendSealed]
  have henc : (n.encapsulateTo dest pk (wrapRpc q.app)).2.nextCorrId = n.nextCorrId := rfl
  generalize n.encapsulateTo dest pk (wrapRpc q.app) = res at henc ⊢
  obtain ⟨_ | pkt, n'⟩ := res
  · have hshake : ((n'.enqueue dest q).encapsulateTo dest pk []).2.nextCorrId = n'.nextCorrId := rfl
    dsimp only
    generalize (n'.enqueue dest q).encapsulateTo dest pk [] = res at hshake ⊢
    obtain ⟨_ | pkt', n''⟩ := res
    · exact of_eq (hshake.trans henc)
    · exact of_eq (hshake.trans henc)
  · dsimp only
    split
    · exact of_eq henc
    · exact of_eq henc

theorem sendApp (n : ShardNet) (dest : SocketAddr) (x25519 : Option Bytes32) (app : Bytes) :
    Allocates 0 1 n (n.sendApp dest x25519 app) := by
  have hfree : ∀ {n'}, Allocates 0 0 n n' → Allocates 0 1 n n' :=
    fun h ↦ h.mono (Nat.le_refl 0) (Nat.zero_le 1)
  have hlog : Allocates 0 0 n (n.logCall dest x25519 app) := of_eq rfl
  rw [ShardNet.sendApp, ShardNet.deliver]
  split
  · exact hfree hlog
  · split
    · exact hlog.trans (sendRelayFrame _ _ _ _ _)
    · dsimp only
      split
      · exact hfree (of_eq rfl)
      · split
        · exact hfree (of_eq rfl)
        · have hbudget : ∀ relay, Allocates 0 0 n { n.logCall dest x25519 app with relay } :=
            fun _ ↦ of_eq rfl
          exact hfree ((hbudget _).trans (sendSealed _ _ _ _))

theorem sendMessage (n : ShardNet) (dest : SocketAddr) (x25519 : Option Bytes32)
    (pkt : Option Bytes) : Allocates 0 1 n (n.sendMessage dest x25519 pkt) := by
  rcases pkt with _ | p
  · exact (of_eq rfl).mono (Nat.le_refl 0) (Nat.zero_le 1)
  · exact sendApp n dest x25519 p

theorem sendProbe (dest : SocketAddr) (x25519 : Option Bytes32) (n : ShardNet) (probe : Key) :
    Allocates 0 2 n (n.sendProbe dest x25519 probe) :=
  ((nextCorr n).trans (sendMessage _ _ _ _)).mono (Nat.zero_le _) (Nat.le_refl 2)

theorem foldl {α : Type*} {f : ShardNet → α → ShardNet} (hf : ∀ n x, Allocates 0 b n (f n x))
    (l : List α) (n : ShardNet) : Allocates 0 (l.length * b) n (l.foldl f n) := by
  induction l generalizing n with
  | nil => exact (of_eq rfl).mono (Nat.le_refl 0) (Nat.zero_le _)
  | cons x l ih =>
    refine ((hf n x).trans (ih (f n x))).mono (Nat.le_refl 0) (Nat.le_of_eq ?_)
    rw [List.length_cons, Nat.succ_mul, Nat.add_comm]

/-- A peer of the batch costs an id, whatever becomes of its request. -/
theorem dispatchTo (acc : ShardNet × Lookup) (p : PeerInfo) :
    Allocates 1 (2 + acc.2.probeTargets.length * 2) acc.1 (ShardNet.dispatchTo acc p).1 := by
  obtain ⟨n, l⟩ := acc
  have hcorr := nextCorr n
  have hblind : ∀ {n' : ShardNet} {l' : Lookup} (dest : SocketAddr),
      l'.probeTargets = l.probeTargets → Allocates 1 2 n n' →
      Allocates 1 (2 + l.probeTargets.length * 2) n
        (if l'.privacy = .blind then
          (l'.probeTargets.foldl (ShardNet.sendProbe dest p.x25519) n', l') else (n', l')).1 := by
    intro n' l' dest htargets hn'
    split
    · rw [htargets]
      exact hn'.trans (foldl (sendProbe dest p.x25519) l.probeTargets n')
    · exact hn'.mono (Nat.le_refl 1) (Nat.le_add_right _ _)
  rw [ShardNet.dispatchTo]
  dsimp only
  split
  · exact hcorr.mono (Nat.le_refl 1) (by omega)
  · rcases ShardNet.lookupRequest l n.nextCorr.1 with _ | pkt
    · exact hblind _ rfl (hcorr.mono (Nat.le_refl 1) (by omega))
    · exact hblind _ rfl (hcorr.trans (sendApp _ _ _ _))

theorem foldl_dispatchTo (batch : List PeerInfo) (acc : ShardNet × Lookup) :
    Allocates batch.length (batch.length * (2 + acc.2.probeTargets.length * 2)) acc.1
      (batch.foldl ShardNet.dispatchTo acc).1 := by
  induction batch generalizing acc with
  | nil => exact (of_eq rfl).mono (Nat.le_refl 0) (Nat.zero_le _)
  | cons p batch ih =>
    have htargets : (ShardNet.dispatchTo acc p).2.probeTargets = acc.2.probeTargets := by
      rcases dispatchTo_snd acc p with hsame | ⟨corr, hnoted⟩
      · rw [hsame]
      · rw [hnoted]
        rfl
    have hrest := ih (ShardNet.dispatchTo acc p)
    rw [htargets] at hrest
    refine ((dispatchTo acc p).trans hrest).mono (Nat.le_of_eq ?_) (Nat.le_of_eq ?_)
    · rw [List.length_cons, Nat.add_comm]
    · rw [List.length_cons, Nat.succ_mul, Nat.add_comm]

theorem dispatch_new {now : ℕ} {kind : LookupKind} {target : Key} {seeds : List PeerInfo}
    {privacy : PrivacyMode} (h : ¬(Lookup.new now kind target seeds privacy).Ends n.now) :
    Allocates 1 (alphaDefault * 6) n
      (n.dispatchLookupBatch (Lookup.new now kind target seeds privacy)).1 := by
  rw [dispatch_of_not_ends h]
  have hbatch := foldl_dispatchTo (Lookup.new now kind target seeds privacy).due
    (n, Lookup.new now kind target seeds privacy)
  have hsome : 1 ≤ (Lookup.new now kind target seeds privacy).due.length := by
    refine List.length_pos_iff.mpr fun hnil ↦ h (Or.inr ⟨hnil, rfl⟩)
  have hfew : (Lookup.new now kind target seeds privacy).due.length ≤ alphaDefault := by
    have halpha : alphaDefault ≤ Lookup.batchCap := by decide
    rw [Lookup.due_eq halpha]
    exact List.length_take_le _ _
  have hprobes : (Lookup.new now kind target seeds privacy).probeTargets.length ≤ 2 := by
    show (if privacy = .blind then neighborProbes target else []).length ≤ 2
    split
    · exact Nat.le_refl 2
    · exact Nat.zero_le 2
  refine hbatch.mono hsome (Nat.mul_le_mul hfew ?_)
  dsimp only
  omega

end Allocates

end ShardNet

/-! ## New lookups -/

namespace ShardCtx

open Desk

def desk (c : ShardCtx) : Desk := ⟨c.lookups, c.replies⟩

theorem desk_finishLookup (c : ShardCtx) (l : Lookup) (reply : Option Chan) :
    (c.finishLookup l reply).desk
      = { c.desk with replies := c.replies ++ (reply.map fun tx ↦ (tx, l.outcome)).toList } := by
  rcases reply with _ | tx
  · simp [finishLookup, desk]
  · rw [finishLookup, Option.map_some, Option.toList_some, Lookup.outcome]
    rcases l.kind with _ | _
    · rfl
    · rcases l.foundRecord with _ | r
      · dsimp only
        split
        · rfl
        · rfl
      · rfl

theorem startLookup_cases (c : ShardCtx) (kind : LookupKind) (target : Key) (reply : Option Chan) :
    ∃ l : Lookup, l.findings = ⟨kind, target, none, []⟩ ∧
      ((c.startLookup kind target reply).desk = { c.desk with
          replies := c.replies ++ (reply.map fun tx ↦ (tx, l.outcome)).toList } ∨
        (ShardNet.Allocates 1 (alphaDefault * 6) c.toShardNet
            (c.startLookup kind target reply).toShardNet ∧
          (c.startLookup kind target reply).desk = { c.desk with
            lookups := c.lookups.insert (c.startLookup kind target reply).nextCorrId
              ⟨l, reply⟩ })) := by
  rw [startLookup]
  dsimp only
  generalize (if c.cfg.queryBlind then PrivacyMode.blind else PrivacyMode.none) = privacy
  generalize c.table.closest target alphaDefault = seeds
  refine ⟨(c.toShardNet.dispatchLookupBatch (Lookup.new c.now kind target seeds privacy)).2,
    ShardNet.findings_dispatchLookupBatch _ _, ?_⟩
  by_cases hdone : (c.toShardNet.dispatchLookupBatch
      (Lookup.new c.now kind target seeds privacy)).2.done = true
  · left
    rw [if_pos hdone]
    exact desk_finishLookup _ _ _
  · right
    rw [if_neg hdone]
    refine ⟨ShardNet.Allocates.dispatch_new fun hends ↦ hdone ?_, rfl⟩
    rw [ShardNet.dispatch_of_ends hends]

/-! ## Tending -/

theorem tends_sweepOne (c : ShardCtx) (id : UInt32) : c.desk.Tends (c.sweepOne id).desk := by
  rw [sweepOne]
  rcases hp : c.lookups.lookup id with _ | p
  · exact Relation.ReflTransGen.refl
  · have hl := c.toShardNet.findings_dispatchLookupBatch p.lookup
    dsimp only
    split
    · rw [desk_finishLookup]
      exact Relation.ReflTransGen.single (.settle c.desk hp hl)
    · exact Relation.ReflTransGen.single (.putBack c.desk hp hl)

theorem tends_sweepLookups (c : ShardCtx) : c.desk.Tends c.sweepLookups.desk :=
  List.foldlRecOn (motive := fun c' : ShardCtx ↦ c.desk.Tends c'.desk) _ sweepOne
    Relation.ReflTransGen.refl fun c' h id _ ↦ h.trans (tends_sweepOne c' id)

theorem desk_updateLookup (c : ShardCtx) (corr : UInt32) (f : Lookup → Lookup) :
    (c.updateLookup corr f).desk
      = ((c.findLookup corr).map fun id ↦ c.desk.give id f).getD c.desk := by
  rw [updateLookup]
  rcases c.findLookup corr with _ | id
  · rfl
  · rfl

theorem tends_completeCloser (c : ShardCtx) (corr : UInt32) (src : SocketAddr)
    (peers : List PeerInfo) : c.desk.Tends (c.completeCloser corr src peers).desk := by
  refine Relation.ReflTransGen.trans ?_ (tends_sweepLookups _)
  rw [desk_updateLookup]
  rcases c.findLookup corr with _ | id
  · exact Relation.ReflTransGen.refl
  · exact Relation.ReflTransGen.single
      (tended_give c.desk id fun l ↦ l.findings_onCloser _ _ _)

theorem tends_onFindNodeResp (c : ShardCtx) (src : SocketAddr) (h : Header) (pkt : Bytes) :
    c.desk.Tends (c.onFindNodeResp src h pkt).desk := by
  rw [onFindNodeResp]
  split
  · exact Relation.ReflTransGen.refl
  · rename_i resp _
    dsimp only
    generalize ShardNet.learnAddr _ src _ = n
    exact tends_completeCloser (c.withNet n) h.correlation src (peersFromProto resp.peers)

theorem tends_onLookupTick (c : ShardCtx) : c.desk.Tends c.onLookupTick.desk := by
  rw [onLookupTick]
  refine Relation.ReflTransGen.trans ?_ (tends_sweepLookups _)
  exact Relation.ReflTransGen.single
    (.touch c.desk (fun _ l ↦ (l.onTimeouts c.now).2) fun _ l ↦ l.findings_onTimeouts c.now)

theorem tends_onTimer (c : ShardCtx) (kind : TimerKind) : c.desk.Tends (c.onTimer kind).desk := by
  rcases kind with _ | _ | _ | _ | _
  · exact Relation.ReflTransGen.refl
  · exact Relation.ReflTransGen.refl
  · exact Relation.ReflTransGen.refl
  · exact tends_onLookupTick c
  · exact Relation.ReflTransGen.refl

/-! ## Answers from the network -/

/-- What the result of a FIND_VALUE answer adds to a lookup. -/
def foundIn (now : UInt64) : Option Proto.FindValueResult → Option Found
  | some (.record bytes) => (authenticRecord now bytes).map fun rec ↦ .record rec.val
  | some (.providers ps) => some (.providers (ps.filterMap providerOf))
  | none => none

/-- The lookup that takes something from a FIND_VALUE answer, and what it takes. -/
def taken (c : ShardCtx) (h : Header) (pkt : Bytes) : Option (UInt32 × Found) := do
  let resp ← decodeBody Crates.findValueResp pkt
  let found ← foundIn c.env.unix resp.result
  let id ← c.findLookup h.correlation
  return (id, found)

theorem desk_takeResult (c : ShardCtx) (now : UInt64) (src : SocketAddr) (h : Header)
    (closer : List PeerInfo) (r : Option Proto.FindValueResult) :
    (foundIn now r = none ∧ c.desk.Tends (c.takeResult now src h closer r).desk) ∨
      ∃ found f, foundIn now r = some found ∧
        (∀ l : Lookup, (f l).findings = l.findings.add found) ∧
        (c.takeResult now src h closer r).desk = (c.updateLookup h.correlation f).desk := by
  rcases r with _ | bytes | ps
  · exact Or.inl ⟨rfl, tends_completeCloser c h.correlation src closer⟩
  · rw [foundIn, takeResult]
    rcases authenticRecord now bytes with _ | rec
    · exact Or.inl ⟨rfl, Relation.ReflTransGen.refl⟩
    · refine Or.inr ⟨_, _, rfl, fun l ↦ l.findings_onRecord .zero rec.val, ?_⟩
      dsimp only
      rw [acceptRecord_eq, desk_updateLookup, desk_updateLookup]
      rfl
  · exact Or.inr ⟨_, _, rfl, fun l ↦ l.findings_onProviders .zero _ closer, rfl⟩

theorem desk_onFindValueResp (c : ShardCtx) (src : SocketAddr) (h : Header) (pkt : Bytes) :
    c.desk.Receives (c.taken h pkt) (c.onFindValueResp src h pkt).desk := by
  rcases hdec : decodeBody Crates.findValueResp pkt with _ | resp
  · simp only [taken, onFindValueResp, hdec]
    exact Relation.ReflTransGen.refl
  rw [onFindValueResp_of_decode hdec, taken, hdec]
  dsimp only [Option.bind_eq_bind, Option.bind_some]
  generalize (peersFromProto resp.closerPeers).foldl (ShardNet.meet src) c.toShardNet = n
  have hsweep := tends_sweepLookups ((c.withNet n).takeResult c.env.unix src h
    (peersFromProto resp.closerPeers) resp.result)
  rcases desk_takeResult (c.withNet n) c.env.unix src h (peersFromProto resp.closerPeers)
    resp.result with ⟨hnone, htends⟩ | ⟨found, f, hsome, hf, hdesk⟩
  · rw [hnone]
    exact htends.trans hsweep
  · have hfind : (c.withNet n).findLookup h.correlation = c.findLookup h.correlation := rfl
    rw [hdesk, desk_updateLookup, hfind] at hsweep
    rw [hsome]
    generalize c.findLookup h.correlation = asking at hsweep ⊢
    rcases asking with _ | id
    · exact hsweep
    · exact ⟨f, hf, hsweep⟩

/-- The lookup that takes something from a message. -/
def takenBy (c : ShardCtx) (pkt : Bytes) : Option (UInt32 × Found) :=
  match Header.decode pkt with
  | some h => if h.ty = .findValueResp then c.taken h pkt else none
  | none => none

theorem desk_handleApp (c : ShardCtx) (src : SocketAddr) (pkt : Bytes) (authenticated : Bool) :
    c.desk.Receives (c.takenBy pkt) (c.handleApp src pkt authenticated).1.desk := by
  have hsame : ∀ c' : ShardCtx, c'.desk = c.desk → c.desk.Tends c'.desk := by
    intro c' hdesk
    rw [hdesk]
  rcases hdec : Header.decode pkt with _ | h
  · simp only [takenBy, handleApp, hdec]
    exact hsame c rfl
  simp only [takenBy, handleApp, hdec]
  rcases hty : h.ty
  · exact hsame (c.withNet _) rfl
  · exact hsame (c.withNet _) rfl
  · exact hsame (c.withNet _) rfl
  · exact hsame (c.withNet _) rfl
  · exact hsame (c.withNet _) rfl
  · exact tends_onFindNodeResp c src h pkt
  · exact hsame (c.withNet _) rfl
  · exact desk_onFindValueResp c src h pkt
  · obtain ⟨n, store, heq⟩ := c.onStore_eq src h pkt
    refine hsame (c.onStore src h pkt) ?_
    rw [heq]
    rfl
  · exact hsame (c.withNet _) rfl
  · obtain ⟨n, store, heq⟩ := c.onAnnounce_eq src h pkt
    refine hsame (c.onAnnounce src h pkt) ?_
    rw [heq]
    rfl
  · exact hsame (c.withNet _) rfl
  · exact hsame (c.withNet _) rfl
  · exact hsame (c.withNet _) rfl
  · exact hsame (c.withNet _) rfl
  · exact hsame (c.withNet _) rfl
  · exact hsame c rfl

theorem desk_handleDatagram (c : ShardCtx) (src : SocketAddr) (pkt : Bytes) :
    (c.handleDatagram src pkt).1.desk = c.desk := by
  obtain ⟨wg, sybil, sent, heq⟩ := c.handleDatagram_fst src pkt
  rw [heq]
  rfl

theorem desk_drainTurn (c : ShardCtx) (src : SocketAddr) : (c.drainTurn src).1.desk = c.desk := by
  obtain ⟨wg, sent, heq⟩ := c.drainTurn_fst src
  rw [heq]
  rfl

end ShardCtx

/-! ## Commands -/

namespace ShardCmd

/-- The command is sent with a channel for the reply. -/
def replies : ShardCmd → Bool
  | .put _ _ | .get _ | .putMutable _ | .announce _ _ | .findProviders _ => true
  | .bootstrap _ | .injectPeer _ | .shutdown => false

/-- The replies a command is given at once. -/
def Answers : ShardCmd → Reply → Prop
  | .put _ _, r | .putMutable _, r => (∃ k, r = .key k) ∨ ∃ e, r = .err e
  | .get _, r => (∃ rec, r = .record (some rec)) ∨ r = .value none
  | .announce _ _, r => r = .ok
  | .findProviders _, r => (∃ l, r = .providers l) ∨ r = .value none
  | _, _ => False

end ShardCmd

namespace ShardCtx

/-- A new lookup for a client is answered at once with nothing, or filed. -/
theorem desk_startLookup (c : ShardCtx) (key : Key) (tx : Chan) :
    (c.startLookup .findValue key (some tx)).desk
        = { c.desk with replies := c.replies ++ [(tx, .value none)] } ∨
      ∃ l : Lookup, l.findings = ⟨.findValue, key, none, []⟩ ∧
        ShardNet.Allocates 1 (alphaDefault * 6) c.toShardNet
          (c.startLookup .findValue key (some tx)).toShardNet ∧
        (c.startLookup .findValue key (some tx)).desk = { c.desk with
          lookups := c.lookups.insert (c.startLookup .findValue key (some tx)).nextCorrId
            ⟨l, some tx⟩ } := by
  obtain ⟨l, hl, hends | ⟨halloc, hfiled⟩⟩ := c.startLookup_cases .findValue key (some tx)
  · left
    obtain ⟨hkind, -, hrecord, hproviders⟩ := Findings.mk.inj hl
    have hout : l.outcome = .value none := by
      rw [Lookup.outcome, hkind]
      simp only [hrecord, hproviders]
      rfl
    rw [hends, hout]
    rfl
  · exact Or.inr ⟨l, hl, halloc, hfiled⟩

/-- What a command does at the desk. -/
inductive Serves (c : ShardCtx) (cmd : ShardCmd) (tx : Chan) (c' : ShardCtx) : Prop
  | silent (hcmd : cmd.replies = false) (h : c'.desk = c.desk)
  | answered {r : Reply} (hcmd : cmd.Answers r)
    (h : c'.desk = { c.desk with replies := c.replies ++ [(tx, r)] })
  | filed {key : Key} {l : Lookup} (hcmd : cmd = .get key ∨ cmd = .findProviders key)
    (hl : l.findings = ⟨.findValue, key, none, []⟩)
    (halloc : ShardNet.Allocates 1 (alphaDefault * 6) c.toShardNet c'.toShardNet)
    (h : c'.desk = { c.desk with lookups := c.lookups.insert c'.nextCorrId ⟨l, some tx⟩ })

theorem serves_startLookup (c : ShardCtx) {cmd : ShardCmd} {key : Key}
    (hcmd : cmd = .get key ∨ cmd = .findProviders key) (tx : Chan) :
    c.Serves cmd tx (c.startLookup .findValue key (some tx)) := by
  rcases c.desk_startLookup key tx with hnone | ⟨l, hl, halloc, hfiled⟩
  · refine .answered ?_ hnone
    rcases hcmd with rfl | rfl
    · exact Or.inr rfl
    · exact Or.inr rfl
  · exact .filed hcmd hl halloc hfiled

theorem serves_handlePut (c : ShardCtx) (value : Bytes) (ttlSecs : UInt64) (tx : Chan) :
    c.Serves (.put value ttlSecs) tx (c.handlePut value ttlSecs tx) := by
  have hputPlain : c.Serves (.put value ttlSecs) tx (c.putPlain value ttlSecs tx) := by
    rw [putPlain]
    split
    · exact .answered (Or.inl ⟨_, rfl⟩) rfl
    · exact .answered (Or.inr ⟨_, rfl⟩) rfl
  rw [handlePut]
  split
  · split
    · exact .answered (Or.inl ⟨_, rfl⟩) rfl
    · exact hputPlain
  · exact hputPlain

theorem serves_handleCmd (c : ShardCtx) (cmd : ShardCmd) (tx : Chan) :
    c.Serves cmd tx (c.handleCmd cmd tx) := by
  rcases cmd with seeds | ⟨value, ttlSecs⟩ | key | rec | ⟨key, metadata⟩ | key | info | _
  · exact .silent rfl rfl
  · exact c.serves_handlePut value ttlSecs tx
  · show c.Serves _ tx (c.handleGet key tx)
    rw [handleGet]
    split
    · exact .answered (Or.inl ⟨_, rfl⟩) rfl
    · exact c.serves_startLookup (Or.inl rfl) tx
  · show c.Serves _ tx (c.handlePutMutable rec tx)
    rw [handlePutMutable]
    split
    · exact .answered (Or.inl ⟨_, rfl⟩) rfl
    · exact .answered (Or.inr ⟨_, rfl⟩) rfl
  · exact .answered (r := .ok) rfl rfl
  · show c.Serves _ tx (c.handleFindProviders key tx)
    rw [handleFindProviders]
    split
    · exact .answered (Or.inl ⟨_, rfl⟩) rfl
    · exact c.serves_startLookup (Or.inr rfl) tx
  · exact .silent rfl rfl
  · exact .silent rfl rfl

end ShardCtx

/-! ## The loop -/

namespace Machine

/-- The lookup that takes something in a step, and what it takes. -/
def taken (m : Machine) (e : Event) : Option (UInt32 × Found) :=
  match e.input, m.work with
  | .work, .app _ pkt _ :: _ => (m.ctxAt e.env).takenBy pkt
  | _, _ => none

/-- **What a step does at the desk.** It takes a command, or else an answer from the network at
most. -/
theorem desk_step (m : Machine) (e : Event) :
    ((m.step e).asked = m.asked ∧ m.ctx.desk.Receives (m.taken e) (m.step e).ctx.desk) ∨
      ∃ cmd, m.taken e = none ∧ (m.step e).asked = m.asked ++ [cmd] ∧
        (m.ctxAt e.env).Serves cmd m.asked.length (m.step e).ctx := by
  obtain ⟨env, input⟩ := e
  have hidle : ∀ {d : Desk}, d = m.ctx.desk → m.ctx.desk.Tends d := by
    intro d hdesk
    rw [hdesk]
  rcases input with ⟨src, pkt⟩ | cmd | _ | _ | r | _
  · left
    rw [step]
    dsimp only
    split
    · exact ⟨rfl, hidle ((m.ctxAt env).desk_handleDatagram src pkt)⟩
    · exact ⟨rfl, hidle rfl⟩
  · rw [step]
    dsimp only
    split
    · exact Or.inr ⟨cmd, rfl, rfl, (m.ctxAt env).serves_handleCmd cmd _⟩
    · exact Or.inl ⟨rfl, hidle rfl⟩
  · left
    rw [step]
    dsimp only
    split
    · exact ⟨rfl, hidle rfl⟩
    · exact ⟨rfl, hidle rfl⟩
  · left
    rcases hwork : m.work with _ | ⟨t, ts⟩
    · rw [step_work_nil hwork, taken, hwork]
      exact ⟨rfl, hidle rfl⟩
    rw [step_work hwork, taken, hwork]
    refine ⟨rfl, ?_⟩
    rcases t with ⟨src, pkt, authenticated⟩ | src | src | kind
    · exact (m.ctxAt env).desk_handleApp src pkt authenticated
    · exact hidle ((m.ctxAt env).desk_drainTurn src)
    · exact hidle rfl
    · exact (m.ctxAt env).tends_onTimer kind
  · exact Or.inl ⟨rfl, Relation.ReflTransGen.single (.reorder m.ctx.desk r)⟩
  · left
    rw [step]
    dsimp only
    split
    · exact ⟨rfl, hidle rfl⟩
    · exact ⟨rfl, hidle rfl⟩

end Machine

end

end Molia
