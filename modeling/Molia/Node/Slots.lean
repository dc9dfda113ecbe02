import Molia.Node.Waiting
import Molia.Shard.Sweep

/-!
# Named slots

A named slot belongs to an owner and is found by a namespace and a salt. Its key is the hash of the
owner's public key, the namespace and the salt, one after the other: two pairs of namespace and salt
that read the same when written together share a slot. The signature covers the key and not the
pair, so nothing tells the two apart.

For pairs that do not read the same, the slots are independent: a put into one of them changes
neither what a get of the other returns nor whether a put into the other is taken. What a command is
answered in the step that takes it is a function of few parts of the state (`getAnswer`,
`putMutableAnswer`), and a put into another slot leaves these parts alone (`SameFor`). A get that
goes to the network is answered from what its lookup is given there. The put has sent requests, so
the two lookups do not use the same correlation ids, and the runs to compare are not the same; what
is the same is what the lookups are given (`hears`).
-/

namespace Molia

section

variable [Crates]

/-! ## Names -/

omit [Crates] in
/-- Only what namespace and salt read together enters the name of a slot. -/
theorem slotName_inj_iff {owner ns salt ns' salt' : Bytes} :
    slotName owner ns salt = slotName owner ns' salt' ↔ ns ++ salt = ns' ++ salt' := by
  rw [slotName, slotName, List.append_assoc, List.append_assoc, List.append_right_inj]

/-- Signed records of one key agree in what namespace and salt read together, unless the names of
their slots collide. -/
theorem StoredRecord.pair_of_authentic {r r' : StoredRecord} (hr : r.Signed) (hr' : r'.Signed)
    (ha : r.authentic = true) (ha' : r'.authentic = true) (hkey : r.key = r'.key)
    (hcol : NoCollision r.slot r'.slot) : r.ns ++ r.salt = r'.ns ++ r'.salt := by
  rw [authentic_of_signed hr] at ha
  rw [authentic_of_signed hr'] at ha'
  have howner := owner_eq_of_envelopeOk ha ha' hkey hcol
  have hslot : mutableKey r.ownerPubkey r.ns r.salt = mutableKey r'.ownerPubkey r'.ns r'.salt := by
    rw [(envelopeOk_iff.mp ha).2.1, (envelopeOk_iff.mp ha').2.1, hkey]
  have hname : r.slot = r'.slot := hcol (Key.mk.inj hslot)
  rw [slot, slot, ← howner] at hname
  exact slotName_inj_iff.mp hname

/-! ## Answers within the step -/

namespace ShardCtx

variable {c c' : ShardCtx} {k : Key} {tx : Chan}

def putMutableAnswer (c : ShardCtx) (rec : StoredRecord) : Reply :=
  match (c.store.putRecord rec false).1 with
  | .ok () => .key rec.key
  | .error _ => .err "mutable rejected"

theorem replies_handlePutMutable (c : ShardCtx) (rec : StoredRecord) (tx : Chan) :
    (c.handlePutMutable rec tx).replies = c.replies ++ [(tx, c.putMutableAnswer rec)] := by
  rw [handlePutMutable, putMutableAnswer]
  rcases c.store.putRecord rec false with ⟨_ | _, s⟩
  · rfl
  · rfl

/-- The parts of the state that the answers under `k` depend on. -/
structure SameFor (k : Key) (c c' : ShardCtx) : Prop where
  records : c'.store.records.lookup k = c.store.records.lookup k
  cache : c'.store.cache.lookup k = c.store.cache.lookup k
  table : c'.table = c.table
  cfg : c'.cfg = c.cfg

namespace SameFor

theorem getAnswer (h : SameFor k c c') (env : Env) :
    { c' with env }.getAnswer k = { c with env }.getAnswer k := by
  have hget : c'.store.get env.unix k = c.store.get env.unix k := by
    rw [Store.get, Store.get, h.records, h.cache]
  have hlookup : { c' with env }.newLookup k = { c with env }.newLookup k := by
    show Lookup.new _ _ _ (c'.table.closest k alphaDefault) (if c'.cfg.queryBlind then _ else _) = _
    rw [h.table, h.cfg]
    rfl
  rw [ShardCtx.getAnswer, ShardCtx.getAnswer, hlookup]
  simp only [hget]
  rfl

theorem putMutableAnswer (h : SameFor k c c') {rec : StoredRecord} (hkey : rec.key = k)
    (env : Env) : { c' with env }.putMutableAnswer rec = { c with env }.putMutableAnswer rec := by
  have hverdict : (c'.store.putRecord rec false).1 = (c.store.putRecord rec false).1 := by
    have hseq : c'.store.checkSequence rec = c.store.checkSequence rec := by
      rw [Store.checkSequence, Store.checkSequence, hkey, h.records]
    rw [Store.putRecord_fst, Store.putRecord_fst, Store.validate, Store.validate, hseq]
  rw [ShardCtx.putMutableAnswer, ShardCtx.putMutableAnswer]
  simp only [hverdict]

theorem handlePutMutable (c : ShardCtx) {rec : StoredRecord} (hne : rec.key ≠ k) (tx : Chan) :
    SameFor k c (c.handlePutMutable rec tx) := by
  by_cases hvalid : c.store.validate rec = .ok ()
  · have hput : c.handlePutMutable rec tx =
        ({ c with store := (c.store.queueRecord rec).insertRecord rec }.withNet
          (c.toShardNet.sendStoreRpc rec)).send tx (.key rec.key) := by
      rw [ShardCtx.handlePutMutable, Store.putRecord_of_admitted false hvalid,
        if_pos (Or.inr rfl)]
    have hsends : ShardNet.Sends c.toShardNet (c.toShardNet.sendStoreRpc rec) :=
      ShardNet.Sends.sendToAll _ _ _
    rw [hput]
    refine ⟨?_, ?_, hsends.table, congrArg ShardNet.Knowledge.cfg hsends.knowledge⟩
    · show ((c.store.queueRecord rec).insertRecord rec).records.lookup k = _
      rw [Store.records_insertRecord, Store.records_queueRecord, AList.lookup_insert_ne hne.symm]
    · show ((c.store.queueRecord rec).insertRecord rec).cache.lookup k = _
      rw [Store.cache_insertRecord, Store.cache_queueRecord]
  · obtain ⟨e, he⟩ := Store.putRecord_of_not_admitted false hvalid
    rw [ShardCtx.handlePutMutable, he]
    exact ⟨rfl, rfl, rfl, rfl⟩

end SameFor

end ShardCtx

/-! ## Calls -/

/-- The machines differ in nothing that the answers under `k` depend on. -/
structure Machine.SameFor (k : Key) (m m' : Machine) : Prop where
  phase : m'.phase = m.phase
  work : m'.work = m.work
  ctx : m.ctx.SameFor k m'.ctx

theorem Machine.SameFor.putMutable (m : Machine) {k : Key} {rec : StoredRecord}
    (hne : rec.key ≠ k) (env : Env) :
    m.SameFor k (m.step ⟨env, .command (.putMutable rec)⟩) := by
  rw [step]
  by_cases hready : m.Ready
  · simp only [if_pos hready]
    have hat := ShardCtx.SameFor.handlePutMutable (m.ctxAt env) hne m.asked.length
    exact ⟨rfl, rfl, hat.records, hat.cache, hat.table, hat.cfg⟩
  · simp only [if_neg hready]
    exact ⟨rfl, rfl, rfl, rfl, rfl, rfl⟩

theorem Machine.SameFor.ready_iff {k : Key} {m m' : Machine} (h : m.SameFor k m') :
    m'.Ready ↔ m.Ready := by
  rw [Ready, Ready, h.phase, h.work]

namespace Node

variable {node node' : Node} {env : Env} {k : Key} {wait wait' : List (ℕ × Event)}

/-- A put is answered at once, by a shard that is ready. -/
theorem call_putMutable (env : Env) (i : ℕ) (rec : StoredRecord) (wait : List (ℕ × Event)) :
    node.call env i (.putMutable rec) wait
      = match node.shards[i]? with
        | none => (.error "shard gone", node)
        | some m =>
          if m.phase = .exited then (.error "shard gone", node)
          else if m.Ready then
            (.ok ((m.ctxAt env).putMutableAnswer rec),
              node.step (i, ⟨env, .command (.putMutable rec)⟩))
          else (.error "timeout", node) := by
  rcases hm : node.shards[i]? with _ | m
  · rw [call, hm]
  by_cases hready : m.Ready
  · simp only [if_neg hready.ne_exited, if_pos hready]
    exact call_of_ready hm hready (ShardCtx.replies_handlePutMutable (m.ctxAt env) rec _)
  · rw [call, hm]
    simp only [if_neg hready]

/-- The shards differ in nothing that the answers under `k` depend on. -/
structure SameFor (k : Key) (node node' : Node) : Prop where
  identity : node'.identity = node.identity
  length : node'.shards.length = node.shards.length
  shards : ∀ (i : ℕ) (m : Machine), node.shards[i]? = some m →
    ∃ m', node'.shards[i]? = some m' ∧ m.SameFor k m'

theorem SameFor.putMutable (node : Node) {rec : StoredRecord} (hne : rec.key ≠ k) (env : Env)
    (i : ℕ) (wait : List (ℕ × Event)) :
    node.SameFor k (node.call env i (.putMutable rec) wait).2 := by
  have hrefl : node.SameFor k node :=
    ⟨rfl, rfl, fun j m hm ↦ ⟨m, hm, rfl, rfl, rfl, rfl, rfl, rfl⟩⟩
  rw [call_putMutable]
  rcases hi : node.shards[i]? with _ | m
  · exact hrefl
  simp only
  split_ifs
  · exact hrefl
  · refine ⟨rfl, List.length_modify _ _ _, ?_⟩
    intro j m' hj
    refine ⟨_, shards_step _ hj, ?_⟩
    split_ifs
    · exact Machine.SameFor.putMutable m' hne env
    · exact ⟨rfl, rfl, rfl, rfl, rfl, rfl⟩
  · exact hrefl

theorem Reachable.putMutable (h : node.Reachable) (env : Env) (i : ℕ) (rec : StoredRecord)
    (wait : List (ℕ × Event)) : (node.call env i (.putMutable rec) wait).2.Reachable := by
  rw [call_putMutable]
  rcases node.shards[i]? with _ | m
  · exact h
  simp only
  split_ifs
  · exact h
  · exact h.step _
  · exact h

theorem SameFor.shards_none (h : node.SameFor k node') {i : ℕ} (hi : node.shards[i]? = none) :
    node'.shards[i]? = none := by
  rw [List.getElem?_eq_none_iff, h.length]
  exact List.getElem?_eq_none_iff.mp hi

theorem SameFor.owner (h : node.SameFor k node') (key : Key) :
    node'.owner key = node.owner key := by
  rw [Node.owner, Node.owner, h.identity, h.length]

/-- A get returns the same if its lookup is given the same. -/
theorem SameFor.call_get (h : node.SameFor k node') (hreachable : node.Reachable)
    (hreachable' : node'.Reachable) (hears : node'.hears env k wait' = node.hears env k wait)
    (htime : (node.call env (node.owner k) (.get k) wait).1 ≠ .error "timeout")
    (htime' : (node'.call env (node'.owner k) (.get k) wait').1 ≠ .error "timeout") :
    (node'.call env (node'.owner k) (.get k) wait').1
      = (node.call env (node.owner k) (.get k) wait).1 := by
  have howner := h.owner k
  rcases hm : node.shards[node.owner k]? with _ | m
  · have hm' := h.shards_none hm
    rw [call, call, howner, hm, hm']
  obtain ⟨m', hm', hsame⟩ := h.shards _ m hm
  rw [← howner] at hm'
  by_cases hexit : m.phase = .exited
  · have hexit' : m'.phase = .exited := hsame.phase.trans hexit
    rw [call, call, hm, hm']
    simp only [if_pos hexit, if_pos hexit']
  -- both have been answered: from what the shard has, or by a lookup that was given the same
  have hanswered {n : Node} {w : List (ℕ × Event)} {mn : Machine}
      (hn : n.shards[n.owner k]? = some mn) (hrunning : mn.phase ≠ .exited)
      (hw : (n.call env (n.owner k) (.get k) w).1 ≠ .error "timeout") :
      ∃ r, (n.call env (n.owner k) (.get k) w).1 = .ok r := by
    rcases hcall : (n.call env (n.owner k) (.get k) w).1 with e | r
    · rw [hcall] at hw
      rw [call, hn] at hcall
      simp only [if_neg hrunning] at hcall
      split_ifs at hcall
      · exact absurd (congrArg Except.error (eq_of_recvTimeout_error hcall)) hw
      · exact absurd hcall.symm hw
    · exact ⟨r, rfl⟩
  obtain ⟨r, hr⟩ := hanswered hm hexit htime
  obtain ⟨r', hr'⟩ := hanswered hm' (hsame.phase ▸ hexit) htime'
  rw [hr, hr', reply_of_call_get hm (hreachable _ m hm) hr,
    reply_of_call_get hm' (hreachable' _ m' hm') hr', hears]
  exact congrArg _ (congrArg₂ _ (hsame.ctx.getAnswer env) rfl)

theorem SameFor.getMutable (h : node.SameFor k node') (hreachable : node.Reachable)
    (hreachable' : node'.Reachable) {ownerPk ns salt : Bytes}
    (hk : mutableKey ownerPk ns salt = k) (hears : node'.hears env k wait' = node.hears env k wait)
    (htime : (node.getMutable env ownerPk ns salt wait).1 ≠ .error "timeout")
    (htime' : (node'.getMutable env ownerPk ns salt wait').1 ≠ .error "timeout") :
    (node'.getMutable env ownerPk ns salt wait').1
      = (node.getMutable env ownerPk ns salt wait).1 := by
  have hinTime {n : Node} {w : List (ℕ × Event)}
      (hw : (n.getMutable env ownerPk ns salt w).1 ≠ .error "timeout") :
      (n.call env (n.owner k) (.get k) w).1 ≠ .error "timeout" := by
    intro hcall
    apply hw
    simp only [Node.getMutable, Node.getRecord, hk, hcall]
    rfl
  have hcall := h.call_get hreachable hreachable' hears (hinTime htime) (hinTime htime')
  simp only [Node.getMutable, Node.getRecord, hk, hcall]

theorem SameFor.putMutableTtl (h : node.SameFor k node') {ns salt : Bytes}
    (hk : mutableKey node.identity.verifyingKey.val ns salt = k) (env : Env) (value : Bytes)
    (sequence ttlSecs : UInt64) (wait wait' : List (ℕ × Event)) :
    (node'.putMutableTtl env ns salt value sequence ttlSecs wait').1
      = (node.putMutableTtl env ns salt value sequence ttlSecs wait).1 := by
  have hcall : ∀ rec : StoredRecord, rec.key = k →
      (node'.call env (node'.owner rec.key) (.putMutable rec) wait').1
        = (node.call env (node.owner rec.key) (.putMutable rec) wait).1 := by
    intro rec hrec
    rw [call_putMutable, call_putMutable, h.owner]
    rcases hm : node.shards[node.owner rec.key]? with _ | m
    · rw [h.shards_none hm]
    · obtain ⟨m', hm', hsame⟩ := h.shards _ m hm
      rw [hm']
      simp only [hsame.phase, hsame.ready_iff]
      split_ifs
      · rfl
      · exact congrArg Except.ok (hsame.ctx.putMutableAnswer hrec env)
      · rfl
  simp only [Node.putMutableTtl, h.identity]
  rw [hcall _ hk]

end Node

/-- **Independent slots.** The names of two slots of one owner differ exactly if the pairs of
namespace and salt do not read the same. Then, unless the names collide, a put into one slot changes
neither the outcome of a get of the other, if the network gives both gets the same and neither times
out, nor that of a put into the other. And the records of one key agree in what namespace and salt
read together: in the pair itself exactly if the namespaces are of one length. -/
theorem slots_independent (node : Node) (ns₁ salt₁ ns₂ salt₂ : Bytes) :
    (∀ owner : Bytes, slotName owner ns₁ salt₁ ≠ slotName owner ns₂ salt₂
        ↔ ns₁ ++ salt₁ ≠ ns₂ ++ salt₂) ∧
      (ns₁ ++ salt₁ ≠ ns₂ ++ salt₂ →
        NoCollision (slotName node.identity.verifyingKey.val ns₁ salt₁)
          (slotName node.identity.verifyingKey.val ns₂ salt₂) →
        ∀ (env env' : Env) (value : Bytes) (sequence ttlSecs : UInt64)
          (wait₀ wait wait' : List (ℕ × Event)),
          let owner := node.identity.verifyingKey.val
          let after := (node.putMutableTtl env ns₁ salt₁ value sequence ttlSecs wait₀).2
          (node.Reachable →
            after.hears env' (mutableKey owner ns₂ salt₂) wait'
              = node.hears env' (mutableKey owner ns₂ salt₂) wait →
            (after.getMutable env' owner ns₂ salt₂ wait').1 ≠ .error "timeout" →
            (node.getMutable env' owner ns₂ salt₂ wait).1 ≠ .error "timeout" →
            (after.getMutable env' owner ns₂ salt₂ wait').1
              = (node.getMutable env' owner ns₂ salt₂ wait).1) ∧
          ∀ (value' : Bytes) (sequence' ttlSecs' : UInt64),
            (after.putMutableTtl env' ns₂ salt₂ value' sequence' ttlSecs' wait').1
              = (node.putMutableTtl env' ns₂ salt₂ value' sequence' ttlSecs' wait).1) ∧
      ∀ r r' : StoredRecord, r.Signed → r'.Signed → r.authentic = true → r'.authentic = true →
        r.key = r'.key → NoCollision r.slot r'.slot →
        r.ns ++ r.salt = r'.ns ++ r'.salt ∧
          ((r.ns, r.salt) = (r'.ns, r'.salt) ↔ r.ns.length = r'.ns.length) := by
  refine ⟨fun owner ↦ not_congr slotName_inj_iff, ?_, ?_⟩
  · intro hpair hcol env env' value sequence ttlSecs wait₀ wait wait' owner after
    have hkey : mutableKey owner ns₁ salt₁ ≠ mutableKey owner ns₂ salt₂ :=
      fun heq ↦ hpair (slotName_inj_iff.mp (hcol (Key.mk.inj heq)))
    have hsame : node.SameFor (mutableKey owner ns₂ salt₂) after :=
      Node.SameFor.putMutable node hkey env _ wait₀
    refine ⟨fun hreachable hears htime' htime ↦ ?_, fun value' sequence' ttlSecs' ↦ ?_⟩
    · have hreachable' : after.Reachable := hreachable.putMutable env _ _ wait₀
      exact hsame.getMutable hreachable hreachable' rfl hears htime htime'
    · exact hsame.putMutableTtl rfl env' value' sequence' ttlSecs' wait wait'
  · intro r r' hr hr' ha ha' hkey hcol
    have hread := StoredRecord.pair_of_authentic hr hr' ha ha' hkey hcol
    refine ⟨hread, ?_⟩
    constructor
    · intro hpair
      rw [(Prod.mk.inj hpair).1]
    · intro hlen
      obtain ⟨hns, hsalt⟩ := List.append_inj hread hlen
      rw [hns, hsalt]

end

/-! ## Two names that read the same -/

section

open Sample

/-- The sample instance, in which the first node signs the value `v` with sequence 1. -/
@[reducible] private def signingCrates : Crates :=
  { wireCrates with
    sign := fun i msg ↦
      if msg = recordBytes slotKey [118] 1 86400 0 then sigOne else nodeSign i msg }

attribute [local instance] signingCrates

private def soloNode : Node := freshNode ⟨Party.first, Party.first.secret⟩

private def siblingAddr : SocketAddr := .ofV4 10 0 0 9 9000

/-- A node that knows one peer. -/
private def befriendedRun : ShardRun where
  start := freshStart ⟨Party.first, Party.first.secret⟩
  events := [⟨noon, .command (.injectPeer (.new ⟨Bytes32.fill 9⟩ siblingAddr))⟩]

private def pairedNode : Node := ⟨⟨Party.first, Party.first.secret⟩, [befriendedRun.final]⟩

/-- The peer answers the request with the given number with the record of the empty value. -/
private def siblingAnswers (corr : UInt32) : List (ℕ × Event) :=
  [(0, ⟨noon, .datagram siblingAddr ((Header.response .findValueResp .coordination corr).bytes ++
    Proto.findValueRespWire.encode ⟨some (.record ([10, 32] ++ emptyKey.val.val)), []⟩)⟩),
    (0, ⟨noon, .work⟩)]

/-- The slot of `ns` and `s` does not depend on that of `ns` and the empty salt. The put into the
first one sends a request of its own, so the requests of the two gets have different numbers. -/
theorem slots_independent_salts :
    (pairedNode.putMutableTtl noon ns salt [118] 1 86400 []).1 = .ok slotKey ∧
      (pairedNode.getMutable noon pairedNode.identity.verifyingKey.val ns []
        (siblingAnswers 1)).1 = .error "key mismatch" ∧
      ((pairedNode.putMutableTtl noon ns salt [118] 1 86400 []).2.getMutable noon
        pairedNode.identity.verifyingKey.val ns [] (siblingAnswers 2)).1
          = .error "key mismatch" := by
  have hcol : NoCollision (slotName pairedNode.identity.verifyingKey.val ns salt)
      (slotName pairedNode.identity.verifyingKey.val ns []) := by
    intro heq
    exact absurd heq (by decide +kernel)
  have hreachable : pairedNode.Reachable := by
    rintro (_ | i) m hm
    · exact ⟨befriendedRun, Option.some.inj hm⟩
    · cases hm
  have hbefore : (pairedNode.getMutable noon pairedNode.identity.verifyingKey.val ns []
      (siblingAnswers 1)).1 = .error "key mismatch" := by
    decide +kernel
  refine ⟨by decide +kernel, hbefore, ?_⟩
  rw [← hbefore]
  exact ((slots_independent pairedNode ns salt ns []).2.1 (by decide) hcol noon noon [118] 1 86400
    [] (siblingAnswers 1) (siblingAnswers 2)).1 hreachable (by decide +kernel) (by decide +kernel)
    (by decide +kernel)

/-- The slot of `ns` and `s` is also that of `n` and `ss`: a put into the first makes a get of the
second fail, and a put into the second be refused. -/
theorem slots_independent_fails :
    (¬∀ (_ : Crates) (node : Node) (ns₁ salt₁ ns₂ salt₂ : Bytes) (env env' : Env) (value : Bytes)
        (sequence ttlSecs : UInt64) (wait₀ wait wait' : List (ℕ × Event)),
        (ns₁, salt₁) ≠ (ns₂, salt₂) → node.Reachable →
        let owner := node.identity.verifyingKey.val
        let after := (node.putMutableTtl env ns₁ salt₁ value sequence ttlSecs wait₀).2
        after.hears env' (mutableKey owner ns₂ salt₂) wait'
          = node.hears env' (mutableKey owner ns₂ salt₂) wait →
        (after.getMutable env' owner ns₂ salt₂ wait').1 ≠ .error "timeout" →
        (node.getMutable env' owner ns₂ salt₂ wait).1 ≠ .error "timeout" →
        (after.getMutable env' owner ns₂ salt₂ wait').1
          = (node.getMutable env' owner ns₂ salt₂ wait).1) ∧
      ¬∀ (_ : Crates) (node : Node) (ns₁ salt₁ ns₂ salt₂ : Bytes) (env env' : Env)
        (value value' : Bytes) (sequence sequence' ttlSecs ttlSecs' : UInt64)
        (wait₀ wait wait' : List (ℕ × Event)),
        (ns₁, salt₁) ≠ (ns₂, salt₂) → node.Reachable →
        ((node.putMutableTtl env ns₁ salt₁ value sequence ttlSecs wait₀).2.putMutableTtl env' ns₂
            salt₂ value' sequence' ttlSecs' wait').1
          = (node.putMutableTtl env' ns₂ salt₂ value' sequence' ttlSecs' wait).1 := by
  have hreachable : soloNode.Reachable := by
    rintro (_ | i) m hm
    · exact ⟨⟨freshStart ⟨Party.first, Party.first.secret⟩, []⟩, Option.some.inj hm⟩
    · cases hm
  refine ⟨fun h ↦ ?_, fun h ↦ ?_⟩
  · have hbefore : (soloNode.getMutable noon soloNode.identity.verifyingKey.val [110]
        [115, 115] []).1 = .ok none := by decide +kernel
    have hafter : ((soloNode.putMutableTtl noon ns salt [118] 1 86400 []).2.getMutable noon
        soloNode.identity.verifyingKey.val [110] [115, 115] []).1 = .error "key mismatch" := by
      decide +kernel
    have hget := h signingCrates soloNode ns salt [110] [115, 115] noon noon [118] 1 86400 [] [] []
      (by decide) hreachable (by decide +kernel) (by decide +kernel) (by decide +kernel)
    rw [hbefore, hafter] at hget
    cases hget
  · have hput := h signingCrates soloNode ns salt [110] [115, 115] noon noon [118] [118] 1 1 86400
      86400 [] [] [] (by decide) hreachable
    have hbefore : (soloNode.putMutableTtl noon [110] [115, 115] [118] 1 86400 []).1
        = .ok slotKey := by decide +kernel
    have hafter : ((soloNode.putMutableTtl noon ns salt [118] 1 86400 []).2.putMutableTtl noon
        [110] [115, 115] [118] 1 86400 []).1 = .error "mutable rejected" := by decide +kernel
    rw [hbefore, hafter] at hput
    cases hput

end

end Molia
