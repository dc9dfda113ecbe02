import Molia.Shard.TableWrites

/-!
# Bindings and hearsay

A peer whose signature binds its X25519 key to its id is entered into the routing table with that
key and with the address the signature came from. `RoutingTable.insert` replaces the whole entry of
a peer it knows, whoever the caller is. So a peer that is merely listed in an answer takes the place
of one that has been verified.

`binding_kept` says when a binding survives: in every run in which whatever is said about the peer
agrees with the binding, and in which the peer answers in time.
-/

namespace Molia

/-! ## One entry of the table -/

namespace PeerInfo

variable {p : PeerInfo} {addr : SocketAddr} {key : Option Bytes32}

/-- The peer is reached at the address and with the key. -/
def BoundTo (p : PeerInfo) (addr : SocketAddr) (key : Option Bytes32) : Prop :=
  p.primaryAddr = some addr ∧ p.x25519 = key

instance (p : PeerInfo) (addr : SocketAddr) (key : Option Bytes32) :
    Decidable (p.BoundTo addr key) :=
  inferInstanceAs (Decidable (_ ∧ _))

@[simp]
theorem id_pushAddr (p : PeerInfo) (a : SocketAddr) : (p.pushAddr a).id = p.id := by
  rw [pushAddr]
  split_ifs
  · rfl
  · rfl

@[simp]
theorem id_foldl_pushAddr (cands : List SocketAddr) (p : PeerInfo) :
    (cands.foldl pushAddr p).id = p.id := by
  induction cands generalizing p with
  | nil => rfl
  | cons a cands ih => rw [List.foldl_cons, ih, id_pushAddr]

/-- A further address does not displace the first one. -/
theorem BoundTo.pushAddr (h : p.BoundTo addr key) (a : SocketAddr) :
    (p.pushAddr a).BoundTo addr key := by
  obtain ⟨haddr, hkey⟩ := h
  rw [PeerInfo.pushAddr]
  split_ifs
  · exact ⟨haddr, hkey⟩
  · refine ⟨?_, hkey⟩
    obtain ⟨rest, hrest⟩ := List.head?_eq_some_iff.mp haddr
    show (tryPush addrsCap p.addrs a).head? = some addr
    rw [tryPush, hrest]
    split_ifs
    · rfl
    · rfl

theorem BoundTo.foldl_pushAddr (h : p.BoundTo addr key) (cands : List SocketAddr) :
    (cands.foldl PeerInfo.pushAddr p).BoundTo addr key :=
  List.foldlRecOn (motive := fun p : PeerInfo ↦ p.BoundTo addr key) cands _ h
    fun _ hp a _ ↦ hp.pushAddr a

end PeerInfo

namespace RoutingTable

variable {t : RoutingTable} {x : NodeId} {addr : SocketAddr} {key : Option Bytes32}

/-- The address and the key the table has for a peer. -/
def binding (t : RoutingTable) (x : NodeId) : Option (Option SocketAddr × Option Bytes32) :=
  (t.get x).map fun e ↦ (e.info.primaryAddr, e.info.x25519)

/-- The entries of a peer in its bucket. -/
def entriesOf (t : RoutingTable) (x : NodeId) : List PeerEntry :=
  (t.buckets (bucketIndex t.selfId x)).filter fun e ↦ e.id = x

theorem id_known (t : RoutingTable) (x : NodeId) (addr : SocketAddr) :
    (t.known x addr).id = x := by
  rw [known]
  rcases he : t.get x with _ | e
  · rfl
  · exact id_of_get he

theorem get_eq_head? (t : RoutingTable) (x : NodeId) : t.get x = (t.entriesOf x).head? := by
  rw [get, entriesOf, List.head?_filter]

theorem entriesOf_setBucket (t : RoutingTable) (i : ℕ) (b : List PeerEntry) (x : NodeId) :
    (t.setBucket i b).entriesOf x =
      if bucketIndex t.selfId x = i then b.filter fun e ↦ e.id = x else t.entriesOf x := by
  show (Function.update t.buckets i b (bucketIndex t.selfId x)).filter _ = _
  rw [Function.update_apply]
  split_ifs
  · rfl
  · rfl

theorem filter_eraseP_of_ne {y : NodeId} (h : y ≠ x) (b : List PeerEntry) :
    (b.eraseP fun e ↦ e.id = y).filter (fun e ↦ e.id = x) = b.filter fun e ↦ e.id = x := by
  induction b with
  | nil => rfl
  | cons e b ih =>
    by_cases hy : e.id = y
    · simp [hy, h]
    · simp [hy, List.filter_cons, ih]

theorem filter_eraseP_self (x : NodeId) (b : List PeerEntry) :
    (b.eraseP fun e ↦ e.id = x).filter (fun e ↦ e.id = x) = (b.filter fun e ↦ e.id = x).tail := by
  induction b with
  | nil => rfl
  | cons e b ih =>
    by_cases hx : e.id = x
    · simp [hx]
    · simp [hx, ih]

theorem filter_updateFirst {y : NodeId} {f : PeerEntry → PeerEntry} (hf : ∀ e, (f e).id = e.id)
    (b : List PeerEntry) :
    (updateFirst y f b).filter (fun e ↦ e.id = x) =
      if y = x then updateFirst x f (b.filter fun e ↦ e.id = x)
      else b.filter fun e ↦ e.id = x := by
  induction b with
  | nil => simp [updateFirst]
  | cons e b ih =>
    by_cases hyx : y = x
    · subst hyx
      by_cases hy : e.id = y
      · simp [updateFirst, hy, hf]
      · simp only [if_true] at ih
        simp [updateFirst, hy, ih]
    · by_cases hy : e.id = y
      · simp [updateFirst, hy, hf, hyx]
      · rw [if_neg hyx] at ih
        simp [updateFirst, hy, hyx, ih, List.filter_cons]

theorem filter_concat_of_ne {e : PeerEntry} (h : e.id ≠ x) (b : List PeerEntry) :
    (b ++ [e]).filter (fun e ↦ e.id = x) = b.filter fun e ↦ e.id = x := by
  simp [h]

/-! ## A peer that is held -/

/-- The peer stands in its bucket once, with the address and the key, and does not wait in the
replacement list. -/
structure Holds (t : RoutingTable) (x : NodeId) (addr : SocketAddr) (key : Option Bytes32) :
    Prop where
  once : ∃ e, t.entriesOf x = [e] ∧ e.info.BoundTo addr key
  spare : ∀ e ∈ t.replacement (bucketIndex t.selfId x), e.id ≠ x

theorem holds_iff : t.Holds x addr key ↔ ((t.entriesOf x).length = 1 ∧
    ∀ e ∈ t.entriesOf x, e.info.BoundTo addr key) ∧
      ∀ e ∈ t.replacement (bucketIndex t.selfId x), e.id ≠ x := by
  constructor
  · rintro ⟨⟨e, he, hbound⟩, hspare⟩
    rw [he]
    exact ⟨⟨rfl, List.forall_mem_singleton.mpr hbound⟩, hspare⟩
  · rintro ⟨⟨hlen, hbound⟩, hspare⟩
    obtain ⟨e, he⟩ := List.length_eq_one_iff.mp hlen
    refine ⟨⟨e, he, hbound e ?_⟩, hspare⟩
    rw [he]
    exact List.mem_singleton_self e

instance (t : RoutingTable) (x : NodeId) (addr : SocketAddr) (key : Option Bytes32) :
    Decidable (t.Holds x addr key) :=
  decidable_of_iff _ holds_iff.symm

namespace Holds

theorem get (h : t.Holds x addr key) :
    ∃ e, t.get x = some e ∧ e.info.BoundTo addr key := by
  obtain ⟨e, he, hbound⟩ := h.once
  refine ⟨e, ?_, hbound⟩
  rw [get_eq_head?, he]
  rfl

theorem binding (h : t.Holds x addr key) : t.binding x = some (some addr, key) := by
  obtain ⟨e, he, haddr, hkey⟩ := h.get
  rw [RoutingTable.binding, he, Option.map_some, haddr, hkey]

theorem known (h : t.Holds x addr key) (first : SocketAddr) :
    (t.known x first).BoundTo addr key := by
  obtain ⟨e, he, hbound⟩ := h.get
  rw [RoutingTable.known, he]
  exact hbound

theorem once_of_index (h : t.Holds x addr key) {i : ℕ} (hi : bucketIndex t.selfId x = i) :
    ∃ e, (t.buckets i).filter (fun e ↦ e.id = x) = [e] ∧ e.info.BoundTo addr key :=
  hi ▸ h.once

/-- A bucket may be rewritten if the peer still stands in it once. -/
theorem setBucket (h : t.Holds x addr key) {i : ℕ} {b : List PeerEntry}
    (hb : bucketIndex t.selfId x = i →
      ∃ e, b.filter (fun e ↦ e.id = x) = [e] ∧ e.info.BoundTo addr key) :
    (t.setBucket i b).Holds x addr key := by
  refine ⟨?_, h.spare⟩
  rw [entriesOf_setBucket]
  split_ifs with hi
  · exact hb hi
  · exact h.once

theorem setReplacement (h : t.Holds x addr key) {i : ℕ} {b : List PeerEntry}
    (hb : bucketIndex t.selfId x = i → ∀ e ∈ b, e.id ≠ x) :
    (t.setReplacement i b).Holds x addr key := by
  refine ⟨h.once, ?_⟩
  show ∀ e ∈ Function.update t.replacement i b (bucketIndex t.selfId x), e.id ≠ x
  rw [Function.update_apply]
  split_ifs with hi
  · exact hb hi
  · exact h.spare

theorem insert (h : t.Holds x addr key) (now : ℕ) {info : PeerInfo}
    (hinfo : info.id = x → info.BoundTo addr key) :
    (t.insert now info).2.Holds x addr key := by
  have hknown (hnew : t.get info.id = none) : info.id ≠ x := by
    rintro rfl
    obtain ⟨e, he, -⟩ := h.get
    cases hnew.symm.trans he
  generalize ht' : (t.insert now info).2 = t'
  cases ht' ▸ inserted t now info with
  | keep => exact h
  | @refresh e =>
    refine h.setBucket fun hi ↦ ?_
    by_cases hid : info.id = x
    · subst hid
      obtain ⟨e', he', -⟩ := h.once
      refine ⟨reentered now info e, ?_, hinfo rfl⟩
      have hnone : ((t.bucketOf info.id).eraseP fun e ↦ e.id = info.id).filter
          (fun e ↦ e.id = info.id) = [] := by
        rw [filter_eraseP_self]
        exact congrArg List.tail he'
      rw [List.filter_append, hnone, List.nil_append]
      exact List.filter_cons_of_pos (decide_eq_true rfl)
    · rw [filter_concat_of_ne (e := reentered now info e) hid, filter_eraseP_of_ne hid]
      exact h.once_of_index hi
  | enter _ _ hnew =>
    refine h.setBucket fun hi ↦ ?_
    rw [filter_concat_of_ne (e := freshEntry now info) (hknown hnew)]
    exact h.once_of_index hi
  | wait _ _ hnew =>
    refine h.setReplacement fun hi ↦ List.forall_mem_append.mpr ⟨?_, ?_⟩
    · rw [waiting, ← hi]
      exact h.spare
    · exact List.forall_mem_singleton.mpr (hknown hnew)

theorem insert_known (h : t.Holds x addr key) (now : ℕ) (id : NodeId) (first : SocketAddr)
    (cands : List SocketAddr) :
    (t.insert now (cands.foldl PeerInfo.pushAddr (t.known id first))).2.Holds x addr key := by
  refine h.insert now ?_
  intro hid
  rw [PeerInfo.id_foldl_pushAddr, id_known] at hid
  rw [hid]
  exact (h.known first).foldl_pushAddr cands

theorem updateFirst (h : t.Holds x addr key) {f : PeerEntry → PeerEntry}
    (hid : ∀ e, (f e).id = e.id)
    (hf : ∀ e, e.info.BoundTo addr key → (f e).info.BoundTo addr key) (id : NodeId) :
    (t.setBucket (bucketIndex t.selfId id)
      (updateFirst id f (t.bucketOf id))).Holds x addr key := by
  refine h.setBucket fun hi ↦ ?_
  obtain ⟨e, he, hbound⟩ := h.once_of_index hi
  rw [filter_updateFirst hid, bucketOf, he]
  split_ifs
  · have hmem : e ∈ (t.buckets (bucketIndex t.selfId id)).filter fun e ↦ e.id = x :=
      he ▸ List.mem_singleton_self e
    have hx : e.id = x := of_decide_eq_true (List.mem_filter.mp hmem).2
    refine ⟨f e, ?_, hf e hbound⟩
    rw [RoutingTable.updateFirst, if_pos hx]
  · exact ⟨e, rfl, hbound⟩

theorem touchOk (h : t.Holds x addr key) (now : ℕ) (id : NodeId) (rttUs : UInt32) :
    (t.touchOk now id rttUs).Holds x addr key :=
  h.updateFirst (f := touched now rttUs) (fun _ ↦ rfl) (fun _ hbound ↦ hbound) id

/-- Another peer leaves the table, and a third one may take its place. -/
theorem evictAndReplace (h : t.Holds x addr key) {id : NodeId} (hid : id ≠ x) :
    (t.evictAndReplace id).Holds x addr key := by
  rw [evictAndReplace_eq]
  have hspare (hi : bucketIndex t.selfId x = bucketIndex t.selfId id) :
      ∀ e ∈ t.waiting id, e.id ≠ x := by
    rw [waiting, ← hi]
    exact h.spare
  have hlist := h.setReplacement fun hi e he ↦ hspare hi e (List.dropLast_subset _ he)
  refine hlist.setBucket fun hi ↦ ?_
  have hkept : (t.kept id).filter (fun e ↦ e.id = x)
      = (t.bucketOf id).filter fun e ↦ e.id = x := by
    rw [kept, List.filter_filter]
    refine List.filter_congr fun e _ ↦ ?_
    by_cases he : e.id = x
    · simp [he, hid.symm]
    · simp [he]
  have hpromoted : (t.promoted id).toList.filter (fun e ↦ e.id = x) = [] := by
    refine List.filter_eq_nil_iff.mpr fun e he ↦ ?_
    have hlast := (Option.mem_filter_iff.mp (Option.mem_toList.mp he)).1
    exact decide_eq_true_iff.not.mpr (hspare hi e (List.mem_of_getLast? hlast))
  rw [List.filter_append, hkept, hpromoted, List.append_nil]
  exact h.once_of_index hi

theorem markFail (h : t.Holds x addr key) {id : NodeId} (hid : id ≠ x) :
    (t.markFail id).Holds x addr key := by
  rcases he : t.get id with _ | e
  · rw [markFail_of_get_none he]
    exact h
  by_cases hthree : saturatingSucc e.failCount ≥ 3
  · rw [markFail_of_three he hthree]
    exact h.evictAndReplace hid
  · rw [markFail_of_few he hthree]
    exact h.updateFirst (f := counted _) (fun _ ↦ rfl) (fun _ hbound ↦ hbound) id

end Holds

end RoutingTable

/-! ## Runs -/

section

variable [Crates]

open Crates

/-- All that a message says about peers: the one whose binding it carries, those it lists, and its
sender if that has not shown an id. -/
def saidBy (src : SocketAddr) (h : Header) (pkt : Bytes) : List PeerInfo :=
  (boundBy src h pkt).toList ++ listedBy h pkt ++
    if enteredAs src h pkt = some none then [PeerInfo.new (contactId src) src] else []

section

variable (x : NodeId) (addr : SocketAddr) (key : Option Bytes32)

/-- What a task says about the peer agrees with the binding, and it does not count a failure of the
peer. -/
def ShardCtx.TaskAgrees (c : ShardCtx) : Task → Prop
  | .app src pkt _ => ∀ h ∈ Header.decode pkt, ∀ p ∈ saidBy src h pkt, p.id = x → p.BoundTo addr key
  | .timer .lookupTick => x ∉ c.timedOut
  | _ => True

/-- The same for a step: a task, or a peer the application knows. -/
def Machine.Agrees (m : Machine) (e : Event) : Prop :=
  match e.input with
  | .command (.injectPeer info) => info.id = x → info.BoundTo addr key
  | .work => ∀ t ∈ m.work.head?, (m.ctxAt e.env).TaskAgrees x addr key t
  | _ => True

instance (c : ShardCtx) (t : Task) : Decidable (c.TaskAgrees x addr key t) :=
  match t with
  | .app src pkt _ => inferInstanceAs (Decidable (∀ h ∈ Header.decode pkt, ∀ p ∈ saidBy src h pkt,
      p.id = x → p.BoundTo addr key))
  | .timer .lookupTick => inferInstanceAs (Decidable (x ∉ c.timedOut))
  | .timer .keepalive | .timer .peerstoreFlush | .timer .gc | .timer .punch => isTrue trivial
  | .drain _ | .flush _ => isTrue trivial

end

namespace Machine

variable {x : NodeId} {addr : SocketAddr} {key : Option Bytes32} {m : Machine} {e : Event}

theorem holds_step (hm : m.ctx.table.Holds x addr key) (h : m.Agrees x addr key e) :
    (m.step e).ctx.table.Holds x addr key := by
  refine (m.reaches_step e).invariant (I := fun t ↦ t.Holds x addr key) ?_ hm
  rintro t op ht (hin | ⟨hin, hwork, hdec, hop⟩ | ⟨hin, hwork, hid⟩)
  · simp only [Agrees, hin] at h
    exact ht.insert _ h
  · simp only [Agrees, hin, hwork] at h
    have hsaid := h _ rfl _ hdec
    -- a sender with an id and a punched peer are entered from what the table has already
    rcases hop with hinfo | hp | hid | hid | hid | hty
    · refine ht.insert _ (hsaid _ ?_)
      simp [saidBy, hinfo]
    · refine ht.insert _ (hsaid _ ?_)
      simp [saidBy, hp]
    · exact ht.insert_known _ _ _ [_]
    · exact ht.touchOk _ _ _
    · refine ht.insert _ (hsaid _ ?_)
      simp [saidBy, hid]
    · exact ht.insert_known _ _ _ _
  · simp only [Agrees, hin, hwork] at h
    have hspared : x ∉ (m.ctxAt e.env).timedOut := h _ rfl
    exact ht.markFail fun hx ↦ hspared (hx ▸ hid)

end Machine

/-- **A binding survives what agrees with it.** From any state in which the peer stands in the table
once, and along any run in which whatever is said about the peer agrees with its entry, the address
and the key in the table stay as they are. -/
theorem binding_kept {m : Machine} {x : NodeId} {addr : SocketAddr} {key : Option Bytes32}
    (hm : m.ctx.table.Holds x addr key) {es : List Event}
    (hrun : Runs.Along Machine.step (Machine.Agrees x addr key) m es) :
    (es.foldl Machine.step m).ctx.table.binding x = m.ctx.table.binding x := by
  have hfinal := hrun.invariant (I := fun m ↦ m.ctx.table.Holds x addr key)
    (fun m e hm h ↦ Machine.holds_step hm h) hm
  rw [hfinal.binding, hm.binding]

end

/-! ## A forged address -/

section

open Sample

attribute [local instance] wireCrates

private def boundAddr : SocketAddr := .ofV4 10 0 2 1 9000

private def helloHeader : Header := Header.request .ping .control 1

/-- The ping of a node that shows its keys. -/
private def hello : Bytes :=
  helloHeader.bytes ++ Proto.pingWire.encode
    ⟨0, (keyData .second).x25519.val, (keyData .second).publicKey.val, (keyData .second).binding⟩

private def boundNode : NodeId := (identity .second).nodeId

/-- A shard that has been greeted by the node. -/
private def greetedRun : ShardRun where
  start := shardStart ⟨true, false, false⟩
  events := [⟨noon, .datagram boundAddr hello⟩, ⟨noon, .work⟩]

private def rumourHeader : Header := Header.response .findNodeResp .coordination 77

/-- An answer that lists the node at an address. -/
private def rumour (addr : SocketAddr) (key : Bytes) : Bytes :=
  rumourHeader.bytes ++ Proto.findNodeRespWire.encode
    ⟨[⟨boundNode.val.val, [⟨multiaddr addr⟩], 0, key⟩]⟩

private def gossip : SocketAddr := .ofV4 10 0 3 1 9000

private def heard (addr : SocketAddr) (key : Bytes) : List Event :=
  [⟨noon, .datagram gossip (rumour addr key)⟩, ⟨noon, .work⟩]

/-- A true rumour. -/
theorem binding_kept_true :
    ((heard boundAddr (keyData .second).x25519.val).foldl Machine.step
      greetedRun.final).ctx.table.binding boundNode
        = some (some boundAddr, some (keyData .second).x25519) := by
  have hm : greetedRun.final.ctx.table.Holds boundNode boundAddr
      (some (keyData .second).x25519) := by
    decide +kernel
  have hrun : Runs.Along Machine.step
      (Machine.Agrees boundNode boundAddr (some (keyData .second).x25519)) greetedRun.final
      (heard boundAddr (keyData .second).x25519.val) := by
    refine ⟨trivial, ?_, trivial⟩
    show ∀ t ∈ (Machine.step greetedRun.final _).work.head?, ShardCtx.TaskAgrees _ _ _ _ t
    decide +kernel
  exact (binding_kept hm hrun).trans hm.binding

/-- A false rumour replaces the address and the key of a node that has just shown its binding. -/
theorem binding_kept_fails :
    ¬∀ (_ : Crates) (run : ShardRun) (env env' : Env) (addr src : SocketAddr) (ping pkt : Bytes)
      (hello h : Header) (info : PeerInfo),
      Header.decode ping = some hello → boundBy addr hello ping = some info →
      (([⟨env, .datagram addr ping⟩, ⟨env, .work⟩] : List Event).foldl Machine.step
        run.final).ctx.table.binding info.id = some (some addr, info.x25519) →
      Header.decode pkt = some h → (∀ p ∈ boundBy src h pkt, p.id ≠ info.id) →
      (([⟨env, .datagram addr ping⟩, ⟨env, .work⟩, ⟨env', .datagram src pkt⟩, ⟨env', .work⟩]
        : List Event).foldl Machine.step run.final).ctx.table.binding info.id
        = some (some addr, info.x25519) := by
  intro hall
  have hfalse := hall wireCrates ⟨shardStart ⟨true, false, false⟩, []⟩ noon noon boundAddr gossip
    hello (rumour gossip []) helloHeader rumourHeader
    { PeerInfo.new boundNode boundAddr with x25519 := some (keyData .second).x25519 }
    (by decide +kernel) (by decide +kernel) (by decide +kernel) (by decide +kernel)
    (by decide +kernel)
  revert hfalse
  decide +kernel

end

end Molia
