import Molia.Shard.Bindings

/-!
# Who is credited with an answer

A FIND_NODE answer comes from one peer and lists others. The shard takes in those that are listed,
and then notes the sender: its address, a fresh endpoint hint, a better score. It does not ask whose
answer this is. It takes the first peer of the list for the sender, or makes an id up from the
address if nobody is listed (`creditedId`), and so credits a peer that has sent nothing.

`credits_onFindNodeResp` says what is written under which id. All other ids only gain the addresses
that are listed for them.
-/

namespace Molia

/-! ## The addresses on record -/

theorem PeerInfo.mem_addrs_pushAddr {p : PeerInfo} {a addr : SocketAddr}
    (h : a ∈ (p.pushAddr addr).addrs) : a ∈ p.addrs ∨ a = addr := by
  rw [pushAddr] at h
  split_ifs at h
  · exact .inl h
  · change a ∈ tryPush addrsCap p.addrs addr at h
    rw [tryPush] at h
    split_ifs at h
    · exact (List.mem_append.mp h).imp_right List.mem_singleton.mp
    · exact .inl h

theorem PeerInfo.mem_addrs_pushAddr_self {p : PeerInfo} (hroom : p.addrs.length < addrsCap)
    (addr : SocketAddr) : addr ∈ (p.pushAddr addr).addrs := by
  rw [pushAddr]
  split_ifs with hany
  · obtain ⟨a, ha, heq⟩ := List.any_eq_true.mp hany
    rw [← beq_iff_eq.mp heq]
    exact ha
  · change addr ∈ tryPush addrsCap p.addrs addr
    rw [tryPush, if_pos hroom]
    exact List.mem_append_right _ List.mem_cons_self

theorem PeerInfo.pushAddr_of_full {p : PeerInfo} (hfull : addrsCap ≤ p.addrs.length)
    (addr : SocketAddr) : p.pushAddr addr = p := by
  rw [pushAddr]
  split_ifs
  · rfl
  · rw [tryPush, if_neg (Nat.not_lt.mpr hfull)]

/-- A reward that changes nothing: the score is one that the rounding keeps where it is. -/
theorem Sybil.lookup_reward_eq_iff {s : Sybil} {x : NodeId} :
    (s.reward x).scores.lookup x = s.scores.lookup x ↔ ∃ sc, s.scores.lookup x = some sc ∧
      roundF64 (roundF64 (sc.ewma * roundF64 (8 / 10)) + roundF64 (2 / 10)) = sc.ewma ∧
      (roundF64 (7 / 10) < sc.ewma → sc.quarantine = 0) := by
  rw [reward, HashMap.lookup_insert_of, if_pos rfl]
  rcases s.scores.lookup x with _ | sc
  · simp
  · obtain ⟨ewma, quarantine⟩ := sc
    simp only [Option.getD_some, Option.some.injEq, Score.mk.injEq, exists_eq_left']
    refine and_congr_right fun hewma ↦ ?_
    rw [hewma]
    split_ifs with hhigh
    · simp only [hhigh, true_imp_iff, eq_comm]
    · simp only [hhigh, false_imp_iff]

namespace RoutingTable

variable {t : RoutingTable} {S : NodeId → SocketAddr → Prop}

/-- Every address that stands in the entries for a peer is in `S`. -/
def Within (S : NodeId → SocketAddr → Prop) (b : List PeerEntry) : Prop :=
  ∀ e ∈ b, ∀ a ∈ e.info.addrs, S e.id a

theorem within_singleton {e : PeerEntry} (h : ∀ a ∈ e.info.addrs, S e.id a) : Within S [e] := by
  intro e' he'
  rw [List.mem_singleton.mp he']
  exact h

/-- The same for a table, with the entries that wait. -/
structure AddrsIn (S : NodeId → SocketAddr → Prop) (t : RoutingTable) : Prop where
  buckets : ∀ i, Within S (t.buckets i)
  replacement : ∀ i, Within S (t.replacement i)

namespace AddrsIn

theorem setBucket (h : AddrsIn S t) {i : ℕ} {b : List PeerEntry} (hb : Within S b) :
    AddrsIn S (t.setBucket i b) where
  buckets := forall_setBucket (p := fun _ b ↦ Within S b) hb h.buckets
  replacement := h.replacement

theorem setReplacement (h : AddrsIn S t) {i : ℕ} {b : List PeerEntry} (hb : Within S b) :
    AddrsIn S (t.setReplacement i b) where
  buckets := h.buckets
  replacement := forall_setReplacement (p := fun _ b ↦ Within S b) hb h.replacement

theorem insert (h : AddrsIn S t) (now : ℕ) {info : PeerInfo}
    (hinfo : ∀ a ∈ info.addrs, S info.id a) : AddrsIn S (t.insert now info).2 := by
  have happend {b : List PeerEntry} {e : PeerEntry} (hb : Within S b) (he : e.info = info) :
      Within S (b ++ [e]) := by
    subst he
    exact List.forall_mem_append.mpr ⟨hb, within_singleton hinfo⟩
  generalize ht' : (t.insert now info).2 = t'
  cases ht' ▸ inserted t now info with
  | keep => exact h
  | refresh _ _ he =>
    have hrest : Within S ((t.bucketOf info.id).eraseP fun e ↦ e.id = info.id) :=
      fun e he ↦ h.buckets _ e (List.mem_of_mem_eraseP he)
    exact h.setBucket (happend hrest rfl)
  | enter => exact h.setBucket (happend (h.buckets _) rfl)
  | wait => exact h.setReplacement (happend (h.replacement _) rfl)

theorem touchOk (h : AddrsIn S t) (now : ℕ) (id : NodeId) (rttUs : UInt32) :
    AddrsIn S (t.touchOk now id rttUs) := by
  refine h.setBucket fun e he ↦ ?_
  rcases mem_updateFirst he with hold | ⟨e', he', rfl⟩
  · exact h.buckets _ e hold
  · exact h.buckets _ e' he'

theorem get (h : AddrsIn S t) {id : NodeId} {e : PeerEntry} (he : t.get id = some e) :
    ∀ a ∈ e.info.addrs, S id a := by
  rw [← id_of_get he]
  exact h.buckets _ e (List.mem_of_find?_eq_some he)

end AddrsIn

end RoutingTable

section

variable [Crates]

attribute [local irreducible] message

namespace ShardNet

variable {n n' : ShardNet} {S : NodeId → SocketAddr → Prop}

/-- The address is on record for the peer, in the table or in the index. -/
def Knows (n : ShardNet) (x : NodeId) (a : SocketAddr) : Prop :=
  (∃ i, ∃ e ∈ n.table.buckets i ++ n.table.replacement i, e.id = x ∧ a ∈ e.info.addrs) ∨
    ∃ p, n.peers.peers.lookup x = some p ∧ a ∈ p.addrs

/-- Every address on record is in `S`. -/
structure AddrsIn (S : NodeId → SocketAddr → Prop) (n : ShardNet) : Prop where
  table : n.table.AddrsIn S
  peers : ∀ x p, n.peers.peers.lookup x = some p → ∀ a ∈ p.addrs, S x a

theorem addrsIn_iff : AddrsIn S n ↔ ∀ x a, n.Knows x a → S x a := by
  constructor
  · rintro h x a (⟨i, e, he, rfl, ha⟩ | ⟨p, hp, ha⟩)
    · rcases List.mem_append.mp he with he | he
      · exact h.table.buckets i e he a ha
      · exact h.table.replacement i e he a ha
    · exact h.peers x p hp a ha
  · intro h
    refine ⟨⟨fun i e he a ha ↦ ?_, fun i e he a ha ↦ ?_⟩, fun x p hp a ha ↦ ?_⟩
    · exact h _ _ (.inl ⟨i, e, List.mem_append_left _ he, rfl, ha⟩)
    · exact h _ _ (.inl ⟨i, e, List.mem_append_right _ he, rfl, ha⟩)
    · exact h _ _ (.inr ⟨p, hp, ha⟩)

namespace AddrsIn

theorem enter (h : AddrsIn S n) {info : PeerInfo} (hinfo : ∀ a ∈ info.addrs, S info.id a) :
    AddrsIn S ((n.insertPeer info).upsertPeer info) where
  table := h.table.insert n.now hinfo
  peers x p hp := by
    change (n.peers.peers.insert info.id info).lookup x = some p at hp
    rw [HashMap.lookup_insert_of] at hp
    split_ifs at hp with hx
    · obtain rfl := Option.some.inj hp
      rw [hx]
      exact hinfo
    · exact h.peers x p hp

theorem of_punches (h : AddrsIn S n) (hn : Punches n n') : AddrsIn S n' := by
  refine ⟨?_, ?_⟩
  · rw [hn.table]
    exact h.table
  · rw [hn.peers]
    exact h.peers

theorem learnAddr (h : AddrsIn S n) (src : SocketAddr) (id : Option NodeId)
    (hsrc : S (id.getD (contactId src)) src) : AddrsIn S (n.learnAddr src id) := by
  rcases id with _ | id
  · refine h.enter fun a ha ↦ ?_
    rw [List.mem_singleton.mp ha]
    exact hsrc
  · -- what the table has of the peer is written back with the address of the sender added
    have hknown : ∀ a ∈ (n.table.known id src).addrs, S id a := by
      rw [RoutingTable.known]
      rcases he : n.table.get id with _ | e
      · intro a ha
        rw [List.mem_singleton.mp ha]
        exact hsrc
      · exact h.table.get he
    have hinfo : ∀ a ∈ ((n.table.known id src).pushAddr src).addrs,
        S ((n.table.known id src).pushAddr src).id a := by
      intro a ha
      rw [PeerInfo.id_pushAddr, RoutingTable.id_known]
      rcases PeerInfo.mem_addrs_pushAddr ha with hold | rfl
      · exact hknown a hold
      · exact hsrc
    obtain ⟨htable, hpeers⟩ := h.enter hinfo
    exact ⟨htable.touchOk n.now id 80000, hpeers⟩

theorem learnAddr_of_full (h : AddrsIn S n) (src : SocketAddr) {id : NodeId} {e : PeerEntry}
    (he : n.table.get id = some e) (hfull : PeerInfo.addrsCap ≤ e.info.addrs.length) :
    AddrsIn S (n.learnAddr src (some id)) := by
  have hinfo : ((n.table.get id).map PeerEntry.info |>.getD (PeerInfo.new id src)).pushAddr src
      = e.info := by
    rw [he, Option.map_some, Option.getD_some, PeerInfo.pushAddr_of_full hfull]
  have hknown : ∀ a ∈ e.info.addrs, S e.info.id a := by
    change ∀ a ∈ e.info.addrs, S e.id a
    rw [RoutingTable.id_of_get he]
    exact h.table.get he
  obtain ⟨htable, hpeers⟩ := h.enter hknown
  simp only [ShardNet.learnAddr, hinfo]
  exact ⟨htable.touchOk n.now id 80000, hpeers⟩

theorem foldl_enter (h : AddrsIn S n) (src : SocketAddr) {listed : List PeerInfo}
    (hlisted : ∀ p ∈ listed, ∀ a ∈ p.addrs, S p.id a) :
    AddrsIn S (listed.foldl (fun n p ↦ ((n.insertPeer p).upsertPeer p).startPunch src p) n) := by
  induction listed generalizing n with
  | nil => exact h
  | cons p listed ih =>
    rw [List.forall_mem_cons] at hlisted
    exact ih ((h.enter hlisted.1).of_punches (Punches.startPunch src _ p)) hlisted.2

end AddrsIn

theorem rest_foldl_enter (src : SocketAddr) (listed : List PeerInfo) (n : ShardNet) :
    let n' := listed.foldl (fun n p ↦ ((n.insertPeer p).upsertPeer p).startPunch src p) n
    n'.endpoints = n.endpoints ∧ n'.sybil = n.sybil := by
  refine List.foldlRecOn
    (motive := fun n' : ShardNet ↦ n'.endpoints = n.endpoints ∧ n'.sybil = n.sybil)
    listed _ ⟨rfl, rfl⟩ ?_
  rintro n' ⟨hendpoints, hsybil⟩ p -
  have hpunch := Punches.startPunch src ((n'.insertPeer p).upsertPeer p) p
  exact ⟨(congrArg Knowledge.endpoints hpunch).trans hendpoints,
    (congrArg Knowledge.sybil hpunch).trans hsybil⟩

theorem lookup_endpoints_learnAddr (n : ShardNet) (src : SocketAddr) (id : Option NodeId)
    (x : NodeId) :
    (n.learnAddr src id).endpoints.lookup x
      = if id = some x then some { declared := src, observed := some src, lastOk := n.now }
        else n.endpoints.lookup x := by
  rcases id with _ | id
  · rw [if_neg (Option.some_ne_none x).symm]
    rfl
  · show (n.endpoints.insert id ⟨src, some src, n.now⟩).lookup x = _
    rw [HashMap.lookup_insert_of]
    simp only [Option.some.injEq, eq_comm]

theorem lookup_scores_learnAddr (n : ShardNet) (src : SocketAddr) (id : Option NodeId)
    (x : NodeId) :
    (n.learnAddr src id).sybil.scores.lookup x
      = if id = some x then (n.sybil.reward x).scores.lookup x
        else n.sybil.scores.lookup x := by
  rcases id with _ | id
  · rw [if_neg (Option.some_ne_none x).symm]
    rfl
  · show (n.sybil.reward id).scores.lookup x = _
    split_ifs with hid
    · rw [Option.some.inj hid]
    · rw [Sybil.reward, HashMap.lookup_insert_of, if_neg fun hx ↦ hid (congrArg some hx.symm)]

/-! ## The credit for an answer -/

/-- The peer that is taken for the sender. -/
def namedId (listed : List PeerInfo) : Option NodeId := listed.head?.map PeerInfo.id

/-- The id that the address of the sender goes to. -/
def creditedId (src : SocketAddr) (listed : List PeerInfo) : NodeId :=
  (namedId listed).getD (contactId src)

/-- Once the listed peers are in the table, the entry of the first one has no room for one more
address. -/
def Crowded (listed : List PeerInfo) (n : ShardNet) : Prop :=
  ∃ x ∈ namedId listed, ∃ e ∈ (n.table.enter n.now listed).get x,
    PeerInfo.addrsCap ≤ e.info.addrs.length

/-- What an answer from `src` that lists these peers makes of a shard. -/
structure Credits (src : SocketAddr) (listed : List PeerInfo) (n n' : ShardNet) : Prop where
  addrs : ∀ x a, n'.Knows x a → n.Knows x a ∨ (∃ p ∈ listed, p.id = x ∧ a ∈ p.addrs) ∨
    ¬Crowded listed n ∧ x = creditedId src listed ∧ a = src
  credited : ¬Crowded listed n → n'.Knows (creditedId src listed) src
  endpoints : ∀ x, n'.endpoints.lookup x = if namedId listed = some x
    then some { declared := src, observed := some src, lastOk := n.now } else n.endpoints.lookup x
  score : ∀ x, n'.sybil.scores.lookup x = if namedId listed = some x
    then (n.sybil.reward x).scores.lookup x else n.sybil.scores.lookup x

theorem knows_learnAddr (n : ShardNet) (src : SocketAddr) (id : Option NodeId)
    (hroom : ∀ x ∈ id, ∀ e ∈ n.table.get x, e.info.addrs.length < PeerInfo.addrsCap) :
    (n.learnAddr src id).Knows (id.getD (contactId src)) src := by
  rcases id with _ | id
  · refine .inr ⟨PeerInfo.new (contactId src) src, ?_, List.mem_cons_self⟩
    exact (HashMap.lookup_insert_of ..).trans (if_pos rfl)
  · have hmem : src ∈ ((n.table.known id src).pushAddr src).addrs := by
      refine PeerInfo.mem_addrs_pushAddr_self ?_ src
      rw [RoutingTable.known]
      rcases he : n.table.get id with _ | e
      · exact Nat.lt_of_sub_eq_succ rfl
      · exact hroom id rfl e he
    refine .inr ⟨(n.table.known id src).pushAddr src, ?_, hmem⟩
    have hid : ((n.table.known id src).pushAddr src).id = id := by
      rw [PeerInfo.id_pushAddr, RoutingTable.id_known]
    exact (HashMap.lookup_insert_of ..).trans (if_pos hid.symm)

theorem credits_learnAddr (src : SocketAddr) (listed : List PeerInfo) (n : ShardNet) :
    Credits src listed n
      ((listed.foldl (fun n p ↦ ((n.insertPeer p).upsertPeer p).startPunch src p) n).learnAddr src
        (namedId listed)) := by
  obtain ⟨hendpoints, hsybil⟩ := rest_foldl_enter src listed n
  obtain ⟨hnow, htable⟩ := table_foldl_upsert src listed n
  refine ⟨addrsIn_iff.mp ?_, fun hroom ↦ knows_learnAddr _ src _ ?_, fun x ↦ ?_, fun x ↦ ?_⟩
  · have hlisted := AddrsIn.foldl_enter (addrsIn_iff.mpr fun _ _ ↦ .inl) src
      (S := fun x a ↦ n.Knows x a ∨ (∃ p ∈ listed, p.id = x ∧ a ∈ p.addrs) ∨
        ¬Crowded listed n ∧ x = creditedId src listed ∧ a = src)
      fun p hp a ha ↦ .inr (.inl ⟨p, hp, rfl, ha⟩)
    by_cases hcrowded : Crowded listed n
    · obtain ⟨x, hx, e, he, hfull⟩ := hcrowded
      rw [Option.mem_def.mp hx]
      exact hlisted.learnAddr_of_full src (htable ▸ he) hfull
    · exact hlisted.learnAddr src _ (.inr (.inr ⟨hcrowded, rfl, rfl⟩))
  · intro x hx e he
    rw [htable] at he
    exact Nat.lt_of_not_le fun hfull ↦ hroom ⟨x, hx, e, he, hfull⟩
  · rw [lookup_endpoints_learnAddr, hendpoints, hnow]
  · rw [lookup_scores_learnAddr, hsybil]

theorem Credits.of_sends {src : SocketAddr} {listed : List PeerInfo} {n'' : ShardNet}
    (h : Credits src listed n n') (hsends : Sends n' n'') : Credits src listed n n'' := by
  have hpeers : n''.peers = n'.peers := congrArg Knowledge.peers hsends.knowledge
  have hendpoints : n''.endpoints = n'.endpoints := congrArg Knowledge.endpoints hsends.knowledge
  have hsybil : n''.sybil = n'.sybil := congrArg Knowledge.sybil hsends.knowledge
  have hknows (x : NodeId) (a : SocketAddr) : n''.Knows x a ↔ n'.Knows x a := by
    rw [Knows, Knows, hsends.table, hpeers]
  refine ⟨fun x a ha ↦ h.addrs x a ((hknows x a).mp ha),
    fun hroom ↦ (hknows _ _).mpr (h.credited hroom), ?_, ?_⟩
  · rw [hendpoints]
    exact h.endpoints
  · rw [hsybil]
    exact h.score

/-- The peer only gains addresses that are listed for it, and is not credited with anything. -/
structure Spares (listed : List PeerInfo) (x : NodeId) (n n' : ShardNet) : Prop where
  addrs : ∀ a, n'.Knows x a → n.Knows x a ∨ ∃ p ∈ listed, p.id = x ∧ a ∈ p.addrs
  endpoints : n'.endpoints.lookup x = n.endpoints.lookup x
  score : n'.sybil.scores.lookup x = n.sybil.scores.lookup x

/-- The credit for the answer adds nothing: the address is on record or listed, or there is no room
for it; and a peer that is listed first was credited at the same instant before, with a score that
another reward leaves as it is. -/
structure Idle (src : SocketAddr) (listed : List PeerInfo) (n : ShardNet) : Prop where
  addr : n.Knows (creditedId src listed) src ∨
    (∃ p ∈ listed, p.id = creditedId src listed ∧ src ∈ p.addrs) ∨ Crowded listed n
  hint : ∀ x, namedId listed = some x → n.endpoints.lookup x
    = some { declared := src, observed := some src, lastOk := n.now }
  score : ∀ x, namedId listed = some x → ∃ sc, n.sybil.scores.lookup x = some sc ∧
    roundF64 (roundF64 (sc.ewma * roundF64 (8 / 10)) + roundF64 (2 / 10)) = sc.ewma ∧
    (roundF64 (7 / 10) < sc.ewma → sc.quarantine = 0)

/-- If all hints are older, only a contact without an id can be credited with nothing. -/
theorem idle_iff_of_older {src : SocketAddr} {listed : List PeerInfo}
    (holder : ∀ x hint, n.endpoints.lookup x = some hint → hint.lastOk ≠ n.now) :
    Idle src listed n ↔ listed = [] ∧ n.Knows (contactId src) src := by
  rcases listed with _ | ⟨p, listed⟩
  · constructor
    · intro h
      refine ⟨rfl, h.addr.resolve_right ?_⟩
      rintro (⟨p, hp, -⟩ | ⟨x, hx, -⟩)
      · cases hp
      · cases hx
    · intro h
      exact ⟨.inl h.2, fun x hx ↦ (by cases hx), fun x hx ↦ by cases hx⟩
  · constructor
    · intro h
      exact absurd rfl (holder p.id _ (h.hint p.id rfl))
    · rintro ⟨hnil, -⟩
      cases hnil

namespace Credits

variable {src : SocketAddr} {listed : List PeerInfo}

theorem creditedId_eq {x : NodeId} (hx : namedId listed = some x) : creditedId src listed = x := by
  rw [creditedId, hx, Option.getD_some]

theorem spares_of_ne (h : Credits src listed n n') {x : NodeId} (hx : x ≠ creditedId src listed) :
    Spares listed x n n' := by
  have hnamed : namedId listed ≠ some x := fun hnamed ↦ hx (creditedId_eq hnamed).symm
  refine ⟨fun a ha ↦ ?_, ?_, ?_⟩
  · rcases h.addrs x a ha with hold | hlisted | ⟨-, hcredited, -⟩
    · exact .inl hold
    · exact .inr hlisted
    · exact absurd hcredited hx
  · rw [h.endpoints, if_neg hnamed]
  · rw [h.score, if_neg hnamed]

theorem spares_creditedId_iff (h : Credits src listed n n') :
    Spares listed (creditedId src listed) n n' ↔ Idle src listed n := by
  constructor
  · intro hspares
    refine ⟨?_, fun x hx ↦ ?_, fun x hx ↦ Sybil.lookup_reward_eq_iff.mp ?_⟩
    · by_cases hcrowded : Crowded listed n
      · exact .inr (.inr hcrowded)
      · exact (hspares.addrs src (h.credited hcrowded)).imp_right .inl
    · have hsame := hspares.endpoints
      rw [creditedId_eq hx, h.endpoints, if_pos hx] at hsame
      exact hsame.symm
    · have hsame := hspares.score
      rw [creditedId_eq hx, h.score, if_pos hx] at hsame
      exact hsame
  · intro hidle
    refine ⟨fun a ha ↦ ?_, ?_, ?_⟩
    · rcases h.addrs _ a ha with hold | hlisted | ⟨hroom, -, rfl⟩
      · exact .inl hold
      · exact .inr hlisted
      · exact hidle.addr.imp_right fun h ↦ h.resolve_right hroom
    · rw [h.endpoints]
      split_ifs with hx
      · exact (hidle.hint _ hx).symm
      · rfl
    · rw [h.score]
      split_ifs with hx
      · exact Sybil.lookup_reward_eq_iff.mpr (hidle.score _ hx)
      · rfl

end Credits

end ShardNet

theorem ShardCtx.credits_onFindNodeResp {c : ShardCtx} {src : SocketAddr} {h : Header}
    {pkt : Bytes} {resp : Proto.FindNodeResp}
    (hdec : decodeBody Crates.findNodeResp pkt = some resp) :
    ShardNet.Credits src (peersFromProto resp.peers) c.toShardNet
      (c.onFindNodeResp src h pkt).toShardNet := by
  simp only [onFindNodeResp, hdec]
  generalize peersFromProto resp.peers = listed
  exact (ShardNet.credits_learnAddr src listed c.toShardNet).of_sends
    (posts_completeCloser (c.withNet _) h.correlation src listed).sends

namespace ShardCtx

/-- A lookup waits for an answer of the peer, and its request was sent to `src`. -/
def AskedAt (c : ShardCtx) (src : SocketAddr) (x : NodeId) : Prop :=
  ∃ id p, c.lookups.lookup id = some p ∧ ∃ f ∈ p.lookup.inFlight, f.id = x ∧
    ∃ call ∈ c.calls, call.dest = src ∧ ∃ h ∈ Header.decode call.app,
      h.correlation = f.correlation ∧ (h.ty = .findNodeReq ∨ h.ty = .findValueReq)

/-- **Only a peer that was asked at the address of the sender is credited**, exactly if this holds
of the id that the shard makes out, or the credit for it adds nothing. If every hint on record is
older than the answer, it adds nothing only if nobody is listed and the contact was known. -/
theorem spares_unasked_iff (c : ShardCtx) (src : SocketAddr) (h : Header) (pkt : Bytes)
    {resp : Proto.FindNodeResp} (hdec : decodeBody Crates.findNodeResp pkt = some resp) :
    let listed := peersFromProto resp.peers
    let n' := (c.onFindNodeResp src h pkt).toShardNet
    ((∀ x, ¬c.AskedAt src x → ShardNet.Spares listed x c.toShardNet n') ↔
        c.AskedAt src (ShardNet.creditedId src listed) ∨
          ShardNet.Idle src listed c.toShardNet) ∧
      ((∀ x hint, c.endpoints.lookup x = some hint → hint.lastOk ≠ c.now) →
        ((∀ x, ¬c.AskedAt src x → ShardNet.Spares listed x c.toShardNet n') ↔
          c.AskedAt src (ShardNet.creditedId src listed) ∨
            listed = [] ∧ c.Knows (contactId src) src)) := by
  intro listed n'
  have hcredits : ShardNet.Credits src listed c.toShardNet n' := credits_onFindNodeResp hdec
  have hiff : (∀ x, ¬c.AskedAt src x → ShardNet.Spares listed x c.toShardNet n') ↔
      c.AskedAt src (ShardNet.creditedId src listed) ∨ ShardNet.Idle src listed c.toShardNet := by
    rw [← hcredits.spares_creditedId_iff]
    constructor
    · intro hspares
      exact or_iff_not_imp_left.mpr (hspares _)
    · intro hcredited x hx
      by_cases heq : x = ShardNet.creditedId src listed
      · rw [heq] at hx ⊢
        exact hcredited.resolve_left hx
      · exact hcredits.spares_of_ne heq
  refine ⟨hiff, fun holder ↦ ?_⟩
  rw [hiff, ShardNet.idle_iff_of_older holder]

end ShardCtx

end

/-! ## A peer that is only listed -/

section

open Sample

attribute [local instance] wireCrates

private def listerAddr : SocketAddr := .ofV4 10 0 0 7 9000

private def listerId : NodeId := ⟨Bytes32.fill 7⟩

/-- A shard that has asked its only peer for a key. -/
private def listerRun : ShardRun where
  start := shardStart ⟨true, false, false⟩
  events := [⟨noon, .command (.injectPeer (.new listerId listerAddr))⟩,
    ⟨noon, .command (.get emptyKey)⟩]

private theorem askedAt_lister : listerRun.final.ctx.AskedAt listerAddr listerId := by
  have hasked : ∃ p ∈ listerRun.final.ctx.lookups.lookup 2, ∃ f ∈ p.lookup.inFlight,
      f.id = listerId ∧ ∃ call ∈ listerRun.final.ctx.calls, call.dest = listerAddr ∧
        ∃ h ∈ Header.decode call.app, h.correlation = f.correlation ∧
          (h.ty = .findNodeReq ∨ h.ty = .findValueReq) := by
    decide +kernel
  obtain ⟨p, hp, hf⟩ := hasked
  exact ⟨2, p, hp, hf⟩

private def listerHeader : Header := Header.response .findNodeResp .coordination 1

/-- The answer that lists the peers with these ids, each at an address of its own. -/
private def listerBody (ids : List UInt8) : Proto.FindNodeResp :=
  ⟨ids.map fun id ↦ ⟨List.replicate 32 id, [⟨multiaddr (.ofV4 10 0 0 id 9000)⟩], 0, []⟩⟩

private def listerAnswer (ids : List UInt8) : Bytes :=
  listerHeader.bytes ++ Proto.findNodeRespWire.encode (listerBody ids)

/-- The peer that was asked lists itself and then another one, which is not credited. -/
theorem ShardCtx.spares_unasked_second :
    ShardNet.Spares (peersFromProto (listerBody [7, 8]).peers) ⟨Bytes32.fill 8⟩
      listerRun.final.ctx.toShardNet
      (listerRun.final.ctx.onFindNodeResp listerAddr listerHeader
        (listerAnswer [7, 8])).toShardNet := by
  have hcredited : ShardNet.creditedId listerAddr (peersFromProto (listerBody [7, 8]).peers)
      = listerId := by
    decide +kernel
  refine (listerRun.final.ctx.spares_unasked_iff listerAddr listerHeader (listerAnswer [7, 8])
    (by decide +kernel)).1.mpr (.inl ?_) _ ?_
  · rw [hcredited]
    exact askedAt_lister
  · rintro ⟨id, p, hp, f, hf, hid, -⟩
    have hall : ∀ p ∈ listerRun.final.ctx.lookups.values, ∀ f ∈ p.lookup.inFlight,
        f.id = listerId := by
      decide +kernel
    have hlister := hall p (HashMap.mem_values_iff.mpr ⟨id, hp⟩) f hf
    exact absurd (hid.symm.trans hlister) (by decide)

/-- The peer that was asked lists another one, which is credited in its place. -/
theorem ShardCtx.spares_unasked_fails :
    ¬∀ (_ : Crates) (run : ShardRun) (src : SocketAddr) (h : Header) (pkt : Bytes)
      (resp : Proto.FindNodeResp) (asked : NodeId),
      decodeBody Crates.findNodeResp pkt = some resp → run.final.ctx.AskedAt src asked →
      ∀ x, x ≠ asked → ShardNet.Spares (peersFromProto resp.peers) x run.final.ctx.toShardNet
        (run.final.ctx.onFindNodeResp src h pkt).toShardNet := by
  intro hall
  have hspares := hall wireCrates listerRun listerAddr listerHeader (listerAnswer [8])
    (listerBody [8]) listerId (by decide +kernel) askedAt_lister ⟨Bytes32.fill 8⟩ (by decide)
  have hhint := hspares.endpoints
  revert hhint
  decide +kernel

end

end Molia
