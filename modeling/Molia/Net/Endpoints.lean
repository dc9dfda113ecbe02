import Molia.Net.Sessions

/-!
# When an endpoint moves

A session sends to the address that its peer was last heard from. A packet is no proof of where it
comes from until a tunnel has accepted it, so an endpoint should follow a packet only when the
tunnel of that very session has accepted it (`MovesOnAccept`).

A packet reaches a tunnel in one of three ways. The drain of a tunnel moves nothing. The trial of
all sessions waits for the verdict and moves the session that accepts (`Tried`). A packet that
carries the index of a session goes straight to it, and there the endpoint is written whatever the
tunnel says: the index is all that a stranger needs.
-/

namespace Molia

section

variable [Crates] {now : ℕ} {src : SocketAddr} {datagram : Bytes} {w w' : WgEngine} {r : Decap}

theorem driveDecap_ne_cookie (t : Crates.Tunn) (now : ℕ) (ip : IpAddr) (datagram c : Bytes) :
    (driveDecap t now ip datagram).1 ≠ .cookie c := by
  rw [driveDecap]
  split <;> exact Decap.noConfusion

namespace WgEngine

/-- The endpoint on record at an index, if there is a session. -/
def endpointAt (w : WgEngine) (i : UInt32) : Option (Option SocketAddr) :=
  (w.sessions.lookup i).map Session.endpoint

theorem endpointAt_setSession (w : WgEngine) (idx i : UInt32) (f : Session → Session) :
    (w.setSession idx f).endpointAt i
      = (w.sessions.lookup i).map fun s ↦ if i = idx then (f s).endpoint else s.endpoint := by
  rw [endpointAt, lookup_setSession, Option.map_map]
  congr 1
  funext s
  exact apply_ite Session.endpoint _ _ _

theorem endpointAt_setSession_of_ne {idx i : UInt32} (hi : i ≠ idx) (w : WgEngine)
    (f : Session → Session) : (w.setSession idx f).endpointAt i = w.endpointAt i := by
  simp only [endpointAt_setSession, hi, if_false]
  rfl

theorem endpointAt_setSession_tunn (w : WgEngine) (idx i : UInt32) (t : Crates.Tunn) :
    (w.setSession idx fun s ↦ { s with tunn := t }).endpointAt i = w.endpointAt i := by
  simp only [endpointAt_setSession, ite_self]
  rfl

/-! ## What a packet may move -/

/-- What a packet from `src` may do to the endpoints when it is found to be `r`. -/
structure MovesOnAccept (now : ℕ) (src : SocketAddr) (datagram : Bytes) (w : WgEngine) (r : Decap)
    (w' : WgEngine) : Prop where
  rejected : (r = .drop ∨ ∃ c, r = .cookie c) → ∀ i, w'.endpointAt i = w.endpointAt i
  accepted : ∀ i, w'.endpointAt i ≠ w.endpointAt i → w'.endpointAt i = some (some src) ∧
    ∃ sess, w.sessions.lookup i = some sess ∧
      (driveDecap sess.tunn now src.ip datagram).1 = r ∧ r ≠ .drop
  alone : ∀ i j, w'.endpointAt i ≠ w.endpointAt i → w'.endpointAt j ≠ w.endpointAt j → i = j

namespace MovesOnAccept

theorem of_unmoved (h : ∀ i, w'.endpointAt i = w.endpointAt i) :
    MovesOnAccept now src datagram w r w' where
  rejected _ := h
  accepted i hi := absurd (h i) hi
  alone i _ hi := absurd (h i) hi

theorem of_accepted {idx : UInt32} {sess : Session} (hsess : w.sessions.lookup idx = some sess)
    (hr : (driveDecap sess.tunn now src.ip datagram).1 = r) (hdrop : r ≠ .drop)
    (hidx : w'.endpointAt idx ≠ w.endpointAt idx → w'.endpointAt idx = some (some src))
    (hothers : ∀ i, i ≠ idx → w'.endpointAt i = w.endpointAt i) :
    MovesOnAccept now src datagram w r w' := by
  have hmoved {i : UInt32} (hi : w'.endpointAt i ≠ w.endpointAt i) : i = idx :=
    by_contra fun hne ↦ hi (hothers i hne)
  refine ⟨?_, fun i hi ↦ ?_, fun i j hi hj ↦ (hmoved hi).trans (hmoved hj).symm⟩
  · rintro (hr' | ⟨c, rfl⟩)
    · exact absurd hr' hdrop
    · exact absurd hr (driveDecap_ne_cookie _ _ _ _ c)
  · obtain rfl := hmoved hi
    exact ⟨hidx hi, sess, hsess, hr, hdrop⟩

end MovesOnAccept

/-! ## The trial of the sessions -/

/-- How a trial of the sessions on a list can end: they all drop the packet, or the first that does
not says what it is. -/
inductive Tried (now : ℕ) (src : SocketAddr) (datagram : Bytes) (w : WgEngine)
    (keys : List UInt32) : Decap × WgEngine → Prop
  | dropped {w' : WgEngine} (hends : ∀ i, w'.endpointAt i = w.endpointAt i) :
      Tried now src datagram w keys (.drop, w')
  | accepted {idx : UInt32} {sess : Session} {r : Decap} {w' : WgEngine} (hmem : idx ∈ keys)
      (hsess : w.sessions.lookup idx = some sess)
      (hr : (driveDecap sess.tunn now src.ip datagram).1 = r) (hdrop : r ≠ .drop)
      (hidx : w'.endpointAt idx ≠ w.endpointAt idx → w'.endpointAt idx = some (some src))
      (hothers : ∀ i, i ≠ idx → w'.endpointAt i = w.endpointAt i) :
      Tried now src datagram w keys (r, w')

namespace Tried

variable {keys : List UInt32} {p : Decap × WgEngine}

/-- A session that has dropped the packet has a new tunnel at most, and is not asked again. -/
theorem cons {idx : UInt32} {w₁ : WgEngine} (h : Tried now src datagram w₁ keys p)
    (hidx : idx ∉ keys) (hends : ∀ i, w₁.endpointAt i = w.endpointAt i)
    (hothers : ∀ i, i ≠ idx → w₁.sessions.lookup i = w.sessions.lookup i) :
    Tried now src datagram w (idx :: keys) p := by
  cases h with
  | dropped hdropped => exact .dropped fun i ↦ (hdropped i).trans (hends i)
  | @accepted idx' _ _ _ hmem hsess hr hdrop hmoved hrest =>
    have hne : idx' ≠ idx := fun heq ↦ hidx (heq ▸ hmem)
    refine .accepted (List.mem_cons_of_mem _ hmem) (hothers idx' hne ▸ hsess) hr hdrop ?_ ?_
    · rw [← hends idx']
      exact hmoved
    · exact fun i hi ↦ (hrest i hi).trans (hends i)

theorem movesOnAccept (h : Tried now src datagram w keys p) :
    MovesOnAccept now src datagram w p.1 p.2 := by
  cases h with
  | dropped hdropped => exact .of_unmoved hdropped
  | accepted _ hsess hr hdrop hidx hothers => exact .of_accepted hsess hr hdrop hidx hothers

end Tried

theorem tried_offer (accepts : Session → Bool) (move : Bool) {keys : List UInt32}
    (hkeys : keys.Nodup) (w : WgEngine) :
    Tried now src datagram w keys (offer now src datagram accepts move keys w) := by
  induction keys generalizing w with
  | nil => exact .dropped fun _ ↦ rfl
  | cons idx rest ih =>
    obtain ⟨hidx, hrest⟩ := List.nodup_cons.mp hkeys
    have hpass : Tried now src datagram w (idx :: rest)
        (offer now src datagram accepts move rest w) :=
      (ih hrest w).cons hidx (fun _ ↦ rfl) fun _ _ ↦ rfl
    rw [offer]
    rcases hsess : w.sessions.lookup idx with _ | sess
    · exact hpass
    dsimp only
    split_ifs with haccepts hdrop hmove
    · -- dropped, but the tunnel of the session may have changed
      refine (ih hrest _).cons hidx (w.endpointAt_setSession_tunn idx · _) fun i hi ↦ ?_
      simp [lookup_setSession, hi]
    · refine .accepted List.mem_cons_self hsess rfl hdrop (fun _ ↦ ?_) fun i hi ↦ ?_
      · simp [endpointAt_setSession, lookup_setSession, hsess]
      · rw [endpointAt_setSession_of_ne hi, endpointAt_setSession_of_ne hi]
    · -- the trial that does not move endpoints
      refine .accepted List.mem_cons_self hsess rfl hdrop (fun hmoved ↦ ?_) fun i hi ↦ ?_
      · exact absurd (w.endpointAt_setSession_tunn idx idx _) hmoved
      · exact endpointAt_setSession_of_ne hi _ _
    · exact hpass

/-! ## The session that a packet names -/

/-- The session that a packet goes straight to. -/
def direct (w : WgEngine) (datagram : Bytes) : Option Session :=
  (parseWgHeader datagram).bind fun hdr ↦
    if hdr.ty = wgTypeData ∨ hdr.ty = wgTypeResponse ∨ hdr.ty = wgTypeCookie then
      w.sessions.lookup hdr.receiverIndex
    else none

theorem movesOnAccept_decapsulate_of_none (hdirect : w.direct datagram = none) (now : ℕ)
    (src : SocketAddr) :
    MovesOnAccept now src datagram w (w.decapsulate now src datagram).1
      (w.decapsulate now src datagram).2 := by
  rw [decapsulate]
  split_ifs with hnil
  · subst hnil
    exact (tried_offer _ _ w.sessions.keys_nodup w).movesOnAccept
  rcases hhdr : parseWgHeader datagram with _ | hdr
  · exact .of_unmoved fun _ ↦ rfl
  rw [direct, hhdr, Option.bind_some] at hdirect
  dsimp only
  rw [hdirect]
  split_ifs
  · exact .of_unmoved fun _ ↦ rfl
  · exact (tried_offer _ _ w.sessions.keys_nodup w).movesOnAccept

/-- On the direct way the endpoint is written before the verdict. -/
theorem decapsulate_of_direct {sess : Session} (hdirect : w.direct datagram = some sess) (now : ℕ)
    (src : SocketAddr) :
    ∃ idx, w.sessions.lookup idx = some sess ∧
      (w.decapsulate now src datagram).1 = (driveDecap sess.tunn now src.ip datagram).1 ∧
      ∀ i, (w.decapsulate now src datagram).2.endpointAt i
        = if i = idx then some (some src) else w.endpointAt i := by
  rw [direct, Option.bind_eq_some_iff] at hdirect
  obtain ⟨hdr, hhdr, hdirect⟩ := hdirect
  have hnil : datagram ≠ [] := by
    rintro rfl
    cases hhdr
  have hty : hdr.ty = wgTypeData ∨ hdr.ty = wgTypeResponse ∨ hdr.ty = wgTypeCookie := by
    by_contra hno
    rw [if_neg hno] at hdirect
    cases hdirect
  rw [if_pos hty] at hdirect
  -- so the limit on handshakes does not apply
  have hinit : hdr.ty ≠ wgTypeInitiation := by
    rcases hty with hty | hty | hty <;> rw [hty] <;> decide
  rw [decapsulate, if_neg hnil, hhdr]
  refine ⟨hdr.receiverIndex, hdirect, ?_⟩
  simp only [hinit, false_and, if_false, if_pos hty, hdirect]
  refine ⟨trivial, fun i ↦ ?_⟩
  split_ifs with hi
  · simp [endpointAt_setSession, hi, hdirect]
  · exact endpointAt_setSession_of_ne hi _ _

/-- A packet moves an endpoint only when its tunnel accepts it, exactly if no packet that its tunnel
drops names a session that is somewhere else. -/
theorem endpoints_decapsulate_iff (w : WgEngine) (now : ℕ) (src : SocketAddr) (datagram : Bytes) :
    MovesOnAccept now src datagram w (w.decapsulate now src datagram).1
        (w.decapsulate now src datagram).2 ↔
      ∀ sess, w.direct datagram = some sess →
        (driveDecap sess.tunn now src.ip datagram).1 = .drop → sess.endpoint = some src := by
  rcases hdirect : w.direct datagram with _ | sess
  · have hnone := movesOnAccept_decapsulate_of_none hdirect now src
    exact iff_of_true hnone fun _ hsess ↦ by cases hsess
  obtain ⟨idx, hsess, hr, hends⟩ := decapsulate_of_direct hdirect now src
  have hidx : w.endpointAt idx = some sess.endpoint := by rw [endpointAt, hsess, Option.map_some]
  constructor
  · rintro h sess' ⟨⟩ hdrop
    have hsame := h.rejected (.inl (hr.trans hdrop)) idx
    rw [hends, if_pos rfl, hidx] at hsame
    exact (Option.some.inj hsame).symm
  · intro h
    by_cases hdrop : (driveDecap sess.tunn now src.ip datagram).1 = .drop
    · refine .of_unmoved fun i ↦ ?_
      rw [hends]
      split_ifs with hi
      · rw [hi, hidx, h sess rfl hdrop]
      · rfl
    · refine .of_accepted hsess hr.symm (hr ▸ hdrop) (fun _ ↦ ?_) fun i hi ↦ ?_
      · rw [hends, if_pos rfl]
      · rw [hends, if_neg hi]

end WgEngine

end

section

namespace WgEngine

/-- The tunnels of this instance reject every packet. -/
@[reducible] private def rejecting : Crates :=
  { Sample.crates with tunnDecapsulate := fun _ _ _ _ ↦ (.err, ()) }

attribute [local instance] rejecting

/-- A forged data packet with the index of a session takes its endpoint away. -/
theorem endpoints_decapsulate_fails :
    ¬∀ (_ : Crates) (w : WgEngine) (now : ℕ) (src : SocketAddr) (datagram : Bytes),
      MovesOnAccept now src datagram w (w.decapsulate now src datagram).1
        (w.decapsulate now src datagram).2 := by
  intro h
  have hmoves := h rejecting
    ((WgEngine.new (Bytes32.fill 1) 0).addPeer (Bytes32.fill 2) none (some (.ofV4 10 0 0 2 9000)))
    0 (.ofV4 10 0 0 9 9000) (u32ToLe wgTypeData ++ u32ToLe 1)
  exact absurd (hmoves.rejected (.inl (by decide)) 1) (by decide)

end WgEngine

end

end Molia
