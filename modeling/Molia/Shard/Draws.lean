import Molia.General.Tickets
import Molia.Shard.Replies

/-!
# Calls of the counter

All that a shard asks for is numbered by one counter: the requests of lookups, the probes that blind
them, stores, announcements, pings, punches and relay frames. For the functions on the network side,
this module lists their calls of `next_corr` in the order in which they make them, each with the
lookup request that the id is for, if there is one. The lists follow the text of the functions, and
each is followed by a lemma that ties it to the counter.

A message that is passed to `send_app` takes an id of its own if it goes through a relay. Where a
function makes only a few calls, all of them for something else than a lookup request, the counter
itself says how many they were (`drawn`); a loop lists the calls of each turn.
-/

namespace Molia

open Tickets

/-- One call of `nextCorr`, with the request of a lookup that the id is for. -/
abbrev Draw := Option InFlight

/-- The draws between two states of the counter and the requests on file. -/
abbrev Books : List Draw → UInt32 × List InFlight → UInt32 × List InFlight → Prop :=
  Tickets.Books ShardNet.nextId InFlight.correlation

/-- One call for each, none of them for a request of a lookup. -/
def oneEach {A : Type} (l : List A) : List Draw := List.replicate l.length none

variable [Crates]

open Crates

attribute [local irreducible] message

namespace ShardNet

variable {n n' : ShardNet} (l : List InFlight)

/-- The calls between two states, none of them for a request of a lookup, if there are fewer of them
than ids. -/
def drawn (n n' : ShardNet) : List Draw :=
  List.replicate (corrAdvance n.nextCorrId n'.nextCorrId) none

theorem books_drawn {a b : ℕ} (h : Allocates a b n n') (hb : b < 2 ^ 32 - 1) :
    Books (n.drawn n') (n.nextCorrId, l) (n'.nextCorrId, l) := by
  obtain ⟨k, -, hkb, hk⟩ := h
  rw [drawn, hk, corrAdvance_iterate, Nat.mod_eq_of_lt (by omega)]
  exact .replicate _ l k

theorem books_of_eq (h : n'.nextCorrId = n.nextCorrId) :
    Books [] (n.nextCorrId, l) (n'.nextCorrId, l) := by
  rw [h]
  exact .refl _

theorem books_nextCorr (n : ShardNet) :
    Books [none] (n.nextCorrId, l) (n.nextCorr.2.nextCorrId, l) := .draw _ l

/-! ## What takes no id -/

theorem nextCorrId_sendControl (n : ShardNet) (dest : SocketAddr) (pkt : Option Bytes) :
    (n.sendControl dest pkt).nextCorrId = n.nextCorrId := by
  rcases pkt with _ | p
  · rfl
  · rfl

theorem nextCorrId_learnAddr (n : ShardNet) (src : SocketAddr) (id : Option NodeId) :
    (n.learnAddr src id).nextCorrId = n.nextCorrId := by
  rcases id with _ | id
  · rfl
  · rfl

theorem nextCorrId_notePeerKeys (n : ShardNet) (src : SocketAddr) (x25519 ed25519 sig : Bytes) :
    (n.notePeerKeys src x25519 ed25519 sig).2.nextCorrId = n.nextCorrId := by
  rw [notePeerKeys]
  split
  · rfl
  · split_ifs
    · rfl
    · rfl
    · rfl

theorem nextCorrId_onPing (n : ShardNet) (src : SocketAddr) (h : Header) (pkt : Bytes) :
    (n.onPing src h pkt).nextCorrId = n.nextCorrId := by
  rw [onPing]
  dsimp only
  rw [nextCorrId_sendControl, nextCorrId_learnAddr]
  split
  · exact nextCorrId_notePeerKeys n src _ _ _
  · rfl

theorem nextCorrId_onPong (n : ShardNet) (src : SocketAddr) (pkt : Bytes) :
    (n.onPong src pkt).nextCorrId = n.nextCorrId := by
  rw [onPong]
  split
  · exact nextCorrId_learnAddr n src none
  · rename_i p _
    have hgreet : ∀ (n' n'' : ShardNet) (id : Option NodeId), n'.nextCorrId = n.nextCorrId →
        n'.notePeerKeys src p.x25519Pubkey p.ed25519Pubkey p.bindingSig = (id, n'') →
        (n''.learnAddr src id).nextCorrId = n.nextCorrId := by
      intro n' n'' id hn' heq
      have hnote := nextCorrId_notePeerKeys n' src p.x25519Pubkey p.ed25519Pubkey p.bindingSig
      rw [heq] at hnote
      exact (nextCorrId_learnAddr n'' src id).trans (hnote.trans hn')
    rcases p.observed.bind fun a ↦ parseMultiaddr a.multiaddr with _ | obs
    · dsimp only
      split
      · rename_i id n' heq
        exact hgreet n n' (some id) rfl heq
      · rename_i n' heq
        exact hgreet n n' none rfl heq
    · dsimp only
      split
      · rename_i id n' heq
        exact hgreet { n with mapped := some obs } n' (some id) rfl heq
      · rename_i n' heq
        exact hgreet { n with mapped := some obs } n' none rfl heq

theorem nextCorrId_flushLoop (dest : SocketAddr) (pk : Bytes32) (queue : List Queued)
    (n : ShardNet) : (flushLoop dest pk queue n).1.nextCorrId = n.nextCorrId := by
  induction queue generalizing n with
  | nil => rfl
  | cons q queue ih =>
    have henc : (n.encapsulateTo dest pk (wrapRpc q.app)).2.nextCorrId = n.nextCorrId := rfl
    rw [flushLoop]
    generalize n.encapsulateTo dest pk (wrapRpc q.app) = res at henc ⊢
    obtain ⟨_ | pkt, n'⟩ := res
    · exact henc
    · dsimp only
      split_ifs
      · exact henc
      · exact (ih _).trans henc

theorem nextCorrId_flushPendingWg (n : ShardNet) (dest : SocketAddr) :
    (n.flushPendingWg dest).nextCorrId = n.nextCorrId := by
  rw [flushPendingWg]
  split
  · rfl
  · rename_i queue _
    dsimp only
    generalize hn : { n with pendingWg := n.pendingWg.erase dest } = n'
    have hcounter : n'.nextCorrId = n.nextCorrId := by rw [← hn]
    split
    · rw [← hcounter]
      exact List.foldlRecOn (motive := fun n'' : ShardNet ↦ n''.nextCorrId = n'.nextCorrId) queue _
        rfl fun _ h _ _ ↦ h
    · rename_i pk _
      have hloop := (nextCorrId_flushLoop dest pk queue n').trans hcounter
      generalize flushLoop dest pk queue n' = res at hloop ⊢
      obtain ⟨n'', _ | ⟨q, leftover⟩⟩ := res
      · exact hloop
      · exact hloop

/-! ## Single messages -/

theorem allocates_of_eq (h : n'.nextCorrId = n.nextCorrId) : Allocates 0 1 n n' :=
  (Allocates.of_eq h).mono (Nat.le_refl 0) (Nat.zero_le 1)

theorem allocates_onFindNode (n : ShardNet) (src : SocketAddr) (h : Header) (pkt : Bytes) :
    Allocates 0 1 n (n.onFindNode src h pkt) := by
  rw [onFindNode]
  split
  · exact allocates_of_eq rfl
  · exact Allocates.sendMessage _ _ _ _

theorem allocates_onFindValue (n : ShardNet) (store : Store) (src : SocketAddr) (h : Header)
    (pkt : Bytes) : Allocates 0 1 n (n.onFindValue store src h pkt) := by
  rw [onFindValue]
  split
  · exact allocates_of_eq rfl
  · split
    · exact allocates_of_eq rfl
    · exact Allocates.sendMessage _ _ _ _

theorem allocates_onUnsupported (n : ShardNet) (src : SocketAddr) (h : Header)
    (authenticated : Bool) : Allocates 0 1 n (n.onUnsupported src h authenticated) := by
  rw [onUnsupported]
  split_ifs
  · exact Allocates.sendMessage _ _ _ _
  · exact allocates_of_eq rfl

theorem allocates_onRelay (n : ShardNet) (src : SocketAddr) (pkt : Bytes) :
    Allocates 0 1 n (n.onRelay src pkt).1 := by
  rw [onRelay]
  split
  · exact allocates_of_eq rfl
  · split
    · split_ifs
      · exact allocates_of_eq rfl
      · dsimp only
        split_ifs
        · exact allocates_of_eq rfl
        · split
          · exact allocates_of_eq rfl
          · have hrelay : ∀ relay, Allocates 0 1 n { n with relay }.nextCorr.2 := fun relay ↦
              ((Allocates.of_eq rfl).trans (Allocates.nextCorr { n with relay })).mono
                (Nat.zero_le _) (Nat.le_refl 1)
            exact (hrelay _).trans (.of_eq (nextCorrId_sendControl _ _ _))
    · exact allocates_of_eq rfl

theorem allocates_sendToAll (n : ShardNet) (peers : List PeerInfo) (pkt : UInt32 → Option Bytes) :
    Allocates 0 (peers.length * 2) n (n.sendToAll peers pkt) := by
  refine Allocates.foldl (fun n p ↦ ?_) peers n
  split
  · exact (Allocates.of_eq rfl).mono (Nat.le_refl 0) (Nat.zero_le 2)
  · exact ((Allocates.nextCorr n).trans (Allocates.sendMessage _ _ _ _)).mono
      (Nat.zero_le _) (Nat.le_refl 2)

theorem allocates_sendToClosest (n : ShardNet) (t : RoutingTable) (key : Key)
    (pkt : UInt32 → Option Bytes) :
    Allocates 0 (kDefault * 2) n (n.sendToAll (t.closest key kDefault) pkt) := by
  refine (allocates_sendToAll n _ pkt).mono (Nat.le_refl 0) (Nat.mul_le_mul_right 2 ?_)
  exact List.length_take_le _ _

/-! ## Pings and punches -/

theorem books_sendPing (n : ShardNet) (dest : SocketAddr) :
    Books [none] (n.nextCorrId, l) ((n.sendPing dest).nextCorrId, l) :=
  (books_nextCorr l n).trans (books_of_eq l (nextCorrId_sendControl _ _ _))

theorem books_pings (n : ShardNet) (dests : List SocketAddr) :
    Books (oneEach dests) (n.nextCorrId, l) ((dests.foldl sendPing n).nextCorrId, l) := by
  induction dests generalizing n with
  | nil => exact .refl _
  | cons dest dests ih => exact (books_sendPing l n dest).trans (ih (n.sendPing dest))

theorem nextCorrId_onKeepalive (n : ShardNet) :
    n.onKeepalive.nextCorrId = ((n.contacts.map Prod.snd).foldl sendPing n).nextCorrId := by
  rw [onKeepalive]
  generalize (n.contacts.map Prod.snd).foldl sendPing n = n'
  dsimp only
  split_ifs
  · rfl
  · exact List.foldlRecOn (motive := fun n'' : ShardNet ↦ n''.nextCorrId = n'.nextCorrId) _ _ rfl
      fun _ h _ _ ↦ h

theorem books_sendPunchMsg (n : ShardNet) (hop : SocketAddr) (target : NodeId)
    (cands : List SocketAddr) :
    Books [none] (n.nextCorrId, l) ((n.sendPunchMsg hop target cands).nextCorrId, l) :=
  (books_nextCorr l n).trans (books_of_eq l (nextCorrId_sendControl _ _ _))

theorem punches_sendPunchMsg (n : ShardNet) (hop : SocketAddr) (target : NodeId)
    (cands : List SocketAddr) : (n.sendPunchMsg hop target cands).punches = n.punches := by
  rw [sendPunchMsg]
  dsimp only
  generalize message Crates.punch _ _ = pkt
  rcases pkt with _ | p
  · rfl
  · rfl

theorem books_burstPunch {id : NodeId} {p : PunchAttempt} (h : n.punches.lookup id = some p) :
    Books (oneEach p.candidates) (n.nextCorrId, l) ((n.burstPunch id).nextCorrId, l) := by
  rw [burstPunch, h]
  exact books_pings l n p.candidates

theorem books_punch {id : NodeId} {p : PunchAttempt} (h : n.punches.lookup id = some p)
    (hop : SocketAddr) (target : NodeId) (cands : List SocketAddr) :
    Books (none :: oneEach p.candidates) (n.nextCorrId, l)
      (((n.sendPunchMsg hop target cands).burstPunch id).nextCorrId, l) := by
  rw [← punches_sendPunchMsg n hop target cands] at h
  exact (books_sendPunchMsg l n hop target cands).trans (books_burstPunch l h)

/-- The calls of `startPunch`: a message to the rendezvous, and a ping to every candidate. -/
def startPunchDraws (n : ShardNet) (peer : PeerInfo) : List Draw :=
  if peer.id = n.identity.nodeId then []
  else if n.isFresh peer.id then []
  else if (n.punches.lookup peer.id).isSome ∨ (n.viaRelay.lookup peer.id).isSome then []
  else if peer.addrs = [] then []
  else none :: oneEach peer.addrs

theorem books_startPunch (src : SocketAddr) (n : ShardNet) (peer : PeerInfo) :
    Books (n.startPunchDraws peer) (n.nextCorrId, l) ((n.startPunch src peer).nextCorrId, l) := by
  rw [startPunchDraws, startPunch]
  split_ifs
  · exact .refl _
  · exact .refl _
  · exact .refl _
  · exact .refl _
  · dsimp only
    generalize hn : { n with punches := n.punches.insert peer.id _ } = n₁
    have hattempt : n₁.punches.lookup peer.id
        = some (newAttempt n.now peer.id peer.addrs src) := by
      rw [← hn]
      exact AList.lookup_insert _
    have hcounter : n₁.nextCorrId = n.nextCorrId := by rw [← hn]
    rw [← hcounter]
    exact books_punch l hattempt src peer.id n₁.ourCandidates

/-- The calls of `answerPunch`; a message only goes out if none has before. -/
def answerPunchDraws (n : ShardNet) (sender : NodeId) (cands : List SocketAddr) : List Draw :=
  (if ((n.punches.lookup sender).map PunchAttempt.replied).getD false then [] else [none])
    ++ oneEach cands

theorem books_answerPunch (n : ShardNet) (src : SocketAddr) (sender : NodeId)
    (cands : List SocketAddr) (first : SocketAddr) :
    Books (n.answerPunchDraws sender cands) (n.nextCorrId, l)
      ((n.answerPunch src sender cands first).nextCorrId, l) := by
  rw [answerPunch, answerPunchDraws]
  generalize hn₁ : n.insertPeer _ = n₁
  have hpunches : n₁.punches = n.punches := by
    rw [← hn₁]
    rfl
  have hcounter : n₁.nextCorrId = n.nextCorrId := by
    rw [← hn₁]
    rfl
  rw [← hpunches, ← hcounter]
  generalize hattempt : (n₁.punches.lookup sender).getD _ = attempt
  have hreplied : ((n₁.punches.lookup sender).map PunchAttempt.replied).getD false
      = attempt.replied := by
    rw [← hattempt]
    rcases n₁.punches.lookup sender with _ | p
    · rfl
    · rfl
  rw [hreplied]
  generalize hn₂ : { n₁ with punches := _ } = n₂
  have hlookup : n₂.punches.lookup sender
      = some { attempt with candidates := cands, rendezvous := src, replied := true } := by
    rw [← hn₂]
    exact AList.lookup_insert _
  have hcounter₂ : n₂.nextCorrId = n₁.nextCorrId := by rw [← hn₂]
  rw [← hcounter₂]
  split_ifs
  · exact books_burstPunch l hlookup
  · exact books_punch l hlookup src sender n₂.ourCandidates

def onPunchDraws (n : ShardNet) (src : SocketAddr) (pkt : Bytes) : List Draw :=
  match decodeBody Crates.punch pkt with
  | none => []
  | some p =>
    match NodeId.fromBytes p.targetId, NodeId.fromBytes p.fromId with
    | some target, some sender =>
      if target = n.identity.nodeId then
        match p.candidates.filterMap fun a ↦ parseMultiaddr a.multiaddr with
        | [] => []
        | first :: rest => n.answerPunchDraws sender (first :: rest)
      else n.drawn (n.onPunch src pkt)
    | _, _ => []

theorem books_onPunch (n : ShardNet) (src : SocketAddr) (pkt : Bytes) :
    Books (n.onPunchDraws src pkt) (n.nextCorrId, l) ((n.onPunch src pkt).nextCorrId, l) := by
  rw [onPunchDraws]
  rcases hdec : decodeBody Crates.punch pkt with _ | p
  · simp only [onPunch, hdec]
    exact .refl _
  dsimp only
  rcases htarget : NodeId.fromBytes p.targetId with _ | target
  · simp only [onPunch, hdec, htarget]
    exact .refl _
  rcases hsender : NodeId.fromBytes p.fromId with _ | sender
  · simp only [onPunch, hdec, htarget, hsender]
    exact .refl _
  dsimp only
  split_ifs with hself
  · simp only [onPunch, hdec, htarget, hsender, if_pos hself]
    generalize p.candidates.filterMap _ = cands
    rcases cands with _ | ⟨first, rest⟩
    · exact .refl _
    · exact books_answerPunch l n src sender _ first
  · -- a punch for another node is passed on
    have hforward : Allocates 0 1 n (n.onPunch src pkt) := by
      simp only [onPunch, hdec, htarget, hsender, if_neg hself]
      split
      · exact (Allocates.of_eq rfl).mono (Nat.le_refl 0) (Nat.zero_le 1)
      · exact ((Allocates.nextCorr n).trans
          (.of_eq (nextCorrId_sendControl _ _ _))).mono (Nat.zero_le 1) (Nat.le_refl 1)
    exact books_drawn l hforward (by decide)

def punchTickDraws (acc : ShardNet × Bool) (id : NodeId) : List Draw :=
  if acc.1.isFresh id then []
  else
    match acc.1.punches.lookup id with
    | none => []
    | some p =>
      if p.burstsDone < 2 ∧ acc.1.now ≥ p.nextBurst then oneEach p.candidates else []

theorem books_punchTick (acc : ShardNet × Bool) (id : NodeId) :
    Books (punchTickDraws acc id) (acc.1.nextCorrId, l) ((punchTick acc id).1.nextCorrId, l) := by
  obtain ⟨n, again⟩ := acc
  rw [punchTickDraws, punchTick]
  dsimp only
  split_ifs with hfresh
  · exact .refl _
  rcases hp : n.punches.lookup id with _ | p
  · exact .refl _
  dsimp only
  have hburst : Books (if p.burstsDone < 2 ∧ n.now ≥ p.nextBurst then oneEach p.candidates else [])
      (n.nextCorrId, l) ((if p.burstsDone < 2 ∧ n.now ≥ p.nextBurst then (n.burstPunch id, true)
        else (n, again)).1.nextCorrId, l) := by
    split_ifs
    · exact books_burstPunch l hp
    · exact .refl _
  generalize (if p.burstsDone < 2 ∧ n.now ≥ p.nextBurst then (n.burstPunch id, true)
    else (n, again)) = acc at hburst ⊢
  generalize (if p.burstsDone < 2 ∧ n.now ≥ p.nextBurst then oneEach p.candidates else [])
    = ds at hburst ⊢
  -- giving up on a peer takes no id
  split
  · exact hburst
  · split_ifs
    · exact hburst
    · exact hburst
    · exact hburst

def onPunchTimerDraws (n : ShardNet) : List Draw :=
  along punchTick punchTickDraws (n, false) n.punches.keys

theorem books_onPunchTimer (n : ShardNet) :
    Books n.onPunchTimerDraws (n.nextCorrId, l) (n.onPunchTimer.nextCorrId, l) := by
  have hticks := Tickets.Books.along (fun acc : ShardNet × Bool ↦ (acc.1.nextCorrId, l))
    (books_punchTick l) (n, false) n.punches.keys
  rw [onPunchTimer, onPunchTimerDraws]
  generalize n.punches.keys.foldl punchTick (n, false) = acc at hticks ⊢
  obtain ⟨n', _ | _⟩ := acc
  · exact hticks
  · exact hticks

/-! ## Requests of lookups -/

theorem books_sendApp (n : ShardNet) (dest : SocketAddr) (x25519 : Option Bytes32) (app : Bytes) :
    Books (n.drawn (n.sendApp dest x25519 app)) (n.nextCorrId, l)
      ((n.sendApp dest x25519 app).nextCorrId, l) :=
  books_drawn l (Allocates.sendApp n dest x25519 app) (by decide)

/-- The calls for the probes that blind a request. -/
def probeDraws (n : ShardNet) (l : Lookup) (dest : SocketAddr) (x25519 : Option Bytes32) :
    List Draw :=
  if l.privacy = .blind then
    along (sendProbe dest x25519) (fun n probe ↦ n.drawn (sendProbe dest x25519 n probe)) n
      l.probeTargets
  else []

theorem books_probes (n : ShardNet) (lookup : Lookup) (dest : SocketAddr)
    (x25519 : Option Bytes32) :
    Books (n.probeDraws lookup dest x25519) (n.nextCorrId, l)
      ((if lookup.privacy = .blind then lookup.probeTargets.foldl (sendProbe dest x25519) n
        else n).nextCorrId, l) := by
  rw [probeDraws]
  split_ifs
  · exact Tickets.Books.along (fun n : ShardNet ↦ (n.nextCorrId, l))
      (fun n probe ↦ books_drawn l (Allocates.sendProbe dest x25519 n probe) (by decide)) n _
  · exact .refl _

/-- The calls of `dispatchTo`: one for the request, whatever becomes of it, one if it goes through a
relay, and those of the probes. -/
def dispatchToDraws (acc : ShardNet × Lookup) (p : PeerInfo) : List Draw :=
  let (n, l) := acc
  let (corr, n) := n.nextCorr
  match p.primaryAddr with
  | none => [none]
  | some dest =>
    match lookupRequest l corr with
    | some pkt =>
      let sent := n.sendApp dest p.x25519 pkt
      some (InFlight.mk p.id corr n.now) :: (n.drawn sent ++ sent.probeDraws l dest p.x25519)
    | none => none :: n.probeDraws l dest p.x25519

omit [Crates] in
theorem subperm_noteSent (lookup : Lookup) (now : ℕ) (id : NodeId) (corr : UInt32) :
    (lookup.noteSent now id corr).inFlight.Subperm (lookup.inFlight ++ [⟨id, corr, now⟩]) := by
  change (tryPush Lookup.batchCap lookup.inFlight _).Subperm _
  rw [tryPush]
  split_ifs
  · exact List.Subperm.refl _
  · exact (List.sublist_append_left _ _).subperm

/-- A request that is noted has the number it was sent with. -/
theorem books_dispatchTo (acc : ShardNet × Lookup) (p : PeerInfo) :
    Books (dispatchToDraws acc p) (acc.1.nextCorrId, acc.2.inFlight)
      ((dispatchTo acc p).1.nextCorrId, (dispatchTo acc p).2.inFlight) := by
  obtain ⟨n, lookup⟩ := acc
  rw [dispatchToDraws, dispatchTo]
  dsimp only
  rcases p.primaryAddr with _ | dest
  · exact books_nextCorr _ n
  dsimp only
  rcases lookupRequest lookup n.nextCorr.1 with _ | pkt
  · dsimp only
    have hprobes := books_probes lookup.inFlight n.nextCorr.2 lookup dest p.x25519
    have hall := (books_nextCorr lookup.inFlight n).trans hprobes
    split_ifs at hall ⊢
    · exact hall
    · exact hall
  · -- the request is noted, unless the lookup has no room for it
    dsimp only
    have hfile : Books [some ⟨p.id, n.nextCorr.1, n.nextCorr.2.now⟩]
        (n.nextCorrId, lookup.inFlight) (n.nextCorr.2.nextCorrId,
          (lookup.noteSent n.nextCorr.2.now p.id n.nextCorr.1).inFlight) :=
      .file rfl (subperm_noteSent _ _ _ _)
    have happ := hfile.trans (books_sendApp _ n.nextCorr.2 dest p.x25519 pkt)
    have hall := happ.trans (books_probes _ _ lookup dest p.x25519)
    rw [List.append_assoc] at hall
    have hprivacy : (lookup.noteSent n.nextCorr.2.now p.id n.nextCorr.1).privacy = lookup.privacy :=
      rfl
    rw [hprivacy]
    split_ifs at hall ⊢
    · exact hall
    · exact hall

def dispatchLookupBatchDraws (n : ShardNet) (l : Lookup) : List Draw :=
  along dispatchTo dispatchToDraws (n, (l.nextBatch n.now).2) (l.nextBatch n.now).1

theorem books_dispatchLookupBatch (n : ShardNet) (lookup : Lookup) :
    Books (n.dispatchLookupBatchDraws lookup) (n.nextCorrId, lookup.inFlight)
      ((n.dispatchLookupBatch lookup).1.nextCorrId,
        (n.dispatchLookupBatch lookup).2.inFlight) := by
  have hbatch := Tickets.Books.along
    (fun acc : ShardNet × Lookup ↦ (acc.1.nextCorrId, acc.2.inFlight)) books_dispatchTo
    (n, (lookup.nextBatch n.now).2) (lookup.nextBatch n.now).1
  have hsame : (lookup.nextBatch n.now).2.inFlight = lookup.inFlight := by
    rw [Lookup.nextBatch_snd]
  dsimp only at hbatch
  rw [hsame] at hbatch
  exact hbatch

end ShardNet

end Molia
