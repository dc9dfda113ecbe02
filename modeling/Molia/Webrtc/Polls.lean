import Molia.General.Runs
import Molia.Webrtc.Rooms

/-!
# Many browsers at once

Every connection to the signalling endpoint has a thread of its own, and the threads share the rooms
under one lock. A request takes the lock once. A GET of an offer or an answer takes it again every
100 ms, until the text is there or 15 s have passed. An event is what happens under the lock at one
time, so a list of events is any interleaving of any number of connections whose requests were read;
the others are closed without an answer.

Whatever the interleaving, a room holds what the writes to it say in their order; no connection is
lost and none is answered twice; and a waiting connection is answered with a text that is in force
at that time, or after 15 s in which it never found one (`answered_in_force`). In particular an
answer that was put before a new offer is not delivered any more.
-/

namespace Molia.Webrtc

/-! ## Texts in force -/

/-- The write that puts a text. -/
def Slot.put (text : Text) : Slot → Write
  | .offer => .offer text
  | .answer => .answer text

/-- After the write, a text that was put before counts no more. -/
def Write.overrides : Slot → Write → Bool
  | _, .delete => true
  | _, .offer _ => true
  | .answer, .answer _ => true
  | _, _ => false

/-- The text was put, and nothing has overridden it since. -/
def InForce (slot : Slot) (text : Text) (ws : List Write) : Prop :=
  ∃ before after, ws = before ++ slot.put text :: after ∧ ∀ w ∈ after, w.overrides slot = false

theorem inForce_concat {slot : Slot} {text : Text} {ws : List Write} {w : Write} :
    InForce slot text (ws ++ [w]) ↔
      w = slot.put text ∨ w.overrides slot = false ∧ InForce slot text ws := by
  constructor
  · rintro ⟨before, after, heq, hafter⟩
    rcases List.eq_nil_or_concat after with rfl | ⟨after', w', rfl⟩
    · exact Or.inl (List.cons.inj (List.append_inj' heq rfl).2).1
    · rw [List.concat_eq_append, ← List.cons_append, ← List.append_assoc] at heq
      obtain ⟨hws, hw⟩ := List.append_inj' heq rfl
      rw [List.concat_eq_append, List.forall_mem_append, List.forall_mem_singleton] at hafter
      obtain rfl : w = w' := (List.cons.inj hw).1
      exact Or.inr ⟨hafter.2, before, after', hws, hafter.1⟩
  · rintro (rfl | ⟨hw, before, after, rfl, hafter⟩)
    · exact ⟨ws, [], rfl, List.forall_mem_nil _⟩
    · refine ⟨before, after ++ [w], by simp, ?_⟩
      rw [List.forall_mem_append, List.forall_mem_singleton]
      exact ⟨hafter, hw⟩

namespace Board

/-- The text in a room, empty if there is none. -/
def textOf (slot : Slot) (ws : List Write) : Text := ((room ws).map slot.text).getD []

theorem textOf_eq (slot : Slot) (ws : List Write) :
    textOf slot ws = slot.text ((room ws).getD {}) := by
  rw [textOf]
  rcases room ws with _ | r
  · cases slot with
    | offer => rfl
    | answer => rfl
  · rfl

theorem textOf_put (slot : Slot) (ws : List Write) (text : Text) :
    textOf slot (ws ++ [slot.put text]) = text := by
  rw [textOf, room_concat]
  cases slot with
  | offer => rfl
  | answer => rfl

theorem textOf_of_overrides {slot : Slot} {w : Write} (ws : List Write)
    (h : w.overrides slot = true) (hput : ∀ text, w ≠ slot.put text) :
    textOf slot (ws ++ [w]) = [] := by
  rw [textOf, room_concat]
  cases slot with
  | offer =>
    cases w with
    | delete => rfl
    | offer text => exact absurd rfl (hput text)
    | answer text => cases h
    | iceOfferer line => cases h
    | iceAnswerer line => cases h
    | touch => cases h
  | answer =>
    cases w with
    | delete => rfl
    | offer text => rfl
    | answer text => exact absurd rfl (hput text)
    | iceOfferer line => cases h
    | iceAnswerer line => cases h
    | touch => cases h

theorem textOf_of_not_overrides {slot : Slot} {w : Write} (ws : List Write)
    (h : w.overrides slot = false) : textOf slot (ws ++ [w]) = textOf slot ws := by
  rw [textOf_eq, textOf_eq, room_concat]
  cases slot with
  | offer =>
    cases w with
    | delete => cases h
    | offer text => cases h
    | answer text => rfl
    | iceOfferer line => rfl
    | iceAnswerer line => rfl
    | touch => rfl
  | answer =>
    cases w with
    | delete => cases h
    | offer text => cases h
    | answer text => cases h
    | iceOfferer line => rfl
    | iceAnswerer line => rfl
    | touch => rfl

theorem overrides_put (slot : Slot) (text : Text) : (slot.put text).overrides slot = true := by
  cases slot with
  | offer => rfl
  | answer => rfl

theorem put_injective {slot : Slot} {text text' : Text} (h : slot.put text = slot.put text') :
    text = text' := by
  cases slot with
  | offer => exact Write.offer.inj h
  | answer => exact Write.answer.inj h

theorem textOf_eq_iff {slot : Slot} {text : Text} (htext : text ≠ []) (ws : List Write) :
    textOf slot ws = text ↔ InForce slot text ws := by
  induction ws using List.reverseRecOn with
  | nil =>
    refine iff_of_false ?_ ?_
    · cases slot with
      | offer => exact htext.symm
      | answer => exact htext.symm
    · rintro ⟨before, after, heq, -⟩
      simp at heq
  | append_singleton ws w ih =>
    rw [inForce_concat]
    by_cases hput : ∃ text', w = slot.put text'
    · obtain ⟨text', rfl⟩ := hput
      rw [textOf_put, overrides_put]
      constructor
      · rintro rfl
        exact Or.inl rfl
      · rintro (heq | ⟨hfalse, -⟩)
        · exact put_injective heq
        · cases hfalse
    · have hne : w ≠ slot.put text := fun h ↦ hput ⟨text, h⟩
      rw [or_iff_right hne]
      rcases hover : w.overrides slot with _ | _
      · rw [textOf_of_not_overrides ws hover, ih]
        exact (and_iff_right rfl).symm
      · rw [textOf_of_overrides ws hover fun text' h ↦ hput ⟨text', h⟩]
        exact iff_of_false htext.symm fun h ↦ nomatch h.1

end Board

/-! ## Connections and events -/

/-- A connection that waits. -/
structure Poll where
  name : Text
  slot : Slot
  deadline : ℕ

/-- The rooms, the connections that wait, and the responses that were written. Connections are
numbered as they come. -/
structure Server where
  rooms : Rooms := ∅
  accepted : ℕ := 0
  polls : HashMap ℕ Poll := ∅
  responses : List (ℕ × Response) := []

inductive Input where
  /-- The request of a new connection, and what a socket for a call of the node receives. -/
  | request (method path : Text) (body : Bytes) (arrivals : List (ℕ × Received))
  /-- A turn of the wait of a connection. -/
  | turn (conn : ℕ)

structure Event where
  now : ℕ
  input : Input

/-! ## What events ask for -/

/-- The text that a call waits for. -/
def RoomCall.slot? : RoomCall → Option Slot
  | .getOffer => some .offer
  | .getAnswer => some .answer
  | _ => none

/-- The text that a request waits for, and in which room. -/
def waitsFor (method path : Text) : Option (Text × Slot) :=
  match roomPath path with
  | none => none
  | some (name, what, side) => (roomCall method what side).slot?.map fun slot ↦ (name, slot)

theorem roomCall_options (what side : Option Text) :
    roomCall methodOptions what side = .unknown := by
  have hne : methodOptions ≠ methodDelete ∧ methodOptions ≠ methodPut ∧
      methodOptions ≠ methodGet ∧ methodOptions ≠ methodPost := by decide +kernel
  obtain ⟨hdelete, hput, hget, hpost⟩ := hne
  simp only [roomCall, hdelete, hput, hget, hpost, false_and, if_false]

/-- The time of a request, and what it waits for if it does. -/
def Event.asked (e : Event) : Option (ℕ × Option (Text × Slot)) :=
  match e.input with
  | .request method path _ _ => some (e.now, waitsFor method path)
  | .turn _ => none

/-- The connection with the given number came at time `t` and waits for the text of a room. -/
def Asks (es : List Event) (conn t : ℕ) (name : Text) (slot : Slot) : Prop :=
  (es.filterMap Event.asked)[conn]? = some (t, some (name, slot))

theorem asked_concat (es : List Event) (e : Event) :
    (es ++ [e]).filterMap Event.asked = es.filterMap Event.asked ++ e.asked.toList := by
  rw [List.filterMap_append]
  rcases h : e.asked with _ | a
  · rw [List.filterMap_cons_none h]
    rfl
  · rw [List.filterMap_cons_some h]
    rfl

theorem Asks.concat {es : List Event} {conn t : ℕ} {name : Text} {slot : Slot}
    (h : Asks es conn t name slot) (e : Event) : Asks (es ++ [e]) conn t name slot := by
  rw [Asks, asked_concat]
  exact List.getElem?_append_left (List.getElem?_eq_some_iff.mp h).1 ▸ h

theorem asks_concat_iff {es : List Event} {e : Event} {conn t : ℕ} {name : Text} {slot : Slot}
    (hconn : conn < (es.filterMap Event.asked).length) :
    Asks (es ++ [e]) conn t name slot ↔ Asks es conn t name slot := by
  rw [Asks, asked_concat, List.getElem?_append_left hconn, Asks]

theorem concat_eq_turn {es pre post : List Event} {e : Event} {now conn : ℕ}
    (h : es ++ [e] = pre ++ ⟨now, .turn conn⟩ :: post) :
    (es = pre ∧ e = ⟨now, .turn conn⟩) ∨ ∃ post', es = pre ++ ⟨now, .turn conn⟩ :: post' := by
  rcases List.eq_nil_or_concat post with rfl | ⟨post', e', rfl⟩
  · obtain ⟨hes, he⟩ := List.append_inj' h rfl
    exact Or.inl ⟨hes, (List.cons.inj he).1⟩
  · rw [List.concat_eq_append, ← List.cons_append, ← List.append_assoc] at h
    exact Or.inr ⟨post', (List.append_inj' h rfl).1⟩

theorem routeRpc_ne_wait (node : Option SocketAddr) (now : ℕ) (arrivals : List (ℕ × Received))
    (body : Bytes) (name : Text) (slot : Slot) :
    routeRpc node now arrivals body ≠ .wait name slot := by
  rcases node with _ | dest
  · exact nofun
  · rw [routeRpc]
    split_ifs
    · exact nofun
    · split
      · exact nofun
      · exact nofun

/-! ## The endpoint -/

section

variable [Foreign]

open Foreign

def handleHttp (node : Option SocketAddr) (now : ℕ) (arrivals : List (ℕ × Received))
    (method path : Text) (body : Bytes) (rooms : Rooms) : Outcome × Rooms :=
  if method = methodOptions then (plain 204 "", rooms)
  else route node now arrivals method path body rooms

namespace Server

def step (node : Option SocketAddr) (s : Server) (e : Event) : Server :=
  match e.input with
  | .request method path body arrivals =>
    match handleHttp node e.now arrivals method path body s.rooms with
    | (.reply r, rooms) =>
      { s with
        rooms
        accepted := s.accepted + 1
        responses := s.responses ++ [(s.accepted, r)] }
    | (.wait name slot, rooms) =>
      { s with
        rooms
        accepted := s.accepted + 1
        polls := s.polls.insert s.accepted ⟨name, slot, e.now + 15 * second⟩ }
  | .turn conn =>
    match s.polls.lookup conn with
    | none => s
    | some p =>
      match takeText s.rooms p.name p.slot p.deadline e.now with
      | none => s
      | some r =>
        { s with
          polls := s.polls.erase conn
          responses := s.responses ++ [(conn, r)] }

/-- The endpoint after the given events. -/
def run (node : Option SocketAddr) (es : List Event) : Server := es.foldl (step node) {}

end Server

/-! ## Requests -/

theorem lookup_handleHttp (node : Option SocketAddr) (now : ℕ) (arrivals : List (ℕ × Received))
    (method path : Text) (body : Bytes) (rooms : Rooms) (name : Text) :
    (handleHttp node now arrivals method path body rooms).2.lookup name
      = (writeTo name method path body).elim (rooms.lookup name)
          (Write.apply (rooms.lookup name)) := by
  rw [handleHttp]
  split_ifs with hopt
  · have hnone : writeTo name method path body = none := by
      rw [hopt, writeTo]
      rcases roomPath path with _ | ⟨name', what, side⟩
      · rfl
      · dsimp only
        rw [roomCall_options]
        exact ite_self none
    rw [hnone]
    rfl
  · exact lookup_route node now arrivals method path body rooms name

theorem routeRoom_wait_iff {name name' : Text} {call : RoomCall} {body : Bytes} {rooms : Rooms}
    {slot : Slot} : (routeRoom name' call body rooms).1 = .wait name slot ↔
      call.slot? = some slot ∧ name' = name := by
  cases call with
  | getOffer => simp [routeRoom, RoomCall.slot?, and_comm]
  | getAnswer => simp [routeRoom, RoomCall.slot?, and_comm]
  | delete => simp [routeRoom, RoomCall.slot?, plain]
  | putOffer => simp [routeRoom, RoomCall.slot?, plain]
  | putAnswer => simp [routeRoom, RoomCall.slot?, plain]
  | unknown => simp [routeRoom, RoomCall.slot?, plain]
  | postIce side =>
    rw [routeRoom]
    split_ifs
    · simp [RoomCall.slot?, plain]
    · simp [RoomCall.slot?, plain]
    · simp [RoomCall.slot?, plain]
  | getIce side =>
    rw [routeRoom, getIce]
    rcases rooms.lookup name' with _ | r
    · simp [RoomCall.slot?, plain]
    · dsimp only
      split_ifs
      · simp [RoomCall.slot?, iceLines]
      · simp [RoomCall.slot?, iceLines]
      · simp [RoomCall.slot?, plain]

theorem routeOffer_ne_wait (node : Option SocketAddr) (body : Bytes) (name : Text) (slot : Slot) :
    routeOffer node body ≠ .wait name slot := by
  rcases node with _ | dest
  · exact nofun
  · rw [routeOffer]
    split
    · exact nofun
    · split
      · exact nofun
      · exact nofun

/-- Whether a request waits is seen from its method and path. -/
theorem handleHttp_wait_iff (node : Option SocketAddr) (now : ℕ) (arrivals : List (ℕ × Received))
    (method path : Text) (body : Bytes) (rooms : Rooms) (name : Text) (slot : Slot) :
    (handleHttp node now arrivals method path body rooms).1 = .wait name slot ↔
      waitsFor method path = some (name, slot) := by
  obtain ⟨hrpc, hoffer, hroot, hindex⟩ := roomPath_other
  have hother : roomPath path = none → waitsFor method path ≠ some (name, slot) := by
    intro hnone
    rw [waitsFor, hnone]
    rintro ⟨⟩
  rw [handleHttp]
  split_ifs with hopt
  · refine iff_of_false (by rintro ⟨⟩) ?_
    rw [waitsFor, hopt]
    rcases roomPath path with _ | ⟨name', what, side⟩
    · rintro ⟨⟩
    · dsimp only
      rw [roomCall_options]
      rintro ⟨⟩
  · rw [route]
    split_ifs with hpage hisRpc hisOffer
    · refine iff_of_false (by rintro ⟨⟩) (hother ?_)
      rcases hpage.2 with rfl | rfl
      · exact hroot
      · exact hindex
    · exact iff_of_false (routeRpc_ne_wait node now arrivals body name slot)
        (hother (hisRpc.2 ▸ hrpc))
    · exact iff_of_false (routeOffer_ne_wait node body name slot) (hother (hisOffer.2 ▸ hoffer))
    · rw [waitsFor]
      rcases roomPath path with _ | ⟨name', what, side⟩
      · exact iff_of_false (by rintro ⟨⟩) (by rintro ⟨⟩)
      · dsimp only
        rw [routeRoom_wait_iff, Option.map_eq_some_iff]
        simp only [Prod.mk.injEq]
        constructor
        · rintro ⟨hslot, hname⟩
          exact ⟨slot, hslot, hname, rfl⟩
        · rintro ⟨slot', hslot, hname, rfl⟩
          exact ⟨hslot, hname⟩

namespace Event

/-- The write of an event to a room. -/
def writeTo (name : Text) (e : Event) : Option Write :=
  match e.input with
  | .request method path body _ => Webrtc.writeTo name method path body
  | .turn _ => none

end Event

/-- The writes to a room, in their order. -/
def log (name : Text) (es : List Event) : List Write := es.filterMap (Event.writeTo name)

theorem log_concat (name : Text) (es : List Event) (e : Event) :
    log name (es ++ [e]) = log name es ++ (e.writeTo name).toList := by
  rw [log, List.filterMap_append, log]
  rcases h : e.writeTo name with _ | w
  · rw [List.filterMap_cons_none h]
    rfl
  · rw [List.filterMap_cons_some h]
    rfl

/-! ## Runs -/

namespace Server

variable {node : Option SocketAddr}

theorem run_concat (es : List Event) (e : Event) :
    run node (es ++ [e]) = (run node es).step node e := by
  rw [run, List.foldl_append]
  rfl

theorem step_request (s : Server) (node : Option SocketAddr) {e : Event} {method path : Text}
    {body : Bytes} {arrivals : List (ℕ × Received)}
    (he : e.input = .request method path body arrivals) :
    (waitsFor method path = none ∧ ∃ r rooms, s.step node e = { s with
        rooms, accepted := s.accepted + 1, responses := s.responses ++ [(s.accepted, r)] }) ∨
      ∃ name slot rooms, waitsFor method path = some (name, slot) ∧ s.step node e = { s with
        rooms
        accepted := s.accepted + 1
        polls := s.polls.insert s.accepted ⟨name, slot, e.now + 15 * second⟩ } := by
  have hiff := handleHttp_wait_iff node e.now arrivals method path body s.rooms
  rcases hout : handleHttp node e.now arrivals method path body s.rooms with
    ⟨r | ⟨name, slot⟩, rooms⟩
  · refine Or.inl ⟨?_, r, rooms, by simp only [step, he, hout]⟩
    rcases hwaits : waitsFor method path with _ | ⟨name, slot⟩
    · rfl
    · have hwait := (hiff name slot).mpr hwaits
      rw [hout] at hwait
      cases hwait
  · refine Or.inr ⟨name, slot, rooms, ?_, by simp only [step, he, hout]⟩
    exact (hiff name slot).mp (congrArg Prod.fst hout)

theorem lookup_rooms_step (s : Server) (e : Event) (name : Text) :
    (s.step node e).rooms.lookup name
      = (e.writeTo name).elim (s.rooms.lookup name) (Write.apply (s.rooms.lookup name)) := by
  obtain ⟨now, ⟨method, path, body, arrivals⟩ | conn⟩ := e
  · have hlookup := lookup_handleHttp node now arrivals method path body s.rooms name
    show _ = (Webrtc.writeTo name method path body).elim _ _
    rw [← hlookup, step]
    dsimp only
    split
    · rename_i heq
      rw [heq]
    · rename_i heq
      rw [heq]
  · show _ = s.rooms.lookup name
    rw [step]
    dsimp only
    split
    · rfl
    · split
      · rfl
      · rfl

/-! ## Connections -/

/-- What a waiting connection is answered with at a turn that has the given writes before it. -/
inductive Answered (t : ℕ) (slot : Slot) (ws : List Write) (now : ℕ) : Response → Prop
  | text {text : Text} (hne : text ≠ []) (hforce : InForce slot text ws) :
    Answered t slot ws now ⟨200, "text/plain; charset=utf-8", intoBytes text⟩
  | nothing (htime : t + 15 * second ≤ now) (hnone : ∀ text ≠ [], ¬InForce slot text ws) :
    Answered t slot ws now ⟨204, "text/plain", []⟩

/-- A turn at which a connection has to go on waiting. -/
def Waits (t : ℕ) (slot : Slot) (ws : List Write) (now : ℕ) : Prop :=
  now < t + 15 * second ∧ ∀ text ≠ [], ¬InForce slot text ws

/-- A turn answers the connection, or the connection has to go on waiting. -/
theorem takeText_spec {rooms : Rooms} {name : Text} {ws : List Write} (slot : Slot) (t now : ℕ)
    (hroom : rooms.lookup name = Board.room ws) :
    (takeText rooms name slot (t + 15 * second) now = none → Waits t slot ws now) ∧
      ∀ r, takeText rooms name slot (t + 15 * second) now = some r → Answered t slot ws now r := by
  have htext : ((rooms.lookup name).map slot.text).getD [] = Board.textOf slot ws := by
    rw [hroom]
    rfl
  rw [takeText, htext]
  by_cases hempty : Board.textOf slot ws = []
  · have hnone : ∀ text ≠ [], ¬InForce slot text ws := by
      intro text hne hforce
      exact hne (((Board.textOf_eq_iff hne ws).mpr hforce).symm.trans hempty)
    simp only [hempty, ne_eq, not_true_eq_false, if_false]
    by_cases htime : now ≥ t + 15 * second
    · rw [if_pos htime]
      refine ⟨nofun, fun r hr ↦ ?_⟩
      rw [← Option.some.inj hr]
      exact .nothing htime hnone
    · rw [if_neg htime]
      exact ⟨fun _ ↦ ⟨Nat.lt_of_not_ge htime, hnone⟩, nofun⟩
  · rw [if_pos hempty]
    refine ⟨nofun, fun r hr ↦ ?_⟩
    rw [← Option.some.inj hr]
    exact .text hempty ((Board.textOf_eq_iff hempty ws).mp rfl)

/-- What is known after a run. -/
structure Explained (es : List Event) (s : Server) : Prop where
  rooms : ∀ name, s.rooms.lookup name = Board.room (log name es)
  accepted : s.accepted = (es.filterMap Event.asked).length
  /-- No connection is lost, and none is answered twice. -/
  conns : (s.responses.map Prod.fst ++ s.polls.keys).Perm (List.range s.accepted)
  /-- A connection that waits has had no reason to stop. -/
  waiting : ∀ conn p, s.polls.lookup conn = some p → ∃ t, Asks es conn t p.name p.slot ∧
    p.deadline = t + 15 * second ∧ ∀ pre now post, es = pre ++ ⟨now, .turn conn⟩ :: post →
      conn < (pre.filterMap Event.asked).length → Waits t p.slot (log p.name pre) now
  /-- A connection that waited had reason to stop. -/
  answered : ∀ conn r, (conn, r) ∈ s.responses → ∀ t name slot, Asks es conn t name slot →
    ∃ pre now post, es = pre ++ ⟨now, .turn conn⟩ :: post ∧ Answered t slot (log name pre) now r

namespace Explained

variable {es : List Event} {s : Server} {conn : ℕ} {p : Poll} {r : Response}

theorem lt_of_mem (h : Explained es s) (hmem : conn ∈ s.responses.map Prod.fst ++ s.polls.keys) :
    conn < s.accepted :=
  List.mem_range.mp (h.conns.mem_iff.mp hmem)

theorem lt_of_response (h : Explained es s) (hr : (conn, r) ∈ s.responses) :
    conn < s.accepted :=
  h.lt_of_mem (List.mem_append_left _ (List.mem_map_of_mem hr))

theorem not_mem_keys (h : Explained es s) : s.accepted ∉ s.polls.keys :=
  fun hmem ↦ Nat.lt_irrefl _ (h.lt_of_mem (List.mem_append_right _ hmem))

/-- What was known about the connections that wait is known after an event that is no turn of
theirs. -/
theorem waiting_concat (h : Explained es s) {e : Event} (hp : s.polls.lookup conn = some p)
    (he : ∀ now, e ≠ ⟨now, .turn conn⟩) : ∃ t, Asks (es ++ [e]) conn t p.name p.slot ∧
      p.deadline = t + 15 * second ∧ ∀ pre now post,
        es ++ [e] = pre ++ ⟨now, .turn conn⟩ :: post →
        conn < (pre.filterMap Event.asked).length → Waits t p.slot (log p.name pre) now := by
  obtain ⟨t, hasks, hdeadline, hwaits⟩ := h.waiting conn p hp
  refine ⟨t, hasks.concat e, hdeadline, fun pre now post heq hconn ↦ ?_⟩
  rcases concat_eq_turn heq with ⟨-, hlast⟩ | ⟨post', hes⟩
  · exact absurd hlast (he now)
  · exact hwaits pre now post' hes hconn

theorem answered_concat (h : Explained es s) {e : Event} (hr : (conn, r) ∈ s.responses) (t : ℕ)
    (name : Text) (slot : Slot) (hasks : Asks (es ++ [e]) conn t name slot) :
    ∃ pre now post, es ++ [e] = pre ++ ⟨now, .turn conn⟩ :: post ∧
      Answered t slot (log name pre) now r := by
  have hconn : conn < (es.filterMap Event.asked).length := h.accepted ▸ h.lt_of_response hr
  obtain ⟨pre, now, post, hes, hanswered⟩ :=
    h.answered conn r hr t name slot ((asks_concat_iff hconn).mp hasks)
  exact ⟨pre, now, post ++ [e], by rw [hes, List.append_assoc, List.cons_append], hanswered⟩

theorem rooms_step (h : Explained es s) (node : Option SocketAddr) (e : Event) (name : Text) :
    (s.step node e).rooms.lookup name = Board.room (log name (es ++ [e])) := by
  rw [lookup_rooms_step, h.rooms, log_concat]
  rcases e.writeTo name with _ | w
  · rw [Option.toList_none, List.append_nil, Option.elim_none]
  · rw [Option.toList_some, Board.room_concat, Option.elim_some]

theorem request (h : Explained es s) (node : Option SocketAddr) {e : Event} {method path : Text}
    {body : Bytes} {arrivals : List (ℕ × Received)}
    (he : e.input = .request method path body arrivals) :
    Explained (es ++ [e]) (s.step node e) := by
  have hrooms := h.rooms_step node e
  have hasked : (es ++ [e]).filterMap Event.asked
      = es.filterMap Event.asked ++ [(e.now, waitsFor method path)] := by
    rw [asked_concat, Event.asked, he]
    rfl
  have haccepted : s.accepted + 1 = ((es ++ [e]).filterMap Event.asked).length := by
    rw [hasked, List.length_append, h.accepted, List.length_singleton]
  have hturn : ∀ conn now, e ≠ ⟨now, .turn conn⟩ := by
    rintro conn now rfl
    cases he
  -- the new connection is the last one that asked
  have hnew : ∀ t name slot, Asks (es ++ [e]) s.accepted t name slot ↔
      e.now = t ∧ waitsFor method path = some (name, slot) := by
    intro t name slot
    rw [Asks, hasked, h.accepted, List.getElem?_concat_length, Option.some_inj, Prod.mk.injEq]
  rcases s.step_request node he with ⟨hwaits, r, rooms, hstep⟩ | ⟨name, slot, rooms, hwaits, hstep⟩
  · rw [hstep] at hrooms ⊢
    refine ⟨hrooms, haccepted, ?_, fun conn p hp ↦ h.waiting_concat hp (hturn conn), ?_⟩
    · rw [List.map_append, List.range_succ]
      refine List.Perm.trans ?_ (h.conns.append_right [s.accepted])
      rw [List.append_assoc, List.append_assoc]
      exact List.perm_append_comm.append_left _
    · intro conn r' hr' t name slot hasks
      rcases List.mem_append.mp hr' with hold | hlast
      · exact h.answered_concat hold t name slot hasks
      · obtain ⟨rfl, -⟩ := Prod.mk.inj (List.mem_singleton.mp hlast)
        have hsome := ((hnew t name slot).mp hasks).2
        rw [hwaits] at hsome
        cases hsome
  · rw [hstep] at hrooms ⊢
    refine ⟨hrooms, haccepted, ?_, ?_, fun conn r hr ↦ h.answered_concat hr⟩
    · rw [AList.keys_insert, List.erase_of_not_mem h.not_mem_keys, List.range_succ]
      exact List.perm_middle.trans (List.perm_append_singleton _ _).symm |>.trans
        (h.conns.append_right [s.accepted])
    · intro conn p hp
      rw [HashMap.lookup_insert_of] at hp
      split_ifs at hp with hconn
      · obtain rfl := Option.some.inj hp
        rw [hconn]
        refine ⟨e.now, (hnew e.now name slot).mpr ⟨rfl, hwaits⟩, rfl, fun pre now post heq hlt ↦ ?_⟩
        rcases concat_eq_turn heq with ⟨-, hlast⟩ | ⟨post', hes⟩
        · exact absurd hlast (hturn _ _)
        · rw [h.accepted, hes, List.filterMap_append, List.length_append] at hlt
          omega
      · exact h.waiting_concat hp (hturn conn)

theorem turn (h : Explained es s) (node : Option SocketAddr) {e : Event}
    (he : e.input = .turn conn) : Explained (es ++ [e]) (s.step node e) := by
  have hrooms := h.rooms_step node e
  have hasked : (es ++ [e]).filterMap Event.asked = es.filterMap Event.asked := by
    rw [asked_concat, Event.asked, he]
    exact List.append_nil _
  have haccepted : s.accepted = ((es ++ [e]).filterMap Event.asked).length := hasked ▸ h.accepted
  -- the turn of a connection says nothing about the others
  have hother : ∀ {conn'}, conn' ≠ conn → ∀ now, e ≠ ⟨now, .turn conn'⟩ := by
    rintro conn' hne now rfl
    exact hne (Input.turn.inj he)
  rcases hp : s.polls.lookup conn with _ | p
  · have hstep : s.step node e = s := by simp only [step, he, hp]
    rw [hstep] at hrooms ⊢
    refine ⟨hrooms, haccepted, h.conns, fun conn' p' hp' ↦ ?_, fun _ _ hr ↦ h.answered_concat hr⟩
    refine h.waiting_concat hp' (hother ?_)
    rintro rfl
    rw [hp] at hp'
    cases hp'
  · obtain ⟨t, hasks, hdeadline, hwaits⟩ := h.waiting conn p hp
    obtain ⟨hnone, hsome⟩ := takeText_spec p.slot t e.now (h.rooms p.name)
    rw [← hdeadline] at hnone hsome
    rcases htake : takeText s.rooms p.name p.slot p.deadline e.now with _ | r
    · have hstep : s.step node e = s := by simp only [step, he, hp, htake]
      rw [hstep] at hrooms ⊢
      refine ⟨hrooms, haccepted, h.conns, fun conn' p' hp' ↦ ?_,
        fun _ _ hr ↦ h.answered_concat hr⟩
      by_cases hconn : conn' = conn
      · subst hconn
        obtain rfl := Option.some.inj (hp.symm.trans hp')
        refine ⟨t, hasks.concat _, hdeadline, fun pre now post heq hlt ↦ ?_⟩
        rcases concat_eq_turn heq with ⟨rfl, rfl⟩ | ⟨post', hes⟩
        · exact hnone htake
        · exact hwaits pre now post' hes hlt
      · exact h.waiting_concat hp' (hother hconn)
    · have hstep : s.step node e = { s with
          polls := s.polls.erase conn, responses := s.responses ++ [(conn, r)] } := by
        simp only [step, he, hp, htake]
      rw [hstep] at hrooms ⊢
      refine ⟨hrooms, haccepted, ?_, fun conn' p' hp' ↦ ?_,
        fun conn' r' hr' t' name slot hasks' ↦ ?_⟩
      · rw [List.map_append, List.append_assoc, AList.keys_erase]
        refine List.Perm.trans (List.Perm.append_left _ ?_) h.conns
        exact (List.perm_cons_erase (HashMap.mem_keys_of_lookup hp)).symm
      · rw [HashMap.lookup_erase_of] at hp'
        split_ifs at hp' with hconn
        exact h.waiting_concat hp' (hother hconn)
      · rcases List.mem_append.mp hr' with hold | hlast
        · exact h.answered_concat hold t' name slot hasks'
        · obtain ⟨rfl, rfl⟩ := Prod.mk.inj (List.mem_singleton.mp hlast)
          rw [Asks, hasked] at hasks'
          have heq := hasks.symm.trans hasks'
          simp only [Option.some.injEq, Prod.mk.injEq] at heq
          obtain ⟨rfl, rfl, rfl⟩ := heq
          refine ⟨es, e.now, [], ?_, hsome r' htake⟩
          rw [← he]

end Explained

theorem explained_run (node : Option SocketAddr) (es : List Event) :
    Explained es (run node es) := by
  induction es using List.reverseRecOn with
  | nil =>
    refine ⟨fun _ ↦ rfl, rfl, List.Perm.refl _, fun conn p hp ↦ ?_, fun conn r hr ↦ ?_⟩
    · cases hp
    · cases hr
  | append_singleton es e ih =>
    rw [run_concat]
    rcases he : e.input with ⟨method, path, body, arrivals⟩ | conn
    · exact ih.request node he
    · exact ih.turn node he

/-- **Waiting for a text.** In every interleaving of any number of connections, every connection
whose request was read is answered once or waits. One that waited for the offer or the answer of a
room was answered at a turn of its own: with a text that was in force in that room then, or with
nothing, 15 s after it came or later, when no text was in force. At every turn of one that still
waits, less than 15 s had passed and no text was in force. -/
theorem answered_in_force (node : Option SocketAddr) (es : List Event) :
    ((run node es).responses.map Prod.fst ++ (run node es).polls.keys).Perm
        (List.range (es.filterMap Event.asked).length) ∧
      (∀ conn r t name slot, (conn, r) ∈ (run node es).responses → Asks es conn t name slot →
        ∃ pre now post, es = pre ++ ⟨now, .turn conn⟩ :: post ∧
          Answered t slot (log name pre) now r) ∧
      ∀ conn t name slot, conn ∈ (run node es).polls.keys → Asks es conn t name slot →
        ∀ pre now post, es = pre ++ ⟨now, .turn conn⟩ :: post →
          conn < (pre.filterMap Event.asked).length → Waits t slot (log name pre) now := by
  have h := explained_run node es
  refine ⟨h.accepted ▸ h.conns, fun conn r t name slot hr ↦ h.answered conn r hr t name slot, ?_⟩
  intro conn t name slot hmem hasks
  obtain ⟨p, hp⟩ := Option.isSome_iff_exists.mp (AList.lookup_isSome.mpr (AList.mem_keys.mpr hmem))
  obtain ⟨t', hasks', -, hwaits⟩ := h.waiting conn p hp
  have heq := hasks'.symm.trans hasks
  simp only [Option.some.injEq, Prod.mk.injEq] at heq
  obtain ⟨rfl, rfl, rfl⟩ := heq
  exact hwaits

/-! ## Candidates -/

/-- The response to a request for the candidates of one side, after the given writes: those of the
current session. -/
def candidates (ws : List Write) (side : Text) : Response :=
  if Board.kept ws = [] then ⟨204, "text/plain", []⟩
  else if side = wordOfferer then
    ⟨200, "text/plain; charset=utf-8",
      intoBytes (['\n'].intercalate ((Board.session ws).filterMap Board.offererOf))⟩
  else if side = wordAnswerer then
    ⟨200, "text/plain; charset=utf-8",
      intoBytes (['\n'].intercalate ((Board.session ws).filterMap Board.answererOf))⟩
  else ⟨404, "text/plain", literal "ice side"⟩

theorem getIce_eq {rooms : Rooms} {name : Text} {ws : List Write}
    (hroom : rooms.lookup name = Board.room ws) (side : Text) :
    getIce rooms name side = .reply (candidates ws side) := by
  rw [getIce, hroom, candidates, Board.room]
  by_cases hkept : Board.kept ws = []
  · rw [if_pos hkept, if_pos hkept]
    rfl
  · rw [if_neg hkept, if_neg hkept]
    dsimp only
    split_ifs
    · rfl
    · rfl
    · rfl

end Server

omit [Foreign] in
theorem roomCall_getIce (side : Text) :
    roomCall methodGet (some wordIce) (some side) = .getIce side := by
  have hne : methodGet ≠ methodDelete ∧ methodGet ≠ methodPut ∧ methodGet ≠ methodPost := by
    decide +kernel
  obtain ⟨hdelete, hput, hpost⟩ := hne
  have hword : wordIce ≠ wordOffer ∧ wordIce ≠ wordAnswer := by decide +kernel
  simp only [roomCall, hdelete, hput, hpost, hword.1, hword.2, Option.some_inj, false_and,
    and_false, if_false, and_self, if_true, Option.map_some, Option.getD_some]

theorem handleHttp_getIce {path : Text} {name side : Text}
    (hpath : roomPath path = some (name, some wordIce, some side)) (node : Option SocketAddr)
    (now : ℕ) (arrivals : List (ℕ × Received)) (body : Bytes) (rooms : Rooms) :
    handleHttp node now arrivals methodGet path body rooms = (getIce rooms name side, rooms) := by
  have hne : methodGet ≠ methodOptions ∧ methodGet ≠ methodPost := by decide +kernel
  have hpage : ¬(path = "/".toList ∨ path = "/index.html".toList) := by
    rintro (rfl | rfl)
    · exact nomatch roomPath_other.2.2.1.symm.trans hpath
    · exact nomatch roomPath_other.2.2.2.symm.trans hpath
  rw [handleHttp, if_neg hne.1, route, if_neg fun h ↦ hpage h.2, if_neg fun h ↦ hne.2 h.1,
    if_neg fun h ↦ hne.2 h.1, hpath]
  dsimp only
  rw [roomCall_getIce]
  rfl

namespace Server

/-- **Candidates.** In every interleaving, a request for the candidates of one side of a room is
answered at once with those that were posted for that side since the last offer or deletion, in the
order in which they were posted; the writes to other rooms make no difference. -/
theorem candidates_in_order (node : Option SocketAddr) (es : List Event) (now : ℕ)
    (arrivals : List (ℕ × Received)) (path : Text) (body : Bytes) {name side : Text}
    (hpath : roomPath path = some (name, some wordIce, some side)) :
    (run node (es ++ [⟨now, .request methodGet path body arrivals⟩])).responses
      = (run node es).responses ++
        [((es.filterMap Event.asked).length, candidates (log name es) side)] := by
  have h := explained_run node es
  rw [run_concat, ← h.accepted]
  simp only [step, handleHttp_getIce hpath, getIce_eq (h.rooms name)]

end Server

end

/-! ## A session -/

section

/-- An endpoint for ASCII texts. -/
@[reducible] def asciiForeign : Foreign where
  html := []
  fromUtf8Lossy b := b.map fun c ↦ Char.ofNat c.toNat
  fromUtf8 b := some (b.map fun c ↦ Char.ofNat c.toNat)
  intoBytes t := t.map fun c ↦ UInt8.ofNat c.toNat
  jsonSdp _ := none
  acceptOffer _ _ := .ok []

attribute [local instance] asciiForeign

private def sample (method : Text) (path body : String) : Event :=
  ⟨0, .request method path.toList (literal body) []⟩

/-- A candidate, a new offer, two more candidates, and one for another room. -/
private def meeting : List Event :=
  [sample methodPost "/room/a/ice/offerer" "old", sample methodPut "/room/a/offer" "v=0",
    sample methodPost "/room/a/ice/offerer" "one", sample methodPost "/room/b/ice/offerer" "other",
    sample methodPost "/room/a/ice/offerer" "two"]

/-- The candidates after the offer are returned. -/
theorem Server.candidates_in_order_two :
    Server.candidates (log "a".toList meeting) wordOfferer
        = ⟨200, "text/plain; charset=utf-8", literal "one\ntwo"⟩ ∧
      (Server.run none (meeting ++ [sample methodGet "/room/a/ice/offerer" ""])).responses
        = (Server.run none meeting).responses ++
          [(5, Server.candidates (log "a".toList meeting) wordOfferer)] := by
  refine ⟨by decide +kernel, ?_⟩
  exact Server.candidates_in_order none meeting 0 [] "/room/a/ice/offerer".toList []
    (by decide +kernel)

end

end Molia.Webrtc
