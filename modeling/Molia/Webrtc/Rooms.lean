import Molia.Net.Admission
import Molia.Net.Codec
import Molia.Webrtc.Request

/-!
# Rooms

Two browsers meet in a room of the signalling endpoint: one of them puts an offer there, the other
gets it and puts an answer, and both post ICE candidates. A room is made by the first write to it,
and a new offer starts a new session: it clears the answer and the candidates.

`route` is one request, as the endpoint handles it while it holds the lock of the rooms. A GET of an
offer or an answer is not answered at once but waits for the text; that is `Outcome.wait`, and
`takeText` is what is done at each turn of the wait.

What a room holds is determined by the writes to it, in their order: `Board.room` reads it off the
list of writes, and `lookup_route` says that a request is one write to one room, or none.
-/

namespace Molia.Webrtc

abbrev Text := List Char

/-! ## Rooms and requests -/

structure Room where
  offer : Text := []
  answer : Text := []
  iceOfferer : List Text := []
  iceAnswerer : List Text := []
deriving DecidableEq

abbrev Rooms := HashMap Text Room

structure Response where
  status : ℕ
  ctype : String
  body : Bytes
deriving DecidableEq

/-- What a request waits for. -/
inductive Slot where
  | offer
  | answer
deriving DecidableEq

def Slot.text : Slot → Room → Text
  | .offer => Room.offer
  | .answer => Room.answer

inductive Outcome where
  | reply (response : Response)
  | wait (name : Text) (slot : Slot)
deriving DecidableEq

/-- The foreign parts of the endpoint: the page, the conversions between bytes and text, the string
under the key `sdp` of a JSON document, and the ICE agent that answers an offer. -/
class Foreign where
  html : Bytes
  fromUtf8Lossy : Bytes → Text
  fromUtf8 : Bytes → Option Text
  intoBytes : Text → Bytes
  jsonSdp : Text → Option Text
  acceptOffer : SocketAddr → Text → Except Text Text

open Foreign

/-! ## Calls of the node -/

def acceptRpc (datagram : Bytes) : Bool := (Header.decode datagram).isSome

/-- What a call of `recv_from` returns. -/
inductive Received where
  | datagram (bytes : Bytes)
  | timedOut
  | wouldBlock
  | failed

/-- The size of the buffer for a reply; the rest of a longer datagram is lost. -/
def replySize : ℕ := 2048

/-- Wait for a datagram with the given correlation id. Each turn comes with the time at which it
begins. -/
def awaitReply (want : UInt32) (deadline : ℕ) : List (ℕ × Received) → Option Bytes
  | [] => none
  | (now, r) :: arrivals =>
    if now < deadline then
      match r with
      | .datagram bytes =>
        let buf := bytes.take replySize
        if (Header.decode buf).any fun h ↦ h.correlation == want then some buf
        else awaitReply want deadline arrivals
      | .timedOut => none
      | .wouldBlock => awaitReply want deadline arrivals
      | .failed => none
    else none

/-- The reply of the node to a datagram, given what its socket receives. -/
def acceptRpcToNode (now : ℕ) (arrivals : List (ℕ × Received)) (datagram : Bytes) : Option Bytes :=
  match Header.decode datagram with
  | none => none
  | some h => awaitReply h.correlation (now + 1500 * millis) arrivals

/-! ## Routing -/

/-! The methods, and the words of a path. -/

def methodGet : Text := "GET".toList
def methodPut : Text := "PUT".toList
def methodPost : Text := "POST".toList
def methodDelete : Text := "DELETE".toList
def methodOptions : Text := "OPTIONS".toList

def wordRoom : Text := "room".toList
def wordOffer : Text := "offer".toList
def wordAnswer : Text := "answer".toList
def wordIce : Text := "ice".toList
def wordOfferer : Text := "offerer".toList
def wordAnswerer : Text := "answerer".toList

/-- The bytes of a literal of ASCII characters. -/
def literal (s : String) : Bytes := s.toList.map fun c ↦ UInt8.ofNat c.toNat

def plain (status : ℕ) (body : String) : Outcome := .reply ⟨status, "text/plain", literal body⟩

/-- Change a room, which is made if it is not there. -/
def Rooms.enter (rooms : Rooms) (name : Text) (f : Room → Room) : Rooms :=
  rooms.insert name (f ((rooms.lookup name).getD {}))

/-- A new offer clears the rest of the room. -/
def Room.putOffer (text : Text) (_ : Room) : Room := { offer := text }

def Room.putAnswer (text : Text) (r : Room) : Room := { r with answer := text }

def Room.pushOfferer (line : Text) (r : Room) : Room :=
  { r with iceOfferer := r.iceOfferer ++ [line] }

def Room.pushAnswerer (line : Text) (r : Room) : Room :=
  { r with iceAnswerer := r.iceAnswerer ++ [line] }

section

variable [Foreign]

def offerSdp (body : Text) : Text :=
  let t := trim body
  if ['v', '='] <+: t then t else (jsonSdp t).getD t

/-- The candidates, one a line. -/
def iceLines (lines : List Text) : Outcome :=
  .reply ⟨200, "text/plain; charset=utf-8", intoBytes (['\n'].intercalate lines)⟩

/-- The candidates of one side. -/
def getIce (rooms : Rooms) (name side : Text) : Outcome :=
  match rooms.lookup name with
  | none => plain 204 ""
  | some r =>
    if side = wordOfferer then iceLines r.iceOfferer
    else if side = wordAnswerer then iceLines r.iceAnswerer
    else plain 404 "ice side"

/-- What is asked of a room. -/
inductive RoomCall where
  | delete
  | putOffer
  | putAnswer
  | getOffer
  | getAnswer
  | postIce (side : Text)
  | getIce (side : Text)
  | unknown
deriving DecidableEq

/-- The call, by the method and the two parts of the path after the name of the room. -/
def roomCall (method : Text) (what side : Option Text) : RoomCall :=
  if method = methodDelete ∧ what = none ∧ side = none then .delete
  else if method = methodPut ∧ what = some wordOffer ∧ side = none then .putOffer
  else if method = methodPut ∧ what = some wordAnswer ∧ side = none then .putAnswer
  else if method = methodGet ∧ what = some wordOffer ∧ side = none then .getOffer
  else if method = methodGet ∧ what = some wordAnswer ∧ side = none then .getAnswer
  else if method = methodPost ∧ what = some wordIce then (side.map .postIce).getD .unknown
  else if method = methodGet ∧ what = some wordIce then (side.map .getIce).getD .unknown
  else .unknown

def routeRoom (name : Text) (call : RoomCall) (body : Bytes) (rooms : Rooms) : Outcome × Rooms :=
  match call with
  | .delete => (plain 204 "", rooms.erase name)
  | .putOffer => (plain 204 "", rooms.enter name (Room.putOffer (fromUtf8Lossy body)))
  | .putAnswer => (plain 204 "", rooms.enter name (Room.putAnswer (fromUtf8Lossy body)))
  | .getOffer => (.wait name .offer, rooms)
  | .getAnswer => (.wait name .answer, rooms)
  | .postIce side =>
    if side = wordOfferer then
      (plain 204 "", rooms.enter name (Room.pushOfferer (fromUtf8Lossy body)))
    else if side = wordAnswerer then
      (plain 204 "", rooms.enter name (Room.pushAnswerer (fromUtf8Lossy body)))
    -- the room has been made before the side is looked at
    else (plain 404 "ice side", rooms.enter name id)
  | .getIce side => (getIce rooms name side, rooms)
  | .unknown => (plain 404 "not found", rooms)

/-- The name of the room that a path is about, and the two parts after it. -/
def roomPath (path : Text) : Option (Text × Option Text × Option Text) :=
  match (path.dropWhile (· = '/')).splitOn '/' with
  | first :: name :: rest =>
    if first = wordRoom then some (name, rest[0]?, rest[1]?) else none
  | _ => none

/-- What the node replies to a datagram. -/
def routeRpc (node : Option SocketAddr) (now : ℕ) (arrivals : List (ℕ × Received)) (body : Bytes) :
    Outcome :=
  match node with
  | none => plain 503 "no node"
  | some _ =>
    if acceptRpc body = false then plain 400 "bad rpc"
    else
      match acceptRpcToNode now arrivals body with
      | some reply => .reply ⟨200, "application/octet-stream", reply⟩
      | none => plain 204 ""

/-- The answer of the ICE agent to an offer. -/
def routeOffer (node : Option SocketAddr) (body : Bytes) : Outcome :=
  match node with
  | none => plain 503 "no node"
  | some dest =>
    match fromUtf8 body with
    | none => plain 400 "sdp must be utf-8"
    | some raw =>
      match acceptOffer dest (offerSdp raw) with
      | .ok answer => .reply ⟨200, "application/sdp", intoBytes answer⟩
      | .error e => .reply ⟨400, "text/plain", intoBytes e⟩

def route (node : Option SocketAddr) (now : ℕ) (arrivals : List (ℕ × Received))
    (method path : Text) (body : Bytes) (rooms : Rooms) : Outcome × Rooms :=
  if method = methodGet ∧ (path = "/".toList ∨ path = "/index.html".toList) then
    (.reply ⟨200, "text/html; charset=utf-8", html⟩, rooms)
  else if method = methodPost ∧ path = "/rpc".toList then
    (routeRpc node now arrivals body, rooms)
  else if method = methodPost ∧ path = "/rtc/offer".toList then (routeOffer node body, rooms)
  else
    match roomPath path with
    | none => (plain 404 "not found", rooms)
    | some (name, what, side) => routeRoom name (roomCall method what side) body rooms

/-- One turn of the wait for a text: it is answered once the text is there, or once the deadline has
passed. -/
def takeText (rooms : Rooms) (name : Text) (slot : Slot) (deadline now : ℕ) : Option Response :=
  let s := ((rooms.lookup name).map slot.text).getD []
  if s ≠ [] then some ⟨200, "text/plain; charset=utf-8", intoBytes s⟩
  else if now ≥ deadline then some ⟨204, "text/plain", []⟩
  else none

end

/-! ## Writes -/

/-- What a request does to a room. -/
inductive Write where
  | delete
  | offer (text : Text)
  | answer (text : Text)
  | iceOfferer (line : Text)
  | iceAnswerer (line : Text)
  /-- The room is made if it is not there. -/
  | touch
deriving DecidableEq

namespace Write

def apply (r : Option Room) : Write → Option Room
  | .delete => none
  | .offer text => some ((r.getD {}).putOffer text)
  | .answer text => some ((r.getD {}).putAnswer text)
  | .iceOfferer line => some ((r.getD {}).pushOfferer line)
  | .iceAnswerer line => some ((r.getD {}).pushAnswerer line)
  | .touch => some (r.getD {})

end Write

section

variable [Foreign]

/-- The write of a call. -/
def RoomCall.write (body : Bytes) : RoomCall → Option Write
  | .delete => some .delete
  | .putOffer => some (.offer (fromUtf8Lossy body))
  | .putAnswer => some (.answer (fromUtf8Lossy body))
  | .postIce side =>
    if side = wordOfferer then some (.iceOfferer (fromUtf8Lossy body))
    else if side = wordAnswerer then some (.iceAnswerer (fromUtf8Lossy body))
    else some .touch
  | _ => none

/-- The write of a request to the room of the given name. -/
def writeTo (name method path : Text) (body : Bytes) : Option Write :=
  match roomPath path with
  | none => none
  | some (name', what, side) =>
    if name' = name then (roomCall method what side).write body else none

omit [Foreign] in
theorem lookup_enter (rooms : Rooms) (name name' : Text) (f : Room → Room) :
    (rooms.enter name' f).lookup name
      = if name' = name then some (f ((rooms.lookup name).getD {})) else rooms.lookup name := by
  rw [Rooms.enter, HashMap.lookup_insert_of]
  by_cases h : name' = name
  · rw [if_pos h, if_pos h.symm, h]
  · rw [if_neg h, if_neg (Ne.symm h)]

theorem lookup_routeRoom_of_ne {name name' : Text} (h : name' ≠ name) (call : RoomCall)
    (body : Bytes) (rooms : Rooms) :
    (routeRoom name' call body rooms).2.lookup name = rooms.lookup name := by
  have henter : ∀ f, (rooms.enter name' f).lookup name = rooms.lookup name := fun f ↦ by
    rw [lookup_enter, if_neg h]
  cases call with
  | delete =>
    rw [routeRoom, HashMap.lookup_erase_of, if_neg (Ne.symm h)]
  | putOffer => exact henter _
  | putAnswer => exact henter _
  | postIce side =>
    rw [routeRoom]
    split_ifs
    · exact henter _
    · exact henter _
    · exact henter _
  | getOffer => rfl
  | getAnswer => rfl
  | getIce side => rfl
  | unknown => rfl

theorem lookup_routeRoom (name : Text) (call : RoomCall) (body : Bytes) (rooms : Rooms) :
    (routeRoom name call body rooms).2.lookup name
      = (call.write body).elim (rooms.lookup name) (Write.apply (rooms.lookup name)) := by
  have henter : ∀ f, (rooms.enter name f).lookup name
      = some (f ((rooms.lookup name).getD {})) := fun f ↦ by rw [lookup_enter, if_pos rfl]
  cases call with
  | delete => exact AList.lookup_erase name rooms
  | putOffer => exact henter _
  | putAnswer => exact henter _
  | postIce side =>
    rw [routeRoom, RoomCall.write]
    split_ifs
    · exact henter _
    · exact henter _
    · exact henter _
  | getOffer => rfl
  | getAnswer => rfl
  | getIce side => rfl
  | unknown => rfl

omit [Foreign] in
theorem roomPath_other : roomPath "/rpc".toList = none ∧ roomPath "/rtc/offer".toList = none ∧
    roomPath "/".toList = none ∧ roomPath "/index.html".toList = none := by
  decide +kernel

/-- **One request.** It is one write to one room, or none. -/
theorem lookup_route (node : Option SocketAddr) (now : ℕ) (arrivals : List (ℕ × Received))
    (method path : Text) (body : Bytes) (rooms : Rooms) (name : Text) :
    (route node now arrivals method path body rooms).2.lookup name
      = (writeTo name method path body).elim (rooms.lookup name)
          (Write.apply (rooms.lookup name)) := by
  obtain ⟨hrpc, hoffer, hroot, hindex⟩ := roomPath_other
  rw [route]
  split_ifs with hpage hisRpc hisOffer
  · rcases hpage.2 with rfl | rfl
    · rw [writeTo, hroot]
      rfl
    · rw [writeTo, hindex]
      rfl
  · rw [hisRpc.2, writeTo, hrpc]
    rfl
  · rw [hisOffer.2, writeTo, hoffer]
    rfl
  · rw [writeTo]
    rcases roomPath path with _ | ⟨name', what, side⟩
    · rfl
    · dsimp only
      by_cases hname : name' = name
      · rw [if_pos hname, hname]
        exact lookup_routeRoom name _ body rooms
      · rw [if_neg hname]
        exact lookup_routeRoom_of_ne hname _ body rooms

end

/-! ## What a room holds -/

namespace Board

def isOffer : Write → Bool
  | .offer _ => true
  | _ => false

/-- The writes since the room was last deleted. -/
def kept (ws : List Write) : List Write := ws.rtakeWhile (· ≠ .delete)

/-- The writes of the current session: those since the last offer. -/
def session (ws : List Write) : List Write := (kept ws).rtakeWhile fun w ↦ !isOffer w

def offerOf : Write → Option Text
  | .offer text => some text
  | _ => none

def answerOf : Write → Option Text
  | .answer text => some text
  | _ => none

def offererOf : Write → Option Text
  | .iceOfferer line => some line
  | _ => none

def answererOf : Write → Option Text
  | .iceAnswerer line => some line
  | _ => none

/-- What a room holds after the given writes: the last offer since it was deleted, and the last
answer and all candidates of the current session. -/
def room (ws : List Write) : Option Room :=
  if kept ws = [] then none
  else some
    { offer := ((kept ws).filterMap offerOf).getLast?.getD []
      answer := ((session ws).filterMap answerOf).getLast?.getD []
      iceOfferer := (session ws).filterMap offererOf
      iceAnswerer := (session ws).filterMap answererOf }

theorem kept_concat {w : Write} (h : w ≠ .delete) (ws : List Write) :
    kept (ws ++ [w]) = kept ws ++ [w] :=
  List.rtakeWhile_concat_pos _ _ _ (decide_eq_true h)

theorem session_concat {w : Write} (h : w ≠ .delete) (hoffer : isOffer w = false)
    (ws : List Write) : session (ws ++ [w]) = session ws ++ [w] := by
  rw [session, kept_concat h, List.rtakeWhile_concat_pos _ _ _ (by simp [hoffer]), session]

theorem getD_room (ws : List Write) : (room ws).getD {} =
    { offer := ((kept ws).filterMap offerOf).getLast?.getD []
      answer := ((session ws).filterMap answerOf).getLast?.getD []
      iceOfferer := (session ws).filterMap offererOf
      iceAnswerer := (session ws).filterMap answererOf } := by
  rw [room]
  split_ifs with h
  · rw [session, h]
    rfl
  · rfl

theorem room_of_kept_ne {ws : List Write} (h : kept ws ≠ []) :
    room ws = some ((room ws).getD {}) := by
  rw [getD_room, room, if_neg h]

theorem room_concat (ws : List Write) (w : Write) : room (ws ++ [w]) = w.apply (room ws) := by
  by_cases hdelete : w = .delete
  · have hempty : kept (ws ++ [w]) = [] := List.rtakeWhile_concat_neg _ _ _ (by simp [hdelete])
    rw [room, if_pos hempty, hdelete]
    rfl
  · have hkept : kept (ws ++ [w]) ≠ [] := by
      rw [kept_concat hdelete]
      simp
    rw [room_of_kept_ne hkept, getD_room, kept_concat hdelete]
    cases w with
    | delete => exact absurd rfl hdelete
    | offer text =>
      have hnew : session (ws ++ [.offer text]) = [] := by
        rw [session, kept_concat hdelete, List.rtakeWhile_concat_neg _ _ _ (by simp [isOffer])]
      rw [hnew, Write.apply, Room.putOffer]
      simp [offerOf]
    | answer text =>
      rw [session_concat hdelete rfl, Write.apply, getD_room, Room.putAnswer]
      simp [offerOf, answerOf, offererOf, answererOf]
    | iceOfferer line =>
      rw [session_concat hdelete rfl, Write.apply, getD_room, Room.pushOfferer]
      simp [offerOf, answerOf, offererOf, answererOf]
    | iceAnswerer line =>
      rw [session_concat hdelete rfl, Write.apply, getD_room, Room.pushAnswerer]
      simp [offerOf, answerOf, offererOf, answererOf]
    | touch =>
      rw [session_concat hdelete rfl, Write.apply, getD_room]
      simp [offerOf, answerOf, offererOf, answererOf]

end Board

end Molia.Webrtc
