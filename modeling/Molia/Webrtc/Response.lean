import Mathlib.Data.List.TakeDrop
import Molia.Webrtc.Polls

/-!
# Responses over a byte stream

A response is a header of a few lines, an empty line, and the body. The reader of requests has to
find the same things in a stream: the empty line, the length of the body, and the body. Read by that
reader, every response of every run of the endpoint comes back whole, however the stream is cut into
segments (`response_read_back`).

For the search of the empty line it matters that no line of the header is empty and that none holds
a carriage return; for the length, that the decimal digits are those that are parsed. The content
types and the status codes are the ones the endpoint has.
-/

namespace Molia.Webrtc

/-! ## Lines -/

section Lines

variable {α β : Type*}

/-- Lines with a separator between them. -/
def joinLines (sep : List α) : List α → List (List α) → List α
  | line, [] => line
  | line, line' :: lines => line ++ (sep ++ joinLines sep line' lines)

theorem map_joinLines (f : α → β) (sep line : List α) (lines : List (List α)) :
    (joinLines sep line lines).map f
      = joinLines (sep.map f) (line.map f) (lines.map (List.map f)) := by
  induction lines generalizing line with
  | nil => rfl
  | cons line' lines ih =>
    rw [joinLines, List.map_append, List.map_append, ih]
    rfl

theorem flatMap_append_eq_joinLines (sep line : List α) (lines : List (List α)) :
    (line :: lines).flatMap (· ++ sep) = joinLines sep line lines ++ sep := by
  induction lines generalizing line with
  | nil =>
    rw [List.flatMap_cons, List.flatMap_nil, List.append_nil]
    rfl
  | cons line' lines ih =>
    rw [List.flatMap_cons, ih, joinLines, List.append_assoc, List.append_assoc, List.append_assoc]

/-- A line that can stand in a header. -/
def Plain (cr : α) (line : List α) : Prop := line ≠ [] ∧ cr ∉ line

end Lines

theorem findDoubleCrlf_append {line : Bytes} (h : 13 ∉ line) (rest : Bytes) :
    findDoubleCrlf (line ++ rest) = (findDoubleCrlf rest).map (· + line.length) := by
  induction line with
  | nil =>
    rw [List.nil_append]
    exact Option.map_id'.symm
  | cons b line ih =>
    obtain ⟨hb, hline⟩ := not_or.mp (mt List.mem_cons.mpr h)
    have hpat : ¬doubleCrlf <+: b :: (line ++ rest) := by
      intro hpre
      exact hb (List.cons_prefix_cons.mp hpre).1
    rw [List.cons_append, findDoubleCrlf, Occurrence.find, if_neg hpat]
    change (findDoubleCrlf (line ++ rest)).map (· + 1) = _
    rw [ih hline, Option.map_map]
    rfl

theorem findDoubleCrlf_crlf {line : Bytes} (hline : Plain 13 line) (rest : Bytes) :
    findDoubleCrlf (13 :: 10 :: (line ++ rest))
      = (findDoubleCrlf (line ++ rest)).map (· + 2) := by
  obtain ⟨hne, hcr⟩ := hline
  rcases line with _ | ⟨b, line⟩
  · exact absurd rfl hne
  have hb : (13 : UInt8) ≠ b := fun h ↦ hcr (h ▸ List.mem_cons_self)
  have hfirst : ¬doubleCrlf <+: 13 :: 10 :: (b :: line ++ rest) := by
    intro hpre
    have h3 := (List.cons_prefix_cons.mp (List.cons_prefix_cons.mp hpre).2).2
    exact hb (List.cons_prefix_cons.mp h3).1
  have hsecond : ¬doubleCrlf <+: 10 :: (b :: line ++ rest) := by
    intro hpre
    exact absurd (List.cons_prefix_cons.mp hpre).1 (by decide)
  rw [findDoubleCrlf, Occurrence.find, if_neg hfirst, Occurrence.find, if_neg hsecond,
    Option.map_map]
  rfl

/-- The empty line after a header is found where the header ends. -/
theorem findDoubleCrlf_joinLines {line : Bytes} (lines : List Bytes) (hline : Plain 13 line)
    (hlines : ∀ l ∈ lines, Plain 13 l) (body : Bytes) :
    findDoubleCrlf (joinLines [13, 10] line lines ++ (doubleCrlf ++ body))
      = some (joinLines [13, 10] line lines).length := by
  induction lines generalizing line with
  | nil =>
    have hzero : findDoubleCrlf (doubleCrlf ++ body) = some 0 :=
      Occurrence.find_eq_some_iff.mpr
        ⟨List.prefix_append doubleCrlf body, fun j hj ↦ absurd hj (Nat.not_lt_zero j)⟩
    rw [joinLines, findDoubleCrlf_append hline.2, hzero, Option.map_some, Nat.zero_add]
  | cons line' lines ih =>
    obtain ⟨hline', hrest⟩ := List.forall_mem_cons.mp hlines
    obtain ⟨tail, htail⟩ : ∃ tail, joinLines [13, 10] line' lines ++ (doubleCrlf ++ body)
        = line' ++ tail := by
      cases lines with
      | nil => exact ⟨_, rfl⟩
      | cons l ls => exact ⟨_, List.append_assoc _ _ _⟩
    have hfind := ih hline' hrest
    have hskip : findDoubleCrlf
        ([13, 10] ++ (joinLines [13, 10] line' lines ++ (doubleCrlf ++ body)))
        = some ((joinLines [13, 10] line' lines).length + 2) := by
      rw [htail] at hfind ⊢
      change findDoubleCrlf (13 :: 10 :: (line' ++ tail)) = _
      rw [findDoubleCrlf_crlf hline', hfind, Option.map_some]
    rw [joinLines, List.append_assoc, List.append_assoc, findDoubleCrlf_append hline.2, hskip,
      Option.map_some]
    simp only [List.length_append, List.length_cons, List.length_nil]
    congr 1
    omega

theorem splitLines_of_not_mem {line : Text} (h : '\r' ∉ line) : splitLines line = (line, []) := by
  induction line with
  | nil => rfl
  | cons c line ih =>
    obtain ⟨hc, hline⟩ := not_or.mp (mt List.mem_cons.mpr h)
    rw [splitLines, ih hline]
    intro _ heq
    exact absurd heq.symm hc

theorem splitLines_append {line : Text} (h : '\r' ∉ line) (rest : Text) :
    splitLines (line ++ '\r' :: '\n' :: rest)
      = (line, (splitLines rest).1 :: (splitLines rest).2) := by
  induction line with
  | nil => rfl
  | cons c line ih =>
    obtain ⟨hc, hline⟩ := not_or.mp (mt List.mem_cons.mpr h)
    rw [List.cons_append, splitLines, ih hline]
    intro _ heq
    exact absurd heq.symm hc

theorem splitLines_joinLines {line : Text} {lines : List Text} (hline : '\r' ∉ line)
    (hlines : ∀ l ∈ lines, '\r' ∉ l) :
    splitLines (joinLines ['\r', '\n'] line lines) = (line, lines) := by
  induction lines generalizing line with
  | nil => exact splitLines_of_not_mem hline
  | cons line' lines ih =>
    obtain ⟨hline', hrest⟩ := List.forall_mem_cons.mp hlines
    have hsplit := splitLines_append hline (joinLines ['\r', '\n'] line' lines)
    rw [ih hline' hrest] at hsplit
    exact hsplit

/-! ## Decimal digits -/

/-- How a number is printed. -/
def decimal (n : ℕ) : Text := Nat.toDigits 10 n

theorem isDigit_of_mem_decimal {n : ℕ} {c : Char} (h : c ∈ decimal n) : c.isDigit = true :=
  Nat.isDigit_of_mem_toDigits (by decide) (le_refl 10) h

theorem toNat_of_isDigit {c : Char} (h : c.isDigit = true) : 48 ≤ c.toNat ∧ c.toNat ≤ 57 := by
  simp only [Char.isDigit, Bool.and_eq_true, decide_eq_true_eq] at h
  exact ⟨UInt32.le_iff_toNat_le.mp h.1, UInt32.le_iff_toNat_le.mp h.2⟩

theorem not_isWhitespace_of_isDigit {c : Char} (h : c.isDigit = true) : isWhitespace c = false := by
  obtain ⟨hlow, hhigh⟩ := toNat_of_isDigit h
  simp only [isWhitespace, Bool.or_eq_false_iff, decide_eq_false_iff_not, beq_eq_false_iff_ne]
  omega

theorem trim_decimal (n : ℕ) : trim (' ' :: decimal n) = decimal n := by
  have hdigits : ∀ c ∈ decimal n, isWhitespace c = false :=
    fun c hc ↦ not_isWhitespace_of_isDigit (isDigit_of_mem_decimal hc)
  have hdrop : (' ' :: decimal n).dropWhile isWhitespace = decimal n := by
    rw [List.dropWhile_cons_of_pos (by decide)]
    rcases hd : decimal n with _ | ⟨c, cs⟩
    · rfl
    · rw [List.dropWhile_cons_of_neg]
      rw [hdigits c (by rw [hd]; exact List.mem_cons_self)]
      exact Bool.false_ne_true
  rw [trim, hdrop, List.rdropWhile_eq_self_iff]
  intro hne
  rw [hdigits _ (List.getLast_mem hne)]
  exact Bool.false_ne_true

theorem parseUsize_decimal {n : ℕ} (h : n < 2 ^ 64) : parseUsize (decimal n) = some n := by
  have hne : decimal n ≠ [] := Nat.toDigits_ne_nil
  have hall : (decimal n).all Char.isDigit = true :=
    List.all_eq_true.mpr fun c hc ↦ isDigit_of_mem_decimal hc
  have hsign : ∀ digits, decimal n ≠ '+' :: digits := by
    intro digits heq
    have hplus : '+'.isDigit = true := isDigit_of_mem_decimal (heq ▸ List.mem_cons_self)
    exact absurd hplus (by decide)
  have hvalue : (decimal n).foldl (fun n c ↦ 10 * n + (c.toNat - '0'.toNat)) 0 = n :=
    Nat.ofDigitChars_toDigits (by decide) (le_refl 10)
  rw [parseUsize]
  · simp only [hne, hall, Bool.true_eq_false, or_self, if_false, hvalue, if_pos h]
  · exact hsign

/-! ## The header of a response -/

def reason (status : ℕ) : String :=
  if status = 200 then "OK" else if status = 204 then "No Content" else "Error"

/-- The first line, and the last lines, which are always the same. -/
def statusLine (status : ℕ) : Text :=
  "HTTP/1.1 ".toList ++ decimal status ++ ' ' :: (reason status).toList

def fixedLines : List Text :=
  ["Access-Control-Allow-Origin: *".toList,
    "Access-Control-Allow-Methods: GET, POST, PUT, DELETE, OPTIONS".toList,
    "Access-Control-Allow-Headers: *".toList, "Connection: close".toList]

/-- The lines after the first. -/
def moreLines (r : Response) : List Text :=
  ("Content-Type: ".toList ++ r.ctype.toList) ::
    ("Content-Length: ".toList ++ decimal r.body.length) :: fixedLines

/-- The header, with the empty line. -/
def respHead (r : Response) : Text :=
  (statusLine r.status :: moreLines r).flatMap (· ++ ['\r', '\n']) ++ ['\r', '\n']

/-- The bytes of a text of ASCII characters. -/
def asciiBytes (t : Text) : Bytes := t.map fun c ↦ UInt8.ofNat c.toNat

/-- Status codes and content types of the endpoint. -/
def statuses : List ℕ := [200, 204, 400, 404, 503]

def contentTypes : List String :=
  ["text/plain", "text/plain; charset=utf-8", "text/html; charset=utf-8",
    "application/octet-stream", "application/sdp"]

/-- The line can stand in a header: it is not empty, it has ASCII characters only, and no carriage
return. -/
def HeaderLine (line : Text) : Prop := line ≠ [] ∧ ∀ c ∈ line, c.toNat < 128 ∧ c ≠ '\r'

instance (line : Text) : Decidable (HeaderLine line) :=
  haveI : Decidable (∀ c ∈ line, c.toNat < 128 ∧ c ≠ '\r') := List.decidableBAll _ line
  inferInstanceAs (Decidable (_ ∧ _))

theorem headerLine_append {pre post : Text} (hpre : HeaderLine pre)
    (hpost : ∀ c ∈ post, c.toNat < 128 ∧ c ≠ '\r') : HeaderLine (pre ++ post) := by
  refine ⟨List.append_ne_nil_of_left_ne_nil hpre.1 _, fun c hc ↦ ?_⟩
  rcases List.mem_append.mp hc with h | h
  · exact hpre.2 c h
  · exact hpost c h

theorem headerLine_moreLines {r : Response} (hctype : r.ctype ∈ contentTypes) :
    ∀ line ∈ moreLines r, HeaderLine line := by
  have htypes : ∀ ctype ∈ contentTypes, HeaderLine ("Content-Type: ".toList ++ ctype.toList) := by
    decide +kernel
  have hfixed : ∀ line ∈ fixedLines, HeaderLine line := by decide +kernel
  have hlength : HeaderLine ("Content-Length: ".toList ++ decimal r.body.length) := by
    refine headerLine_append (by decide +kernel) fun c hc ↦ ?_
    obtain ⟨hlow, hhigh⟩ := toNat_of_isDigit (isDigit_of_mem_decimal hc)
    refine ⟨by omega, ?_⟩
    rintro rfl
    exact absurd hlow (by decide)
  exact List.forall_mem_cons.mpr ⟨htypes _ hctype, List.forall_mem_cons.mpr ⟨hlength, hfixed⟩⟩

theorem announced_length {n : ℕ} (h : n < 2 ^ 64) :
    announced ("Content-Length: ".toList ++ decimal n) = some n := by
  have hsplit : splitOnce ':' ("Content-Length: ".toList ++ decimal n)
      = some ("Content-Length".toList, ' ' :: decimal n) := by
    have hspan : ("Content-Length: ".toList ++ decimal n).span (· ≠ ':')
        = ("Content-Length".toList, ':' :: ' ' :: decimal n) := by
      have hcut : "Content-Length: ".toList ++ decimal n
          = "Content-Length".toList ++ ':' :: ' ' :: decimal n := rfl
      have hno : ∀ c ∈ "Content-Length".toList, decide (c ≠ ':') = true :=
        List.all_eq_true.mp (by decide +kernel)
      rw [hcut, List.span_eq_takeWhile_dropWhile, List.takeWhile_append_of_pos hno,
        List.dropWhile_append_of_pos hno]
      simp
    rw [splitOnce, hspan]
  have hname : eqIgnoreAsciiCase "Content-Length".toList contentLengthName = true := by
    decide +kernel
  simp only [announced, hsplit, Option.getD_some, hname, if_true, trim_decimal,
    parseUsize_decimal h]

theorem parseHead_lines {r : Response} (hstatus : r.status ∈ statuses)
    (hctype : r.ctype ∈ contentTypes) (hlen : r.body.length < 2 ^ 64) :
    parseHead (joinLines ['\r', '\n'] (statusLine r.status) (moreLines r))
      = ⟨"HTTP/1.1".toList, decimal r.status, r.body.length⟩ := by
  have hfirst : ∀ status ∈ statuses, '\r' ∉ statusLine status ∧
      (splitWhitespace (statusLine status)).headD [] = "HTTP/1.1".toList ∧
      (splitWhitespace (statusLine status)).getD 1 ['/'] = decimal status := by decide +kernel
  have htypes : ∀ ctype ∈ contentTypes,
      announced ("Content-Type: ".toList ++ ctype.toList) = none := by decide +kernel
  have hfixed : ∀ line ∈ fixedLines, announced line = none := by decide +kernel
  obtain ⟨hcr, hmethod, hpath⟩ := hfirst r.status hstatus
  have hsplit : splitLines (joinLines ['\r', '\n'] (statusLine r.status) (moreLines r))
      = (statusLine r.status, moreLines r) :=
    splitLines_joinLines hcr fun l hl hmem ↦
      ((headerLine_moreLines hctype l hl).2 '\r' hmem).2 rfl
  have hnone : fixedLines.filterMap announced = [] := List.filterMap_eq_nil_iff.mpr hfixed
  have hlast : lastContentLength (joinLines ['\r', '\n'] (statusLine r.status) (moreLines r))
      = r.body.length := by
    rw [lastContentLength, hsplit, moreLines, List.filterMap_cons_none (htypes _ hctype),
      List.filterMap_cons_some (announced_length hlen), hnone]
    rfl
  rw [← len_parseHead] at hlast
  rw [parseHead, hsplit] at hlast ⊢
  exact Head.mk.injEq .. ▸ ⟨hmethod, hpath, hlast⟩

/-! ## Responses of the endpoint -/

/-- The endpoint has no other responses. -/
structure Response.Standard (r : Response) : Prop where
  status : r.status ∈ statuses
  ctype : r.ctype ∈ contentTypes

theorem standard_of_mem {status : ℕ} {ctype : String} (hstatus : status ∈ statuses)
    (hctype : ctype ∈ contentTypes) (body : Bytes) :
    Response.Standard ⟨status, ctype, body⟩ := ⟨hstatus, hctype⟩

section

variable [Foreign]

open Foreign

def writeResp (r : Response) : Bytes := intoBytes (respHead r) ++ r.body

/-- The conversions agree with ASCII. -/
structure Ascii : Prop where
  intoBytes : ∀ t : Text, (∀ c ∈ t, c.toNat < 128) → Foreign.intoBytes t = asciiBytes t
  fromUtf8Lossy : ∀ t : Text, (∀ c ∈ t, c.toNat < 128) → Foreign.fromUtf8Lossy (asciiBytes t) = t

/-- The outcome is a standard response if it is one at all. -/
def Outcome.Standard (o : Outcome) : Prop := ∀ r, o = .reply r → r.Standard

omit [Foreign] in
theorem standard_reply {r : Response} (h : r.Standard) : (Outcome.reply r).Standard := by
  intro r' heq
  rw [← Outcome.reply.inj heq]
  exact h

omit [Foreign] in
theorem standard_plain {status : ℕ} (h : status ∈ statuses) (body : String) :
    (plain status body).Standard :=
  standard_reply (standard_of_mem h (by decide) _)

omit [Foreign] in
theorem standard_wait (name : Text) (slot : Slot) : (Outcome.wait name slot).Standard := nofun

theorem standard_getIce (rooms : Rooms) (name side : Text) : (getIce rooms name side).Standard := by
  rw [getIce]
  split
  · exact standard_plain (by decide) _
  · split_ifs
    · exact standard_reply (standard_of_mem (by decide) (by decide) _)
    · exact standard_reply (standard_of_mem (by decide) (by decide) _)
    · exact standard_plain (by decide) _

theorem standard_routeRoom (name : Text) (call : RoomCall) (body : Bytes) (rooms : Rooms) :
    (routeRoom name call body rooms).1.Standard := by
  cases call with
  | delete => exact standard_plain (by decide) _
  | putOffer => exact standard_plain (by decide) _
  | putAnswer => exact standard_plain (by decide) _
  | getOffer => exact standard_wait _ _
  | getAnswer => exact standard_wait _ _
  | postIce side =>
    rw [routeRoom]
    split_ifs
    · exact standard_plain (by decide) _
    · exact standard_plain (by decide) _
    · exact standard_plain (by decide) _
  | getIce side => exact standard_getIce rooms name side
  | unknown => exact standard_plain (by decide) _

omit [Foreign] in
theorem standard_routeRpc (node : Option SocketAddr) (now : ℕ) (arrivals : List (ℕ × Received))
    (body : Bytes) : (routeRpc node now arrivals body).Standard := by
  rcases node with _ | dest
  · exact standard_plain (by decide) _
  · rw [routeRpc]
    split_ifs
    · exact standard_plain (by decide) _
    · split
      · exact standard_reply (standard_of_mem (by decide) (by decide) _)
      · exact standard_plain (by decide) _

theorem standard_routeOffer (node : Option SocketAddr) (body : Bytes) :
    (routeOffer node body).Standard := by
  rcases node with _ | dest
  · exact standard_plain (by decide) _
  · rw [routeOffer]
    split
    · exact standard_plain (by decide) _
    · split
      · exact standard_reply (standard_of_mem (by decide) (by decide) _)
      · exact standard_reply (standard_of_mem (by decide) (by decide) _)

theorem standard_handleHttp (node : Option SocketAddr) (now : ℕ) (arrivals : List (ℕ × Received))
    (method path : Text) (body : Bytes) (rooms : Rooms) :
    (handleHttp node now arrivals method path body rooms).1.Standard := by
  rw [handleHttp, route]
  split_ifs
  · exact standard_plain (by decide) _
  · exact standard_reply (standard_of_mem (by decide) (by decide) _)
  · exact standard_routeRpc node now arrivals body
  · exact standard_routeOffer node body
  · split
    · exact standard_plain (by decide) _
    · exact standard_routeRoom _ _ body rooms

theorem standard_takeText {rooms : Rooms} {name : Text} {slot : Slot} {deadline now : ℕ}
    {r : Response} (h : takeText rooms name slot deadline now = some r) : r.Standard := by
  rw [takeText] at h
  split_ifs at h
  · rw [← Option.some.inj h]
    exact standard_of_mem (by decide) (by decide) _
  · rw [← Option.some.inj h]
    exact standard_of_mem (by decide) (by decide) _

theorem Server.standard_run (node : Option SocketAddr) (es : List Event) :
    ∀ x ∈ (Server.run node es).responses, x.2.Standard := by
  induction es using List.reverseRecOn with
  | nil => exact List.forall_mem_nil _
  | append_singleton es e ih =>
    rw [Server.run_concat, Server.step]
    split
    · rename_i method path body arrivals _
      have hout := standard_handleHttp node e.now arrivals method path body
        (Server.run node es).rooms
      split
      · rename_i r rooms heq
        rw [heq] at hout
        exact List.forall_mem_append.mpr ⟨ih, List.forall_mem_singleton.mpr (hout r rfl)⟩
      · exact ih
    · split
      · exact ih
      · split
        · exact ih
        · rename_i htake
          exact List.forall_mem_append.mpr
            ⟨ih, List.forall_mem_singleton.mpr (standard_takeText htake)⟩

/-! ## Reading a response -/

omit [Foreign] in
theorem headerLine_statusLine {status : ℕ} (h : status ∈ statuses) :
    HeaderLine (statusLine status) ∧ (statusLine status).length ≤ 40 := by
  have hall : ∀ status ∈ statuses,
      HeaderLine (statusLine status) ∧ (statusLine status).length ≤ 40 := by decide +kernel
  exact hall status h

omit [Foreign] in
theorem ascii_respHead {r : Response} (hr : r.Standard) : ∀ c ∈ respHead r, c.toNat < 128 := by
  have hcrlf : ∀ c ∈ ['\r', '\n'], c.toNat < 128 :=
    List.forall_mem_cons.mpr ⟨by decide, List.forall_mem_singleton.mpr (by decide)⟩
  intro c hc
  rcases List.mem_append.mp hc with hlines | hend
  · obtain ⟨line, hline, hmem⟩ := List.mem_flatMap.mp hlines
    rcases List.mem_append.mp hmem with hin | hsep
    · rcases List.mem_cons.mp hline with rfl | hmore
      · exact ((headerLine_statusLine hr.status).1.2 c hin).1
      · exact ((headerLine_moreLines hr.ctype line hmore).2 c hin).1
    · exact hcrlf c hsep
  · exact hcrlf c hend

omit [Foreign] in
theorem plain_asciiBytes {line : Text} (h : HeaderLine line) : Plain 13 (asciiBytes line) := by
  refine ⟨fun hnil ↦ h.1 (List.map_eq_nil_iff.mp hnil), fun hmem ↦ ?_⟩
  obtain ⟨c, hc, heq⟩ := List.mem_map.mp hmem
  obtain ⟨hlow, hcr⟩ := h.2 c hc
  refine hcr (Char.toNat_inj.mp ?_)
  have hnat := congrArg UInt8.toNat heq
  rw [UInt8.toNat_ofNat', Nat.mod_eq_of_lt (by omega)] at hnat
  exact hnat

omit [Foreign] in
theorem length_lines_le {r : Response} (hr : r.Standard) (hlen : r.body.length < 2 ^ 64) :
    (joinLines ['\r', '\n'] (statusLine r.status) (moreLines r)).length ≤ 1000 := by
  have hstatus := (headerLine_statusLine hr.status).2
  have htypes : ∀ ctype ∈ contentTypes, ctype.toList.length ≤ 40 := by decide +kernel
  have hctype := htypes r.ctype hr.ctype
  have hdigits : (decimal r.body.length).length ≤ 20 :=
    (Nat.length_toDigits_le_iff (by decide) (by decide)).mpr (by omega)
  have hnames : "Content-Type: ".toList.length = 14 ∧ "Content-Length: ".toList.length = 16 := by
    decide +kernel
  have hfixed : ∀ line : Text, (joinLines ['\r', '\n'] line fixedLines).length
      ≤ line.length + 200 := by
    intro line
    rw [fixedLines, joinLines, List.length_append]
    exact Nat.add_le_add_left (by decide +kernel) _
  have hmore := hfixed ("Content-Length: ".toList ++ decimal r.body.length)
  rw [List.length_append, hnames.2] at hmore
  simp only [moreLines, joinLines, List.length_append, hnames.1, List.length_cons,
    List.length_nil]
  omega

theorem writeResp_eq (hascii : Ascii) {r : Response} (hr : r.Standard) :
    writeResp r = asciiBytes (joinLines ['\r', '\n'] (statusLine r.status) (moreLines r))
      ++ (doubleCrlf ++ r.body) := by
  have hhead : respHead r = joinLines ['\r', '\n'] (statusLine r.status) (moreLines r)
      ++ ['\r', '\n', '\r', '\n'] := by
    rw [respHead, flatMap_append_eq_joinLines, List.append_assoc]
    rfl
  rw [writeResp, hascii.intoBytes _ (ascii_respHead hr), hhead, asciiBytes, List.map_append,
    List.append_assoc]
  rfl

/-- A header of ASCII text that announces the body after it is read back with that body. -/
theorem readRequest_of_head (hascii : Ascii) {head : Text} {body : Bytes}
    {segments : List Segment} (hlow : ∀ c ∈ head, c.toNat < 128) (hsmall : head.length + 4 ≤ 65536)
    (hfind : findDoubleCrlf (asciiBytes head ++ (doubleCrlf ++ body)) = some head.length)
    (hbody : (parseHead head).len = body.length) (hne : ∀ s ∈ segments, s.bytes ≠ [])
    (hcut : joined segments = asciiBytes head ++ (doubleCrlf ++ body)) :
    readRequest fromUtf8Lossy (segments.map .data)
      = .ok ((parseHead head).method, (parseHead head).path, body) := by
  have hlength : (asciiBytes head).length = head.length := List.length_map _
  obtain ⟨buf, rest, hhead, hsplit, hbuf, hrest⟩ :=
    readHead_segments hfind hsmall [] hcut (Nat.succ_pos _) hne
  have hend : head.length + 4 ≤ buf.length := Occurrence.length_le_of_prefix_drop
    (List.cons_ne_nil _ _) (Occurrence.find_eq_some_iff.mp hbuf).1
  have htake : fromUtf8Lossy (buf.take head.length) = head := by
    rw [← List.take_append_of_le_length (by omega : head.length ≤ buf.length), hsplit, ← hlength,
      List.take_left, hascii.fromUtf8Lossy head hlow]
  obtain ⟨body', hread, hbytes⟩ := readBody_segments (parseHead head).len hrest
    (buf.drop (head.length + 4))
  have hdrop : (asciiBytes head ++ (doubleCrlf ++ body)).drop (head.length + 4) = body := by
    rw [← List.append_assoc]
    refine List.drop_left' ?_
    rw [List.length_append, hlength]
    rfl
  rw [← List.drop_append_of_le_length hend, hsplit, hdrop, hbody, List.take_length] at hbytes
  rw [readRequest_of_loops hhead hbuf (by rw [htake]; exact hread), htake, hbody, hbytes]

theorem readRequest_writeResp (hascii : Ascii) {r : Response} (hr : r.Standard)
    (hlen : r.body.length < 2 ^ 64) {segments : List Segment}
    (hne : ∀ s ∈ segments, s.bytes ≠ []) (hcut : joined segments = writeResp r) :
    readRequest fromUtf8Lossy (segments.map .data)
      = .ok ("HTTP/1.1".toList, decimal r.status, r.body) := by
  have hparse := parseHead_lines hr.status hr.ctype hlen
  have hsmall := length_lines_le hr hlen
  have hlow : ∀ c ∈ joinLines ['\r', '\n'] (statusLine r.status) (moreLines r),
      c.toNat < 128 := by
    intro c hc
    refine ascii_respHead hr c (List.mem_append_left _ ?_)
    rw [flatMap_append_eq_joinLines]
    exact List.mem_append_left _ hc
  have hbytes : asciiBytes (joinLines ['\r', '\n'] (statusLine r.status) (moreLines r))
      = joinLines [13, 10] (asciiBytes (statusLine r.status)) ((moreLines r).map asciiBytes) :=
    map_joinLines _ _ _ _
  have hfind := findDoubleCrlf_joinLines ((moreLines r).map asciiBytes)
    (plain_asciiBytes (headerLine_statusLine hr.status).1)
    (List.forall_mem_map.mpr fun l hl ↦ plain_asciiBytes (headerLine_moreLines hr.ctype l hl))
    r.body
  rw [← hbytes, asciiBytes, List.length_map] at hfind
  rw [readRequest_of_head hascii hlow (by omega) hfind (by rw [hparse]) hne
    (hcut.trans (writeResp_eq hascii hr)), hparse]

/-- **A response is read back whole.** Every response of every run, whatever body it carries and
however its bytes are cut into segments, is read by the reader of requests as its status line, its
status and exactly its body. -/
theorem Server.response_read_back (hascii : Ascii) (node : Option SocketAddr) (es : List Event)
    (conn : ℕ) (r : Response) (hr : (conn, r) ∈ (Server.run node es).responses)
    (hlen : r.body.length < 2 ^ 64) (segments : List Segment)
    (hne : ∀ s ∈ segments, s.bytes ≠ [])
    (hcut : (segments.map Segment.bytes).flatten = writeResp r) :
    readRequest fromUtf8Lossy (segments.map .data)
      = .ok ("HTTP/1.1".toList, decimal r.status, r.body) :=
  readRequest_writeResp hascii (Server.standard_run node es (conn, r) hr) hlen hne hcut

end

section

attribute [local instance] asciiForeign

theorem ascii_asciiForeign : Ascii where
  intoBytes _ _ := rfl
  fromUtf8Lossy t h := by
    change (t.map fun c ↦ UInt8.ofNat c.toNat).map (fun b ↦ Char.ofNat b.toNat) = t
    rw [List.map_map]
    refine (List.map_congr_left fun c hc ↦ ?_).trans t.map_id
    have hlow := h c hc
    change Char.ofNat (UInt8.ofNat c.toNat).toNat = c
    rw [UInt8.toNat_ofNat', Nat.mod_eq_of_lt (by omega), Char.ofNat_toNat]

/-- The answer to a request for a page that does not exist. -/
private def absent : Response := ⟨404, "text/plain", literal "not found"⟩

/-- It comes in two segments, the second from within the header on. -/
private def halves : List Segment :=
  [⟨(writeResp absent).take 30, by decide +kernel⟩, ⟨(writeResp absent).drop 30, by decide +kernel⟩]

/-- A page that does not exist, in two segments. -/
theorem Server.response_read_back_absent :
    readRequest Foreign.fromUtf8Lossy (halves.map .data)
      = .ok ("HTTP/1.1".toList, decimal absent.status, absent.body) := by
  have hrun : (0, absent) ∈ (Server.run none
      [⟨0, .request methodGet "/favicon.ico".toList [] []⟩]).responses := by decide +kernel
  exact Server.response_read_back ascii_asciiForeign none _ 0 absent hrun (by decide +kernel) halves
    (by decide +kernel) (by decide +kernel)

end

end Molia.Webrtc
