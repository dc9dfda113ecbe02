import Mathlib.Algebra.Order.Ring.Nat
import Mathlib.Data.List.DropRight
import Molia.Core.Types
import Molia.General.Occurrence

/-!
# Requests over a byte stream

The signalling endpoint reads an HTTP request from a TCP stream: the header up to an empty line, and
then as much of the body as the header announces. A call of `read` returns up to 512 bytes, and how
the stream is cut into such segments is up to the network. Two loops share one buffer, and bytes of
the body may come with the header.

The stream is the list of what the calls of `read` return; after the last one it has ended. The
lossy decoding of the header as UTF-8 is a parameter. Texts are lists of characters.

The request that is read depends on the bytes of the stream alone (`readRequest_segments`). The fact
behind it is `Occurrence.find_append`: the end of the header is found as soon as it has been
received, and at the place at which the whole stream has it.
-/

namespace Molia.Webrtc

/-! ## The stream -/

/-- The size of the buffer of a call. -/
def readSize : ℕ := 512

/-- The bytes of one call. -/
structure Segment where
  bytes : Bytes
  /-- They fit in the buffer. -/
  length_le : bytes.length ≤ readSize

inductive IoError where
  | invalidData (text : String)
  | socket (code : ℕ)
deriving DecidableEq

/-- What a call of `read` returns. No bytes mean the end of the stream. -/
inductive ReadResult where
  | data (segment : Segment)
  | failed (error : IoError)

/-! ## The header -/

/-- The empty line that ends the header: `\r\n\r\n`. -/
def doubleCrlf : Bytes := [13, 10, 13, 10]

def findDoubleCrlf (buf : Bytes) : Option ℕ := Occurrence.find doubleCrlf buf

/-- The characters with the Unicode property `White_Space`. -/
def isWhitespace (c : Char) : Bool :=
  let n := c.toNat
  decide (9 ≤ n ∧ n ≤ 13) || n == 0x20 || n == 0x85 || n == 0xA0 || n == 0x1680 ||
    decide (0x2000 ≤ n ∧ n ≤ 0x200A) || n == 0x2028 || n == 0x2029 || n == 0x202F ||
    n == 0x205F || n == 0x3000

/-- The first line of a text and the others, cut at `\r\n`. -/
def splitLines : List Char → List Char × List (List Char)
  | [] => ([], [])
  | '\r' :: '\n' :: rest =>
    let (line, lines) := splitLines rest
    ([], line :: lines)
  | c :: rest =>
    let (line, lines) := splitLines rest
    (c :: line, lines)

def splitWhitespace (text : List Char) : List (List Char) :=
  (text.splitOnP isWhitespace).filter (· ≠ [])

/-- What stands before and after the first occurrence of a character. -/
def splitOnce (c : Char) (text : List Char) : Option (List Char × List Char) :=
  match text.span (· ≠ c) with
  | (_, []) => none
  | (before, _ :: after) => some (before, after)

def eqIgnoreAsciiCase (a b : List Char) : Bool := a.map Char.toLower == b.map Char.toLower

def trim (text : List Char) : List Char := (text.dropWhile isWhitespace).rdropWhile isWhitespace

/-- The `parse` of a `usize`: decimal digits with an optional sign, below `2 ^ 64`. -/
def parseUsize (text : List Char) : Option ℕ :=
  let digits := match text with
    | '+' :: digits => digits
    | _ => text
  if digits = [] ∨ digits.all Char.isDigit = false then none
  else
    let n := digits.foldl (fun n c ↦ 10 * n + (c.toNat - '0'.toNat)) 0
    if n < 2 ^ 64 then some n else none

/-- `content-length` -/
def contentLengthName : List Char :=
  ['c', 'o', 'n', 't', 'e', 'n', 't', '-', 'l', 'e', 'n', 'g', 't', 'h']

/-- The length that a line of the header announces: that of a `Content-Length` line, zero if it
cannot be read; none for any other line. -/
def announced (line : List Char) : Option ℕ :=
  let (k, v) := (splitOnce ':' line).getD ([], [])
  if eqIgnoreAsciiCase k contentLengthName then some ((parseUsize (trim v)).getD 0) else none

/-- What the header says. -/
structure Head where
  method : List Char
  path : List Char
  len : ℕ
deriving DecidableEq

def parseHead (head : List Char) : Head :=
  let (req, lines) := splitLines head
  let reqParts := splitWhitespace req
  { method := reqParts.headD []
    path := reqParts.getD 1 ['/']
    len := lines.foldl (fun len line ↦ (announced line).getD len) 0 }

/-! ## The loops -/

/-- Read until the header has ended. -/
def readHead : List ReadResult → Bytes → Except IoError (Bytes × List ReadResult)
  | [], buf => .ok (buf, [])
  | .failed e :: _, _ => .error e
  | .data tmp :: stream, buf =>
    if tmp.bytes = [] then .ok (buf, stream)
    else
      let buf := buf ++ tmp.bytes
      if (findDoubleCrlf buf).isSome then .ok (buf, stream)
      else if buf.length > 64 * 1024 then .error (.invalidData "headers too large")
      else readHead stream buf

/-- Read until the body has the given length. -/
def readBody (len : ℕ) : List ReadResult → Bytes → Except IoError Bytes
  | [], body => .ok body
  | r :: stream, body =>
    if body.length < len then
      match r with
      | .failed e => .error e
      | .data tmp =>
        if tmp.bytes = [] then .ok body else readBody len stream (body ++ tmp.bytes)
    else .ok body

/-- The method, the path and the body of a request. -/
def readRequest (fromUtf8Lossy : Bytes → List Char) (stream : List ReadResult) :
    Except IoError (List Char × List Char × Bytes) := do
  let (buf, stream) ← readHead stream []
  match findDoubleCrlf buf with
  | none => .error (.invalidData "bad request")
  | some headerEnd =>
    let head := parseHead (fromUtf8Lossy (buf.take headerEnd))
    let body ← readBody head.len stream (buf.drop (headerEnd + 4))
    .ok (head.method, head.path, body.take head.len)

/-! ## The announced length -/

/-- The length that the last `Content-Length` line of a header announces. -/
def lastContentLength (head : List Char) : ℕ :=
  ((splitLines head).2.filterMap announced).getLast?.getD 0

theorem foldl_announced (lines : List (List Char)) (n : ℕ) :
    lines.foldl (fun len line ↦ (announced line).getD len) n
      = (lines.filterMap announced).getLast?.getD n := by
  induction lines generalizing n with
  | nil => rfl
  | cons line lines ih =>
    rw [List.foldl_cons, ih]
    rcases h : announced line with _ | len
    · rw [List.filterMap_cons_none h, Option.getD_none]
    · rw [List.filterMap_cons_some h, List.getLast?_cons, Option.getD_some, Option.getD_some]

theorem len_parseHead (head : List Char) : (parseHead head).len = lastContentLength head :=
  foldl_announced _ 0

/-! ## Segments -/

/-- The bytes of a stream of segments. -/
def joined (segments : List Segment) : Bytes := (segments.map Segment.bytes).flatten

theorem joined_cons (s : Segment) (segments : List Segment) :
    joined (s :: segments) = s.bytes ++ joined segments := rfl

variable {stream : Bytes} {segments : List Segment} {i : ℕ}

/-- The first loop ends once the header has been received, with the rest of the stream unread. -/
theorem readHead_segments (hfind : findDoubleCrlf stream = some i) (hsmall : i + 4 ≤ 65536)
    (buf : Bytes) (hcut : buf ++ joined segments = stream) (hbuf : buf.length < i + 4)
    (hne : ∀ s ∈ segments, s.bytes ≠ []) :
    ∃ buf' segments', readHead (segments.map .data) buf = .ok (buf', segments'.map .data) ∧
      buf' ++ joined segments' = stream ∧ findDoubleCrlf buf' = some i ∧
      ∀ s ∈ segments', s.bytes ≠ [] := by
  induction segments generalizing buf with
  | nil =>
    -- the stream has not ended before the header
    have hend := Occurrence.length_le_of_prefix_drop (List.cons_ne_nil _ _)
      (Occurrence.find_eq_some_iff.mp hfind).1
    have hlen : stream.length = buf.length := by
      rw [← hcut]
      exact congrArg List.length (List.append_nil buf)
    exact absurd hend (by rw [hlen]; exact not_le.mpr hbuf)
  | cons s segments ih =>
    rw [List.forall_mem_cons] at hne
    rw [joined_cons, ← List.append_assoc] at hcut
    have hsearch : findDoubleCrlf (buf ++ s.bytes)
        = if i + 4 ≤ (buf ++ s.bytes).length then some i else none := by
      rw [← hcut] at hfind
      exact Occurrence.find_append (List.cons_ne_nil _ _) hfind
    rw [List.map_cons, readHead, if_neg hne.1]
    dsimp only
    by_cases hfound : i + 4 ≤ (buf ++ s.bytes).length
    · rw [if_pos hfound] at hsearch
      rw [hsearch]
      exact ⟨_, segments, rfl, hcut, hsearch, hne.2⟩
    · rw [if_neg hfound] at hsearch
      have hroom : ¬(buf ++ s.bytes).length > 64 * 1024 := by omega
      have hopen : ¬(findDoubleCrlf (buf ++ s.bytes)).isSome = true := by
        rw [hsearch]
        exact Bool.false_ne_true
      rw [if_neg hopen, if_neg hroom]
      exact ih _ hcut (not_le.mp hfound) hne.2

theorem readBody_segments (len : ℕ) (hne : ∀ s ∈ segments, s.bytes ≠ []) (body : Bytes) :
    ∃ body', readBody len (segments.map .data) body = .ok body' ∧
      body'.take len = (body ++ joined segments).take len := by
  induction segments generalizing body with
  | nil => exact ⟨body, rfl, by rw [joined, List.map_nil, List.flatten_nil, List.append_nil]⟩
  | cons s segments ih =>
    rw [List.forall_mem_cons] at hne
    rw [List.map_cons, readBody]
    by_cases hmore : body.length < len
    · rw [if_pos hmore, if_neg hne.1, joined_cons, ← List.append_assoc]
      exact ih hne.2 (body ++ s.bytes)
    · rw [if_neg hmore]
      exact ⟨body, rfl, (List.take_append_of_le_length (not_lt.mp hmore)).symm⟩

theorem readRequest_of_loops {fromUtf8Lossy : Bytes → List Char} {reads rest : List ReadResult}
    {buf body : Bytes} (hhead : readHead reads [] = .ok (buf, rest))
    (hfind : findDoubleCrlf buf = some i)
    (hbody : readBody (parseHead (fromUtf8Lossy (buf.take i))).len rest (buf.drop (i + 4))
      = .ok body) :
    readRequest fromUtf8Lossy reads
      = .ok ((parseHead (fromUtf8Lossy (buf.take i))).method,
          (parseHead (fromUtf8Lossy (buf.take i))).path,
          body.take (parseHead (fromUtf8Lossy (buf.take i))).len) := by
  simp only [readRequest, hhead, bind, Except.bind, hfind, hbody]

/-- **Segments do not matter.** Where the first empty line of a stream ends within 65536 bytes, the
request is read off the stream however it is cut into segments: the method and the path from the
header, and of what follows it as many bytes as the last `Content-Length` line announces, or as
there are. -/
theorem readRequest_segments (fromUtf8Lossy : Bytes → List Char)
    (hat : doubleCrlf <+: stream.drop i) (hfirst : ∀ j < i, ¬doubleCrlf <+: stream.drop j)
    (hsmall : i + 4 ≤ 65536) (hne : ∀ s ∈ segments, s.bytes ≠ [])
    (hcut : (segments.map Segment.bytes).flatten = stream) :
    readRequest fromUtf8Lossy (segments.map .data)
      = .ok ((parseHead (fromUtf8Lossy (stream.take i))).method,
          (parseHead (fromUtf8Lossy (stream.take i))).path,
          (stream.drop (i + 4)).take (min (lastContentLength (fromUtf8Lossy (stream.take i)))
            (stream.length - (i + 4)))) := by
  have hfind : findDoubleCrlf stream = some i := Occurrence.find_eq_some_iff.mpr ⟨hat, hfirst⟩
  obtain ⟨buf, rest, hhead, hsplit, hbuf, hrest⟩ :=
    readHead_segments hfind hsmall [] hcut (Nat.succ_pos _) hne
  have hend : i + 4 ≤ buf.length := Occurrence.length_le_of_prefix_drop (List.cons_ne_nil _ _)
    (Occurrence.find_eq_some_iff.mp hbuf).1
  have htake : buf.take i = stream.take i := by
    rw [← hsplit, List.take_append_of_le_length (by omega)]
  obtain ⟨body, hbody, hbytes⟩ := readBody_segments
    (parseHead (fromUtf8Lossy (buf.take i))).len hrest (buf.drop (i + 4))
  rw [← List.drop_append_of_le_length hend, hsplit] at hbytes
  rw [readRequest_of_loops hhead hbuf hbody, hbytes, htake, len_parseHead, ← List.length_drop,
    ← List.take_eq_take_min]

/-! ## A request in two segments -/

/-- The decoding of ASCII. -/
private def ascii (b : Bytes) : List Char := b.map fun c ↦ Char.ofNat c.toNat

/-- `PUT /a`, a `Content-Length` of 2, and the first half of the empty line. -/
private def firstHalf : Segment where
  bytes := [80, 85, 84, 32, 47, 97, 13, 10, 67, 111, 110, 116, 101, 110, 116, 45, 76, 101, 110, 103,
    116, 104, 58, 32, 50, 13, 10]
  length_le := by decide

/-- The other half, and three bytes after it. -/
private def secondHalf : Segment where
  bytes := [13, 10, 120, 121, 122]
  length_le := by decide

/-- Two of the three bytes are the body. -/
theorem readRequest_segments_two :
    readRequest ascii [.data firstHalf, .data secondHalf]
      = .ok (['P', 'U', 'T'], ['/', 'a'], [120, 121]) := by
  have hat : doubleCrlf <+: (firstHalf.bytes ++ secondHalf.bytes).drop 25 := by decide
  have hne : ∀ s ∈ [firstHalf, secondHalf], s.bytes ≠ [] := by
    rintro s (_ | ⟨_, _ | ⟨_, ⟨⟩⟩⟩)
    · decide
    · decide
  refine (readRequest_segments ascii hat (by decide) (by decide) hne rfl).trans ?_
  decide +kernel

end Molia.Webrtc
