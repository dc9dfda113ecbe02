import Molia.Core.Crates
import Molia.Core.Words

/-!
# Datagram framing

A datagram is a fixed 12-byte header followed by one Protobuf body. The header carries a version, a
message type, flags, a service class, a correlation id and a stream id; integers are big-endian.

`encodeMessage` writes into a buffer of the caller, as the source does, and returns the buffer with
the number of bytes that count. The handlers use `message`, which is that prefix of a pool buffer.
-/

namespace Molia

/-! ## Flags, types and service classes -/

def flagResponse : UInt8 := 1
def flagProbe : UInt8 := 4

inductive MessageType where
  | ping
  | pong
  | negotiateReq
  | negotiateResp
  | findNodeReq
  | findNodeResp
  | findValueReq
  | findValueResp
  | storeReq
  | storeResp
  | announceProviderReq
  | announceProviderResp
  | punch
  | relay
  | traceHint
  | cacheHint
  | error
deriving DecidableEq

namespace MessageType

/-- The discriminant on the wire. -/
def toU8 : MessageType → UInt8
  | ping => 1
  | pong => 2
  | negotiateReq => 3
  | negotiateResp => 4
  | findNodeReq => 5
  | findNodeResp => 6
  | findValueReq => 7
  | findValueResp => 8
  | storeReq => 9
  | storeResp => 10
  | announceProviderReq => 11
  | announceProviderResp => 12
  | punch => 13
  | relay => 14
  | traceHint => 250
  | cacheHint => 251
  | error => 255

def fromU8 (v : UInt8) : Option MessageType :=
  if v = 1 then some ping
  else if v = 2 then some pong
  else if v = 3 then some negotiateReq
  else if v = 4 then some negotiateResp
  else if v = 5 then some findNodeReq
  else if v = 6 then some findNodeResp
  else if v = 7 then some findValueReq
  else if v = 8 then some findValueResp
  else if v = 9 then some storeReq
  else if v = 10 then some storeResp
  else if v = 11 then some announceProviderReq
  else if v = 12 then some announceProviderResp
  else if v = 13 then some punch
  else if v = 14 then some relay
  else if v = 250 then some traceHint
  else if v = 251 then some cacheHint
  else if v = 255 then some error
  else none

end MessageType

inductive Qos where
  | control
  | coordination
  | hints
deriving DecidableEq

namespace Qos

def toU8 : Qos → UInt8
  | control => 0
  | coordination => 1
  | hints => 2

/-- Every unknown class is read as `hints`. -/
def fromU8 (v : UInt8) : Qos :=
  if v = 0 then control else if v = 1 then coordination else hints

end Qos

/-! ## The header -/

structure Header where
  version : UInt8
  ty : MessageType
  flags : UInt8
  qos : Qos
  correlation : UInt32
  streamId : UInt32
deriving DecidableEq

namespace Header

def request (ty : MessageType) (qos : Qos) (correlation : UInt32) : Header :=
  { version := protocolVersion, ty, flags := 0, qos, correlation, streamId := 0 }

def response (ty : MessageType) (qos : Qos) (correlation : UInt32) : Header :=
  { version := protocolVersion, ty, flags := flagResponse, qos, correlation, streamId := 0 }

def isResponse (h : Header) : Bool := h.flags &&& flagResponse != 0

def isProbe (h : Header) : Bool := h.flags &&& flagProbe != 0

/-- The twelve bytes of a header. -/
def bytes (h : Header) : Bytes :=
  [h.version, h.ty.toU8, h.flags, h.qos.toU8] ++ u32ToBe h.correlation ++ u32ToBe h.streamId

/-- Write the header at the start of `out`. -/
def encode (h : Header) (out : Bytes) : Option (ℕ × Bytes) :=
  if out.length < headerLen then none else some (headerLen, h.bytes ++ out.drop headerLen)

def decode (buf : Bytes) : Option Header :=
  if buf.length < headerLen then none
  else if buf.headD 0 ≠ protocolVersion then none
  else
    match MessageType.fromU8 (buf.getD 1 0) with
    | none => none
    | some ty =>
      some
        { version := buf.headD 0
          ty
          flags := buf.getD 2 0
          qos := Qos.fromU8 (buf.getD 3 0)
          correlation := u32FromBe (buf.drop 4)
          streamId := u32FromBe (buf.drop 8) }

end Header

/-! ## Messages -/

section

variable {M : Type}

/-- Header and body at the start of `out`, if both the buffer and the path allow their length. -/
def encodeMessage (codec : Prost M) (header : Header) (body : M) (out : Bytes) :
    Option (ℕ × Bytes) :=
  match header.encode out with
  | none => none
  | some (n, out) =>
    let b := codec.encode body
    if n + b.length > out.length ∨ n + b.length > pmtuFloor then none
    else some (n + b.length, out.take n ++ b ++ out.drop (n + b.length))

def decodeBody (codec : Prost M) (buf : Bytes) : Option M :=
  if buf.length < headerLen then none else codec.decode (buf.drop headerLen)

/-- The size of a pool buffer. -/
def bufferSize : ℕ := 2048

/-- A buffer as the pool hands it out. -/
def poolBuffer : Bytes := List.replicate bufferSize 0

/-- A message encoded into a pool buffer, cut to its length. -/
def message (codec : Prost M) (header : Header) (body : M) : Option Bytes :=
  (encodeMessage codec header body poolBuffer).map fun r ↦ r.2.take r.1

end

/-! ## What a message decodes to -/

@[simp] theorem MessageType.fromU8_toU8 (ty : MessageType) : fromU8 ty.toU8 = some ty := by
  cases ty <;> rfl

@[simp] theorem Qos.fromU8_toU8 (q : Qos) : fromU8 q.toU8 = q := by
  cases q <;> rfl

@[simp] theorem Header.length_bytes (h : Header) : h.bytes.length = headerLen := rfl

theorem Header.decode_bytes_append {h : Header} (hversion : h.version = protocolVersion)
    (b : Bytes) : decode (h.bytes ++ b) = some h := by
  have hlong : ¬(h.bytes ++ b).length < headerLen := by
    rw [List.length_append, length_bytes]
    omega
  have hty : (h.bytes ++ b).getD 1 0 = h.ty.toU8 := rfl
  have hqos : (h.bytes ++ b).getD 3 0 = h.qos.toU8 := rfl
  have hhead : (h.bytes ++ b).headD 0 = h.version := rfl
  have hflags : (h.bytes ++ b).getD 2 0 = h.flags := rfl
  have hcorr : u32FromBe ((h.bytes ++ b).drop 4) = h.correlation :=
    u32FromBe_u32ToBe h.correlation (u32ToBe h.streamId ++ b)
  have hstream : u32FromBe ((h.bytes ++ b).drop 8) = h.streamId :=
    u32FromBe_u32ToBe h.streamId b
  rw [decode, if_neg hlong, hhead, if_neg (not_not.mpr hversion), hty, MessageType.fromU8_toU8]
  simp only [hqos, Qos.fromU8_toU8, hflags, hcorr, hstream]

section

variable {M : Type} (codec : Prost M) (h : Header)

theorem decodeBody_bytes_append (b : Bytes) : decodeBody codec (h.bytes ++ b) = codec.decode b := by
  have hlong : ¬(h.bytes ++ b).length < headerLen := by
    rw [List.length_append, Header.length_bytes]
    omega
  rw [decodeBody, if_neg hlong]
  rfl

variable {codec} in
theorem decodeBody_bytes_encode (hcodec : codec.RoundTrips) (body : M) :
    decodeBody codec (h.bytes ++ codec.encode body) = some body := by
  rw [decodeBody_bytes_append, hcodec]

/-- A message is written if and only if both the buffer and the path allow its length; what follows
it in the buffer stays. -/
theorem encodeMessage_eq (body : M) (out : Bytes) :
    encodeMessage codec h body out =
      if headerLen + (codec.encode body).length ≤ min out.length pmtuFloor then
        some (headerLen + (codec.encode body).length,
          h.bytes ++ codec.encode body ++ out.drop (headerLen + (codec.encode body).length))
      else none := by
  rw [encodeMessage, Header.encode]
  by_cases hshort : out.length < headerLen
  · rw [if_pos hshort, if_neg (by omega)]
  · have hlen : (h.bytes ++ out.drop headerLen).length = out.length := by
      rw [List.length_append, Header.length_bytes, List.length_drop]
      omega
    have htake : (h.bytes ++ out.drop headerLen).take headerLen = h.bytes := by
      rw [← h.length_bytes, List.take_left]
    have hdrop : (h.bytes ++ out.drop headerLen).drop (headerLen + (codec.encode body).length)
        = out.drop (headerLen + (codec.encode body).length) := by
      rw [← List.drop_drop, ← h.length_bytes, List.drop_left, List.drop_drop]
    rw [if_neg hshort]
    simp only [hlen, htake, hdrop]
    by_cases hfit : headerLen + (codec.encode body).length ≤ min out.length pmtuFloor
    · rw [if_pos hfit, if_neg (by omega)]
    · rw [if_neg hfit, if_pos (by omega)]

theorem message_eq (body : M) :
    message codec h body =
      if headerLen + (codec.encode body).length ≤ pmtuFloor then some (h.bytes ++ codec.encode body)
      else none := by
  have hpool : min poolBuffer.length pmtuFloor = pmtuFloor := by
    rw [poolBuffer, List.length_replicate]
    decide
  have hlen : headerLen + (codec.encode body).length = (h.bytes ++ codec.encode body).length := by
    rw [List.length_append, Header.length_bytes]
  rw [message, encodeMessage_eq, hpool]
  split_ifs
  · rw [Option.map_some, hlen, List.take_left]
  · rw [Option.map_none]

variable {codec h} {body : M} {pkt : Bytes}

theorem message_eq_some_iff :
    message codec h body = some pkt ↔
      headerLen + (codec.encode body).length ≤ pmtuFloor ∧ h.bytes ++ codec.encode body = pkt := by
  rw [message_eq, Option.ite_none_right_eq_some, Option.some.injEq]

theorem length_le_of_message (hmsg : message codec h body = some pkt) :
    pkt.length ≤ pmtuFloor := by
  obtain ⟨hfit, rfl⟩ := message_eq_some_iff.mp hmsg
  rw [List.length_append, Header.length_bytes]
  exact hfit

theorem decode_of_message (hversion : h.version = protocolVersion)
    (hmsg : message codec h body = some pkt) : Header.decode pkt = some h := by
  obtain ⟨-, rfl⟩ := message_eq_some_iff.mp hmsg
  exact Header.decode_bytes_append hversion _

theorem decodeBody_of_message (hcodec : codec.RoundTrips)
    (hmsg : message codec h body = some pkt) : decodeBody codec pkt = some body := by
  obtain ⟨-, rfl⟩ := message_eq_some_iff.mp hmsg
  exact decodeBody_bytes_encode h hcodec body

end

def featurePrivacyBlinding : UInt64 := 1
def featureErasureHints : UInt64 := 8

def featureDefault : UInt64 := featurePrivacyBlinding ||| featureErasureHints

def defaultCapabilities : Proto.Capabilities where
  version := 1
  bitmap := featureDefault
  maxMsgBytes := UInt32.ofNat pmtuFloor

end Molia
