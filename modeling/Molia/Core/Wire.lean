import Molia.Core.Crypto
import Molia.General.Protobuf

/-!
# The messages on the wire

The schema of the repository as codecs: for each message the fields it is written with, under the
numbers the schema gives them, and how it is put together from the fields that are read. The program
takes its codec from a crate; these are the reference the crate is held to, where a result depends
on the length of an encoding or on the round trip.

A number is cut to the width of its field when it is read; an enumeration is a number, a string its
UTF-8 bytes.
-/

namespace Molia

open Protobuf

/-- A codec from the fields of a message. -/
def Prost.ofFields {M : Type} (toFields : M → List Field) (ofFields : List Field → Option M) :
    Prost M where
  encode m := Protobuf.encode (toFields m)
  decode b := (Protobuf.parse b).bind ofFields

theorem Prost.roundTrips_ofFields {M : Type} {toFields : M → List Field}
    {ofFields : List Field → Option M} (h : ∀ m, ofFields (toFields m) = some m) :
    (Prost.ofFields toFields ofFields).RoundTrips := by
  intro m
  show (Protobuf.parse (Protobuf.encode (toFields m))).bind ofFields = some m
  rw [parse_encode, Option.bind_some, h]

/-- The two codecs write messages of the same length. -/
def Prost.SameLength {M : Type} (p q : Prost M) : Prop :=
  ∀ m, (p.encode m).length = (q.encode m).length

/-- A repeated field of messages. -/
def repeatedField {M : Type} (num : ℕ) (codec : Prost M) (ms : List M) : List Field :=
  ms.map fun m ↦ ⟨num, .bytes (codec.encode m)⟩

theorem length_encode_repeatedField {M : Type} {num : ℕ} (h : num < 16) (codec : Prost M)
    (ms : List M) : (Protobuf.encode (repeatedField num codec ms)).length
      = (ms.map fun m ↦ fieldLen (codec.encode m).length).sum := by
  simp only [repeatedField, length_encode_map, Field.length_encode_bytes h]

theorem length_encode_bytes32 {num : ℕ} (h : num < 16) (b : Bytes32) :
    (Protobuf.encode (bytesField num b.val)).length = 34 := by
  have hne : b.val ≠ [] := by
    intro hnil
    have hlen := b.length_val
    rw [hnil] at hlen
    cases hlen
  rw [length_encode_bytesField h, if_neg hne, b.length_val]
  rfl

/-- The messages of a repeated field. -/
def getRepeated {M : Type} (num : ℕ) (codec : Prost M) (fs : List Field) : Option (List M) :=
  (bytesAt num fs).mapM codec.decode

section

variable {M : Type} {num num' : ℕ} {codec : Prost M} {ms : List M}

@[simp] theorem bytesAt_repeatedField_self :
    bytesAt num (repeatedField num codec ms) = ms.map codec.encode := by
  simp [bytesAt, repeatedField]

@[simp] theorem bytesAt_repeatedField_of_ne (h : num' ≠ num) :
    bytesAt num (repeatedField num' codec ms) = [] := by
  simp [bytesAt, repeatedField, h]

@[simp] theorem uintsAt_repeatedField : uintsAt num (repeatedField num' codec ms) = [] := by
  simp [uintsAt, repeatedField]

theorem Prost.RoundTrips.mapM_decode (h : codec.RoundTrips) :
    (ms.map codec.encode).mapM codec.decode = some ms := by
  induction ms with
  | nil => rfl
  | cons m ms ih => simp [List.mapM_cons, h m, ih]

end

namespace Proto

def addrWire : Prost Addr :=
  .ofFields (fun a ↦ bytesField 1 a.multiaddr) fun fs ↦ some ⟨getBytes 1 fs⟩

def peerWire : Prost Peer :=
  .ofFields
    (fun p ↦ bytesField 1 p.peerId ++ repeatedField 2 addrWire p.addrs
      ++ uintField 3 p.rttMs.toNat ++ bytesField 4 p.x25519Pubkey)
    fun fs ↦ (getRepeated 2 addrWire fs).map fun addrs ↦
      { peerId := getBytes 1 fs
        addrs
        rttMs := UInt32.ofNat (getUint 3 fs)
        x25519Pubkey := getBytes 4 fs }

def pingWire : Prost Ping :=
  .ofFields
    (fun p ↦ uintField 1 p.nowUnixMs.toNat ++ bytesField 2 p.x25519Pubkey
      ++ bytesField 3 p.ed25519Pubkey ++ bytesField 4 p.bindingSig)
    fun fs ↦ some
      { nowUnixMs := UInt64.ofNat (getUint 1 fs)
        x25519Pubkey := getBytes 2 fs
        ed25519Pubkey := getBytes 3 fs
        bindingSig := getBytes 4 fs }

def pongWire : Prost Pong :=
  .ofFields
    (fun p ↦ uintField 1 p.nowUnixMs.toNat ++ bytesField 2 p.x25519Pubkey
      ++ bytesField 3 p.ed25519Pubkey ++ bytesField 4 p.bindingSig
      ++ repeatedField 5 addrWire p.observed.toList)
    fun fs ↦ (getRepeated 5 addrWire fs).map fun observed ↦
      { nowUnixMs := UInt64.ofNat (getUint 1 fs)
        x25519Pubkey := getBytes 2 fs
        ed25519Pubkey := getBytes 3 fs
        bindingSig := getBytes 4 fs
        observed := observed.getLast? }

def findNodeReqWire : Prost FindNodeReq :=
  .ofFields (fun r ↦ bytesField 1 r.targetId ++ uintField 2 r.limit.toNat)
    fun fs ↦ some { targetId := getBytes 1 fs, limit := UInt32.ofNat (getUint 2 fs) }

def findNodeRespWire : Prost FindNodeResp :=
  .ofFields (fun r ↦ repeatedField 1 peerWire r.peers) fun fs ↦
    (getRepeated 1 peerWire fs).map FindNodeResp.mk

def findValueReqWire : Prost FindValueReq :=
  .ofFields (fun r ↦ bytesField 1 r.key ++ uintField 2 r.providerLimit.toNat)
    fun fs ↦ some { key := getBytes 1 fs, providerLimit := UInt32.ofNat (getUint 2 fs) }

def providerWire : Prost Provider :=
  .ofFields (fun p ↦ bytesField 1 p.peerId ++ bytesField 2 p.metadata)
    fun fs ↦ some { peerId := getBytes 1 fs, metadata := getBytes 2 fs }

def providersWire : Prost (List Provider) :=
  .ofFields (repeatedField 1 providerWire) (getRepeated 1 providerWire)

/-- A member of a `oneof` is written even at its default. -/
def resultFields : Option FindValueResult → List Field
  | none => []
  | some (.record bytes) => [⟨1, .bytes bytes⟩]
  | some (.providers ps) => [⟨2, .bytes (providersWire.encode ps)⟩]

/-- The last member that was written, if any. -/
def getResult (fs : List Field) : Option (Option FindValueResult) :=
  match (fs.filter fun f ↦ f.num = 1 ∨ f.num = 2).getLast? with
  | some ⟨1, .bytes b⟩ => some (some (.record b))
  | some ⟨2, .bytes b⟩ => (providersWire.decode b).map fun ps ↦ some (.providers ps)
  | some _ => none
  | none => some none

def findValueRespWire : Prost FindValueResp :=
  .ofFields (fun r ↦ resultFields r.result ++ repeatedField 3 peerWire r.closerPeers) fun fs ↦
    match getResult fs, getRepeated 3 peerWire fs with
    | some result, some closerPeers => some { result, closerPeers }
    | _, _ => none

def storeReqWire : Prost StoreReq :=
  .ofFields
    (fun r ↦ bytesField 1 r.record ++ bytesField 2 r.admissionToken ++ bytesField 3 r.costStamp)
    fun fs ↦ some
      { record := getBytes 1 fs, admissionToken := getBytes 2 fs, costStamp := getBytes 3 fs }

def StoreCode.number : StoreCode → ℕ
  | ok => 0
  | rejected => 1
  | tooLarge => 2
  | invalid => 3

/-- An unknown number is read as the default. -/
def StoreCode.ofNumber : ℕ → StoreCode
  | 1 => rejected
  | 2 => tooLarge
  | 3 => invalid
  | _ => ok

def storeRespWire : Prost StoreResp :=
  .ofFields (fun r ↦ uintField 1 r.code.number ++ bytesField 2 r.reason.toUTF8.toList) fun fs ↦
    (String.fromUTF8? ⟨(getBytes 2 fs).toArray⟩).map fun reason ↦
      { code := .ofNumber (getUint 1 fs), reason }

def recordWire : Prost Record :=
  .ofFields
    (fun r ↦ bytesField 1 r.key ++ bytesField 2 r.value ++ uintField 3 r.sequence.toNat
      ++ uintField 4 r.ttlSecs.toNat ++ uintField 5 r.notBeforeUnix.toNat
      ++ bytesField 6 r.ownerPubkey ++ bytesField 7 r.signature ++ bytesField 8 r.validators
      ++ uintField 9 r.kind.toNat ++ bytesField 10 r.ns ++ bytesField 11 r.salt)
    fun fs ↦ some
      { key := getBytes 1 fs
        value := getBytes 2 fs
        sequence := UInt64.ofNat (getUint 3 fs)
        ttlSecs := UInt64.ofNat (getUint 4 fs)
        notBeforeUnix := UInt64.ofNat (getUint 5 fs)
        ownerPubkey := getBytes 6 fs
        signature := getBytes 7 fs
        validators := getBytes 8 fs
        kind := UInt32.ofNat (getUint 9 fs)
        ns := getBytes 10 fs
        salt := getBytes 11 fs }

def punchWire : Prost Punch :=
  .ofFields
    (fun p ↦ bytesField 1 p.targetId ++ bytesField 2 p.fromId
      ++ repeatedField 3 addrWire p.candidates)
    fun fs ↦ (getRepeated 3 addrWire fs).map fun candidates ↦
      { targetId := getBytes 1 fs, fromId := getBytes 2 fs, candidates }

def relayWire : Prost Relay :=
  .ofFields
    (fun r ↦ bytesField 1 r.destId ++ bytesField 2 r.fromId ++ bytesField 3 r.payload)
    fun fs ↦ some { destId := getBytes 1 fs, fromId := getBytes 2 fs, payload := getBytes 3 fs }

/-! ## Round trips -/

theorem roundTrips_addrWire : addrWire.RoundTrips := by
  refine Prost.roundTrips_ofFields fun a ↦ ?_
  simp [getBytes]

theorem roundTrips_peerWire : peerWire.RoundTrips := by
  refine Prost.roundTrips_ofFields fun p ↦ ?_
  simp [getBytes, getUint, getRepeated, roundTrips_addrWire.mapM_decode]

theorem roundTrips_providerWire : providerWire.RoundTrips := by
  refine Prost.roundTrips_ofFields fun p ↦ ?_
  simp [getBytes]

theorem roundTrips_providersWire : providersWire.RoundTrips := by
  refine Prost.roundTrips_ofFields fun ps ↦ ?_
  simp [getRepeated, roundTrips_providerWire.mapM_decode]

theorem getResult_resultFields (r : Option FindValueResult) (ps : List Peer) :
    getResult (resultFields r ++ repeatedField 3 peerWire ps) = some r := by
  have hpeers : (repeatedField 3 peerWire ps).filter (fun f ↦ f.num = 1 ∨ f.num = 2) = [] := by
    simp [repeatedField]
  rw [getResult, List.filter_append, hpeers, List.append_nil]
  rcases r with _ | bytes | providers
  · rfl
  · rfl
  · show (providersWire.decode (providersWire.encode providers)).map _ = _
    rw [roundTrips_providersWire]
    rfl

theorem roundTrips_findValueRespWire : findValueRespWire.RoundTrips := by
  refine Prost.roundTrips_ofFields fun r ↦ ?_
  have hpeers : getRepeated 3 peerWire (resultFields r.result
      ++ repeatedField 3 peerWire r.closerPeers) = some r.closerPeers := by
    have hresult : bytesAt 3 (resultFields r.result) = [] := by
      rcases r.result with _ | bytes | providers
      · rfl
      · rfl
      · rfl
    rw [getRepeated, bytesAt_append, hresult, List.nil_append, bytesAt_repeatedField_self,
      roundTrips_peerWire.mapM_decode]
  simp only [getResult_resultFields, hpeers]

theorem roundTrips_recordWire : recordWire.RoundTrips := by
  refine Prost.roundTrips_ofFields fun r ↦ ?_
  simp [getBytes, getUint]

theorem roundTrips_storeReqWire : storeReqWire.RoundTrips := by
  refine Prost.roundTrips_ofFields fun r ↦ ?_
  simp [getBytes]

theorem roundTrips_punchWire : punchWire.RoundTrips := by
  refine Prost.roundTrips_ofFields fun p ↦ ?_
  simp [getBytes, getRepeated, roundTrips_addrWire.mapM_decode]

theorem roundTrips_relayWire : relayWire.RoundTrips := by
  refine Prost.roundTrips_ofFields fun r ↦ ?_
  simp [getBytes]

end Proto

/-! ## A concrete instance -/

namespace Sample

/-- One bit of the CRC-32 of the Ethernet polynomial, reflected. -/
def crcBit (c : UInt32) : UInt32 := if c &&& 1 = 1 then (c >>> 1) ^^^ 0xEDB88320 else c >>> 1

def crcByte (c : UInt32) (b : UInt8) : UInt32 :=
  let c := c ^^^ b.toUInt32
  crcBit (crcBit (crcBit (crcBit (crcBit (crcBit (crcBit (crcBit c)))))))

def crc32 (b : Bytes) : UInt32 := b.foldl crcByte 0xFFFFFFFF ^^^ 0xFFFFFFFF

/-- The decimal digits of a number. -/
def decimal (n : ℕ) : Bytes := (Nat.toDigits 10 n).map fun c ↦ c.val.toUInt8

/-- An IPv4 address and its port, in the form `a.b.c.d:port`. -/
def addrDisplay (a : SocketAddr) : Bytes :=
  match a.ip with
  | .v4 w x y z =>
    decimal w.toNat ++ [46] ++ decimal x.toNat ++ [46] ++ decimal y.toNat ++ [46]
      ++ decimal z.toNat ++ [58] ++ decimal a.port.toNat
  | .v6 _ => []

/-- The value of a decimal number without superfluous zeros, below a bound. -/
def readDecimal (bound : ℕ) (b : Bytes) : Option ℕ :=
  let n := b.foldl (fun n d ↦ 10 * n + (d.toNat - 48)) 0
  if b = decimal n ∧ n < bound then some n else none

/-- An IPv4 address and its port. -/
def addrParse (b : Bytes) : Option SocketAddr :=
  match b.splitOn 58 with
  | [ip, port] =>
    match ip.splitOn 46 with
    | [w, x, y, z] => do
      let w ← readDecimal 256 w
      let x ← readDecimal 256 x
      let y ← readDecimal 256 y
      let z ← readDecimal 256 z
      let port ← readDecimal 65536 port
      some (.ofV4 (UInt8.ofNat w) (UInt8.ofNat x) (UInt8.ofNat y) (UInt8.ofNat z)
        (UInt16.ofNat port))
    | _ => none
  | _ => none

/-- An Ed25519 public key with its BLAKE3 hash, an X25519 public key, and the signature that binds
the two keys. -/
structure KeyData where
  publicKey : Bytes32
  hash : Bytes32
  x25519 : Bytes32
  binding : Bytes

/-- The nodes of the examples. -/
inductive Party where
  | first
  | second
  | third
deriving DecidableEq

def parties : List Party := [.first, .second, .third]

/-- The X25519 secret of a node. -/
def Party.secret : Party → Bytes32
  | .first => Bytes32.fill 1
  | .second => Bytes32.fill 2
  | .third => Bytes32.fill 3

def keyData : Party → KeyData
  | .first =>
    { publicKey := ownerPublic
      hash := ownerHash
      x25519 := ⟨[164, 224, 146, 146, 182, 81, 194, 120, 185, 119, 44, 86, 159, 95, 169,
        187, 19, 217, 6, 180, 106, 182, 140, 157, 249, 220, 43, 68, 9, 248, 162, 9], rfl⟩
      binding := [201, 76, 207, 103, 251, 71, 243, 6, 15, 25, 112, 233, 204, 174, 193, 20, 93,
        187, 177, 26, 151, 162, 151, 58, 157, 76, 151, 221, 175, 239, 5, 9, 28, 69, 244, 159,
        136, 74, 244, 71, 123, 206, 125, 6, 180, 104, 90, 223, 88, 10, 184, 208, 191, 73, 253,
        226, 168, 164, 149, 168, 213, 80, 143, 10] }
  | .second =>
    { publicKey := ⟨[61, 64, 23, 195, 232, 67, 137, 90, 146, 183, 10, 167, 77, 27, 126,
        188, 156, 152, 44, 207, 46, 196, 150, 140, 192, 205, 85, 241, 42, 244, 102, 12], rfl⟩
      hash := ⟨[16, 39, 224, 53, 178, 107, 96, 93, 198, 212, 183, 141, 7, 220, 41, 102, 15,
        204, 52, 152, 181, 152, 162, 229, 124, 78, 107, 27, 103, 58, 30, 149], rfl⟩
      x25519 := ⟨[206, 141, 58, 209, 204, 182, 51, 236, 123, 112, 193, 120, 20, 165, 199,
        110, 205, 2, 150, 133, 5, 13, 52, 71, 69, 186, 5, 135, 14, 88, 125, 89], rfl⟩
      binding := [191, 216, 137, 119, 234, 164, 22, 117, 206, 98, 142, 139, 96, 180, 47, 99,
        215, 228, 235, 197, 83, 163, 66, 12, 38, 44, 197, 121, 138, 92, 230, 102, 127, 82, 104,
        45, 254, 217, 230, 17, 12, 251, 132, 110, 84, 177, 150, 93, 15, 101, 67, 242, 22, 11,
        72, 138, 124, 5, 192, 129, 63, 219, 144, 11] }
  | .third =>
    { publicKey := ⟨[252, 81, 205, 142, 98, 24, 161, 163, 141, 164, 126, 208, 2, 48, 240,
        88, 8, 22, 237, 19, 186, 51, 3, 172, 93, 235, 145, 21, 72, 144, 128, 37], rfl⟩
      hash := ⟨[132, 96, 108, 37, 200, 165, 167, 80, 7, 155, 218, 74, 101, 124, 172, 59,
        239, 147, 49, 151, 188, 210, 128, 136, 121, 208, 218, 185, 136, 98, 20, 6], rfl⟩
      x25519 := ⟨[93, 254, 221, 59, 107, 212, 127, 111, 162, 142, 225, 93, 150, 157, 91,
        176, 234, 83, 119, 77, 72, 139, 218, 249, 223, 28, 110, 1, 36, 179, 239, 34], rfl⟩
      binding := [204, 252, 204, 205, 29, 137, 19, 6, 69, 154, 22, 202, 94, 238, 142, 5, 143,
        44, 173, 102, 213, 148, 3, 90, 84, 128, 148, 181, 3, 106, 14, 189, 13, 141, 111, 206,
        253, 99, 97, 141, 99, 57, 96, 68, 186, 229, 171, 54, 40, 50, 107, 251, 172, 19, 48, 37,
        207, 128, 193, 250, 249, 125, 24, 2] }

/-- The message that binds the keys of a node. -/
def bindingOf (i : Party) : Bytes :=
  bindingMessage (keyData i).publicKey.val (keyData i).x25519.val

def nodeBlake3 (b : Bytes) : Bytes32 :=
  match parties.find? fun i ↦ (keyData i).publicKey.val = b with
  | some i => (keyData i).hash
  | none => blake3 b

/-- The record signatures of `verify`, and the bindings. -/
def nodeVerify (pk : Bytes32) (msg sig : Bytes) : Bool :=
  verify pk msg sig || parties.any fun i ↦
    pk = (keyData i).publicKey ∧ msg = bindingOf i ∧ sig = (keyData i).binding

def nodeSign (i : Party) (msg : Bytes) : Bytes :=
  if msg = bindingOf i then (keyData i).binding else []

def nodeX25519 (secret : Bytes32) : Bytes32 :=
  match parties.find? fun i ↦ secret = i.secret with
  | some i => (keyData i).x25519
  | none => Bytes32.fill 0

/-- The instance with the keys of three nodes, the codecs of the schema, CRC-32 and the text of IPv4
addresses. -/
@[reducible] def wireCrates : Crates :=
  { crates with
    blake3 := nodeBlake3
    verify := nodeVerify
    Keypair := Party
    keypairPublic := fun i ↦ (keyData i).publicKey
    sign := nodeSign
    x25519Public := nodeX25519
    crc32 := crc32
    addrDisplay := addrDisplay
    addrParse := addrParse
    record := Proto.recordWire
    ping := Proto.pingWire
    pong := Proto.pongWire
    findNodeReq := Proto.findNodeReqWire
    findNodeResp := Proto.findNodeRespWire
    findValueReq := Proto.findValueReqWire
    findValueResp := Proto.findValueRespWire
    storeReq := Proto.storeReqWire
    storeResp := Proto.storeRespWire
    punch := Proto.punchWire
    relay := Proto.relayWire }

-- the check value of CRC-32
example : crc32 [49, 50, 51, 52, 53, 54, 55, 56, 57] = 0xCBF43926 := by decide +kernel

example : addrParse (addrDisplay (.ofV4 127 0 0 1 4242)) = some (.ofV4 127 0 0 1 4242) := by
  decide +kernel

end Sample

end Molia
