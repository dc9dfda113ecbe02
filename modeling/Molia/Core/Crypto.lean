import Molia.Core.Crates

/-!
# Hashes, signatures and identities

Content keys are BLAKE3 hashes of values; the key of a named slot is the hash of the owner's
public key followed by a namespace and a salt, with nothing in between. The signed envelope of a
record is the byte string `recordBytes`, which covers the key, the value, the sequence, the time to
live and the not-before time, and no other field.

## Collisions

No function from byte strings to 32 bytes is injective, so injectivity of BLAKE3 is never assumed.
A result that needs two particular inputs not to collide says so with `NoCollision`.
-/

namespace Molia

variable [Crates]

open Crates

/-! ## Keys -/

def nodeIdFromPubkey (ed25519Pk : Bytes) : NodeId := ⟨blake3 ed25519Pk⟩

def hashValue (value : Bytes) : Key := ⟨blake3 value⟩

/-- The byte string whose hash is the key of a named slot. -/
def slotName (ownerPubkey ns salt : Bytes) : Bytes := ownerPubkey ++ ns ++ salt

def mutableKey (ownerPubkey ns salt : Bytes) : Key := ⟨blake3 (slotName ownerPubkey ns salt)⟩

/-- Two byte strings do not form a BLAKE3 collision. -/
def NoCollision (a b : Bytes) : Prop := blake3 a = blake3 b → a = b

omit [Crates] in
theorem slotName_owner_inj {a b ns ns' salt salt' : Bytes} (hlen : a.length = b.length)
    (h : slotName a ns salt = slotName b ns' salt') : a = b := by
  rw [slotName, slotName, List.append_assoc, List.append_assoc] at h
  exact (List.append_inj h hlen).1

/-! ## Signatures -/

/-- The decoding steps shared by all signature checks: a 32-byte key, a valid curve point, a valid
signature, and then the verification itself. -/
def verifySignature (pk msg sig : Bytes) : Bool :=
  match Bytes32.ofBytes pk with
  | none => false
  | some arr =>
    match publicKeyFromBytes arr with
    | none => false
    | some vk =>
      match signatureFromBytes sig with
      | none => false
      | some s => verify vk msg s

theorem verifySignature_eq {pk msg sig : Bytes} {arr : Bytes32} {vk : PublicKey} {s : Signature}
    (harr : Bytes32.ofBytes pk = some arr) (hkey : publicKeyFromBytes arr = some vk)
    (hsig : signatureFromBytes sig = some s) : verifySignature pk msg sig = verify vk msg s := by
  simp only [verifySignature, harr, hkey, hsig]

theorem length_of_verifySignature {pk msg sig : Bytes} (h : verifySignature pk msg sig = true) :
    pk.length = 32 := by
  rw [verifySignature] at h
  split at h
  · cases h
  · rename_i arr harr
    rw [Bytes32.ofBytes_eq_some_iff] at harr
    rw [harr, arr.length_val]

theorem verify_of_verifySignature {pk msg sig : Bytes} (h : verifySignature pk msg sig = true) :
    ∃ vk s, verify vk msg s = true := by
  rw [verifySignature] at h
  split at h
  · cases h
  · split at h
    · cases h
    · split at h
      · cases h
      · exact ⟨_, _, h⟩

/-- The tag that starts a binding message, `molia-wg-bind-v1`. -/
def bindingTag : Bytes := [109, 111, 108, 105, 97, 45, 119, 103, 45, 98, 105, 110, 100, 45, 118, 49]

def bindingMessage (ed25519Pk x25519Pk : Bytes) : Bytes := bindingTag ++ ed25519Pk ++ x25519Pk

def verifyBinding (ed25519Pk x25519Pk sig : Bytes) : Bool :=
  verifySignature ed25519Pk (bindingMessage ed25519Pk x25519Pk) sig

def recordBytes (key : Key) (value : Bytes) (sequence ttl nb : UInt64) : Bytes :=
  key.val.val ++ value ++ u64ToBe sequence ++ u64ToBe ttl ++ u64ToBe nb

omit [Crates] in
theorem length_recordBytes (key : Key) (value : Bytes) (sequence ttl nb : UInt64) :
    (recordBytes key value sequence ttl nb).length = 56 + value.length := by
  simp only [recordBytes, List.length_append, key.val.length_val, length_u64ToBe]
  omega

def verifyRecord (ownerPk : Bytes) (key : Key) (value : Bytes) (sequence ttl nb : UInt64)
    (sig : Bytes) : Bool :=
  verifySignature ownerPk (recordBytes key value sequence ttl nb) sig

def signRecord (signing : Keypair) (key : Key) (value : Bytes) (sequence ttl nb : UInt64) : Bytes :=
  sign signing (recordBytes key value sequence ttl nb)

/-! ## Proof of work -/

/-- The loop of `leading_zero_bits`. -/
def leadingZeroBits (hash : Bytes32) : ℕ := leadingZerosLoop hash.val 0

def costStamp (key : Key) (salt nonce : Bytes) : Bytes32 := blake3 (key.val.val ++ salt ++ nonce)

def verifyCostStamp (key : Key) (salt nonce : Bytes) (difficultyBits : UInt8) : Bool :=
  leadingZeroBits (costStamp key salt nonce) ≥ difficultyBits.toNat

def verifyEphemeralPow (ephemeralPub : Bytes32) (nonce : Bytes) (difficultyBits : UInt8) : Bool :=
  leadingZeroBits (blake3 (ephemeralPub.val ++ nonce)) ≥ difficultyBits.toNat

/-! ## Identities -/

/-- The long-term keys of a node. -/
structure Identity where
  signing : Keypair
  wgSecret : Bytes32

namespace Identity

def verifyingKey (i : Identity) : Bytes32 := keypairPublic i.signing

def nodeId (i : Identity) : NodeId := nodeIdFromPubkey i.verifyingKey.val

def wgPublic (i : Identity) : Bytes32 := x25519Public i.wgSecret

def bindingSignature (i : Identity) : Bytes :=
  sign i.signing (bindingMessage i.verifyingKey.val i.wgPublic.val)

end Identity

/-! ## A concrete instance

The inputs below carry the digests and signatures that BLAKE3 and Ed25519 give them, so that a
definition can be evaluated on a signed record. `Sample.crates` agrees with the foreign code on
these inputs; on any other it answers with a fixed digest and rejects the signature. -/

namespace Sample

/-- An Ed25519 public key. -/
def owner : Bytes :=
  [215, 90, 152, 1, 130, 177, 10, 183, 213, 75, 254, 211, 201, 100, 7, 58, 14, 225, 114, 243, 218,
    166, 35, 37, 175, 2, 26, 104, 247, 7, 81, 26]

def ownerPublic : Bytes32 := ⟨owner, rfl⟩

/-- The namespace `ns`. -/
def ns : Bytes := [110, 115]

/-- The salt `s`. -/
def salt : Bytes := [115]

/-- The BLAKE3 hash of `owner`, `ns` and `salt`. -/
def slotKey : Key :=
  ⟨⟨[3, 92, 198, 8, 70, 198, 150, 234, 206, 232, 52, 175, 190, 78, 67, 177, 213, 86, 67, 45, 8, 10,
    202, 98, 110, 206, 111, 168, 235, 15, 237, 15], rfl⟩⟩

/-- The BLAKE3 hash of the empty string. -/
def emptyKey : Key :=
  ⟨⟨[175, 19, 73, 185, 245, 249, 161, 166, 160, 64, 77, 234, 54, 220, 201, 73, 155, 203, 37, 201,
    173, 193, 18, 183, 204, 154, 147, 202, 228, 31, 50, 98], rfl⟩⟩

/-- The BLAKE3 hash of `owner`. -/
def ownerHash : Bytes32 :=
  ⟨[108, 49, 4, 18, 104, 244, 113, 96, 156, 121, 245, 242, 219, 204, 56, 228, 164, 171, 47, 77, 65,
    97, 9, 164, 224, 159, 207, 80, 253, 15, 0, 98], rfl⟩

/-- The owner's signature over the value `v` with sequence 1 and a day to live. -/
def sigOne : Bytes :=
  [18, 52, 75, 106, 50, 160, 1, 251, 154, 113, 160, 151, 79, 41, 30, 75, 243, 103, 71, 91, 62, 253,
    115, 202, 222, 218, 115, 2, 137, 190, 204, 35, 227, 9, 241, 27, 60, 219, 47, 98, 25, 106, 100,
    160, 225, 72, 173, 162, 97, 3, 192, 48, 156, 45, 82, 73, 238, 221, 196, 35, 151, 185, 5, 9]

/-- The owner's signature over the value `w` with sequence 2 and a day to live. -/
def sigTwo : Bytes :=
  [192, 236, 49, 194, 184, 193, 197, 71, 210, 95, 46, 254, 24, 208, 207, 204, 10, 180, 38, 29, 210,
    52, 99, 122, 185, 209, 137, 223, 104, 33, 214, 205, 164, 114, 87, 7, 211, 88, 32, 6, 240, 1, 69,
    219, 37, 157, 25, 161, 12, 92, 148, 187, 143, 1, 131, 16, 163, 17, 45, 148, 142, 74, 178, 8]

def blake3 (b : Bytes) : Bytes32 :=
  if b = [] then emptyKey.val
  else if b = slotName owner ns salt then slotKey.val
  else if b = owner then ownerHash
  else Bytes32.fill 0

/-- The signatures above, on the envelopes they were made for. -/
def verify (pk : Bytes32) (msg sig : Bytes) : Bool :=
  pk.val == owner &&
    ((msg == recordBytes slotKey [118] 1 86400 0 && sig == sigOne) ||
      (msg == recordBytes slotKey [119] 2 86400 0 && sig == sigTwo))

omit [Crates] in
theorem length_of_verify {pk : Bytes32} {msg sig : Bytes} (h : verify pk msg sig = true) :
    msg.length = 57 := by
  simp only [verify, Bool.and_eq_true, Bool.or_eq_true, beq_iff_eq] at h
  rcases h.2 with h | h
  · rw [h.1]
    rfl
  · rw [h.1]
    rfl

/-- A codec for the messages a sample run does not use. -/
def noCodec (M : Type) : Prost M := ⟨fun _ ↦ [], fun _ ↦ none⟩

/-- The instance. The tunnel never produces a packet and no message decodes; a run that needs
either extends it. -/
@[reducible] def crates : Crates where
  blake3 := blake3
  PublicKey := Bytes32
  Signature := Bytes
  Keypair := Unit
  publicKeyFromBytes := some
  signatureFromBytes b := if b.length = 64 then some b else none
  verify := verify
  keypairPublic _ := ownerPublic
  sign _ _ := []
  x25519Public := id
  crc32 _ := 0
  addrDisplay _ := []
  addrParse _ := none
  record := noCodec _
  ping := noCodec _
  pong := noCodec _
  negotiateResp := noCodec _
  findNodeReq := noCodec _
  findNodeResp := noCodec _
  findValueReq := noCodec _
  findValueResp := noCodec _
  storeReq := noCodec _
  storeResp := noCodec _
  announceProviderReq := noCodec _
  announceProviderResp := noCodec _
  error := noCodec _
  punch := noCodec _
  relay := noCodec _
  rsEncode _ _ shards := some shards
  Tunn := Unit
  tunnNew _ _ _ := ()
  tunnEncapsulate _ _ _ := (.done, ())
  tunnDecapsulate _ _ _ _ := (.done, ())
  tunnUpdateTimers _ _ := (.done, ())

end Sample

end Molia
