import Molia.Core.Ed25519
import Molia.Core.Words

/-!
# What a signature covers

The envelope of a record has no length fields. The key stands in front and takes 32 bytes, the three
numbers stand at the end and take eight bytes each, and the value is what remains between them; so
the envelope still determines all five. A signature that is valid for one message only is then valid
for one record only. Not every signature is of this kind: the check accepts a key of small order,
and under such a key a signature may be valid for every message.
-/

namespace Molia

/-- The envelope is read from both ends: the numbers off its end, the key off its front. -/
theorem recordBytes_inj {k k' : Key} {v v' : Bytes} {s s' t t' nb nb' : UInt64}
    (h : recordBytes k v s t nb = recordBytes k' v' s' t' nb') :
    k = k' ∧ v = v' ∧ s = s' ∧ t = t' ∧ nb = nb' := by
  have hwidth (m n : UInt64) : (u64ToBe m).length = (u64ToBe n).length := rfl
  obtain ⟨h, hnb⟩ := List.append_inj' h (hwidth nb nb')
  obtain ⟨h, ht⟩ := List.append_inj' h (hwidth t t')
  obtain ⟨h, hs⟩ := List.append_inj' h (hwidth s s')
  obtain ⟨hk, hv⟩ := List.append_inj h (k.val.length_val.trans k'.val.length_val.symm)
  have hkey : k = k' := by
    rw [← Option.some_inj, ← Key.fromBytes_val k, hk, Key.fromBytes_val k']
  exact ⟨hkey, hv, u64ToBe_inj hs, u64ToBe_inj ht, u64ToBe_inj hnb⟩

/-- **One record for a signature.** Envelopes that are equal belong to equal records; so a signature
that is valid for no more than one message verifies for no more than one record. -/
theorem signature_determines_record [Crates] :
    (∀ (k k' : Key) (v v' : Bytes) (s s' t t' nb nb' : UInt64),
      recordBytes k v s t nb = recordBytes k' v' s' t' nb' →
      k = k' ∧ v = v' ∧ s = s' ∧ t = t' ∧ nb = nb') ∧
    ∀ pk pk' sig : Bytes,
      (∀ msg msg', verifySignature pk msg sig = true → verifySignature pk' msg' sig = true →
        msg = msg') →
      ∀ (k k' : Key) (v v' : Bytes) (s s' t t' nb nb' : UInt64),
        verifyRecord pk k v s t nb sig = true → verifyRecord pk' k' v' s' t' nb' sig = true →
        k = k' ∧ v = v' ∧ s = s' ∧ t = t' ∧ nb = nb' := by
  refine ⟨?_, ?_⟩
  · intro k k' v v' s s' t t' nb nb' h
    exact recordBytes_inj h
  · intro pk pk' sig hone k k' v v' s s' t t' nb nb' hrec hrec'
    exact recordBytes_inj (hone _ _ hrec hrec')

section

open Sample

attribute [local instance] crates

/-- The first sample signature is valid for the envelope it was made for, and no other. -/
private theorem eq_of_verify_sigOne {msg : Bytes}
    (h : verifySignature owner msg sigOne = true) : msg = recordBytes slotKey [118] 1 86400 0 := by
  have hverify : Sample.verify ownerPublic msg sigOne = true := h
  have hne : (sigOne == sigTwo) = false := by decide
  simp only [Sample.verify, hne, Bool.and_false, Bool.or_false, Bool.and_eq_true, beq_iff_eq]
    at hverify
  exact hverify.2.1

/-- It verifies for one record. -/
theorem signature_determines_record_sample :
    verifyRecord owner slotKey [118] 1 86400 0 sigOne = true ∧
      ∀ (k : Key) (v : Bytes) (s t nb : UInt64), verifyRecord owner k v s t nb sigOne = true →
        k = slotKey ∧ v = [118] ∧ s = 1 ∧ t = 86400 ∧ nb = 0 := by
  have hsigned : verifyRecord owner slotKey [118] 1 86400 0 sigOne = true := by decide +kernel
  refine ⟨hsigned, fun k v s t nb hrec ↦ ?_⟩
  refine signature_determines_record.2 owner owner sigOne (fun msg msg' h h' ↦ ?_) k slotKey v [118]
    s 1 t 86400 nb 0 hrec hsigned
  rw [eq_of_verify_sigOne h, eq_of_verify_sigOne h']

end

attribute [local irreducible] Ed25519.publicKeyFromBytes Ed25519.signatureFromBytes Ed25519.verify

/-- The signature of the neutral element, under the key that is the neutral element. -/
private theorem verifyRecord_neutral (sha512 : Bytes → ℕ) (k : Key) (v : Bytes) (s t nb : UInt64) :
    letI := Ed25519.crates sha512
    verifyRecord Ed25519.neutralBytes.val k v s t nb Ed25519.neutralSig = true := by
  have hkey : Bytes32.ofBytes Ed25519.neutralBytes.val = some Ed25519.neutralBytes :=
    Bytes32.ofBytes_eq_some_iff.mpr rfl
  let _ := Ed25519.crates sha512
  exact (verifySignature_eq hkey Ed25519.publicKeyFromBytes_neutral
    Ed25519.signatureFromBytes_neutralSig).trans (Ed25519.verify_neutral sha512 _)

/-- It verifies for every record, whatever the hash. -/
theorem signature_determines_record_fails :
    ¬∃ sha512 : Bytes → ℕ, letI := Ed25519.crates sha512
      ∀ (pk sig : Bytes) (k k' : Key) (v v' : Bytes) (s s' t t' nb nb' : UInt64),
        verifyRecord pk k v s t nb sig = true → verifyRecord pk k' v' s' t' nb' sig = true →
        k = k' ∧ v = v' ∧ s = s' ∧ t = t' ∧ nb = nb' := by
  rintro ⟨sha512, hall⟩
  have hvalues := hall Ed25519.neutralBytes.val Ed25519.neutralSig Sample.slotKey Sample.slotKey
    [118] [119] 1 1 86400 86400 0 0 (verifyRecord_neutral sha512 ..)
    (verifyRecord_neutral sha512 ..)
  exact absurd hvalues.2.1 (by decide)

end Molia
