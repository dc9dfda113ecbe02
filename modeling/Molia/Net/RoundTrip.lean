import Molia.Core.Wire
import Molia.Net.Codec

/-!
# Messages there and back

What is written as a message is read back as it was, and what is read as a header is written back as
it was. The second direction has one exception: the service class of a header is a byte of which
only three values have a name, and every other one is read as the third.
-/

namespace Molia

/-! ## Headers that were read -/

/-- One comparison of the chain that reads a type. -/
private theorem MessageType.toU8_of_ite {v c : UInt8} {ty t : MessageType}
    {r : Option MessageType} (hc : t.toU8 = c) (hrest : r = some ty → ty.toU8 = v)
    (h : (if v = c then some t else r) = some ty) : ty.toU8 = v := by
  split_ifs at h with hv
  · rw [← Option.some.inj h, hc, hv]
  · exact hrest h

theorem MessageType.toU8_of_fromU8 {v : UInt8} {ty : MessageType} :
    fromU8 v = some ty → ty.toU8 = v := by
  rw [fromU8]
  -- one step for each of the seventeen types
  iterate 17 refine MessageType.toU8_of_ite rfl ?_
  intro h
  cases h

theorem Qos.toU8_fromU8 {v : UInt8} (h : v ≤ 2) : (fromU8 v).toU8 = v := by
  rw [fromU8]
  split_ifs with hzero hone
  · exact hzero.symm
  · exact hone.symm
  · apply UInt8.toNat_inj.mp
    rw [UInt8.le_iff_toNat_le] at h
    rw [← UInt8.toNat_inj] at hzero hone
    have htwo : v.toNat = 2 := by
      simp only [UInt8.reduceToNat] at h hzero hone
      omega
    rw [htwo]
    rfl

theorem take_four {d : Bytes} (h : 4 ≤ d.length) :
    d.take 4 = [d.headD 0, d.getD 1 0, d.getD 2 0, d.getD 3 0] := by
  obtain ⟨a, b, c, e, rest, rfl⟩ := exists_eq_cons_four h
  rfl

/-- A header that was read is written back, if its service class has a name. -/
theorem Header.bytes_of_decode {d : Bytes} {h : Header} (hd : decode d = some h)
    (hqos : d.getD 3 0 ≤ 2) : h.bytes = d.take headerLen := by
  rw [decode] at hd
  split_ifs at hd with hshort hversion
  split at hd
  · cases hd
  · rename_i ty hty
    have hlen : 12 ≤ d.length := not_lt.mp hshort
    have hcorr : 4 ≤ (d.drop 4).length := by
      rw [List.length_drop]
      omega
    have hstream : 4 ≤ (d.drop 8).length := by
      rw [List.length_drop]
      omega
    have hfields := take_four (show 4 ≤ d.length by omega)
    have hsplit : d.take 12 = d.take 4 ++ (d.drop 4).take 4 ++ (d.drop 8).take 4 := by
      rw [← List.take_add, ← List.take_add]
    rw [← Option.some.inj hd]
    change [d.headD 0, ty.toU8, d.getD 2 0, (Qos.fromU8 (d.getD 3 0)).toU8]
      ++ u32ToBe (u32FromBe (d.drop 4)) ++ u32ToBe (u32FromBe (d.drop 8)) = d.take 12
    rw [MessageType.toU8_of_fromU8 hty, Qos.toU8_fromU8 hqos, u32ToBe_u32FromBe hcorr,
      u32ToBe_u32FromBe hstream, hsplit, hfields]

/-! ## Messages that were written -/

variable {M : Type} {codec : Prost M}

theorem exists_encodeMessage_iff (codec : Prost M) (h : Header) (body : M) (out : Bytes) :
    (∃ r, encodeMessage codec h body out = some r) ↔
      headerLen + (codec.encode body).length ≤ min out.length pmtuFloor := by
  rw [encodeMessage_eq]
  by_cases hfit : headerLen + (codec.encode body).length ≤ min out.length pmtuFloor
  · rw [if_pos hfit]
    exact iff_of_true ⟨_, rfl⟩ hfit
  · rw [if_neg hfit]
    exact iff_of_false (fun ⟨_, hr⟩ ↦ Option.some_ne_none _ hr.symm) hfit

theorem decode_encodeMessage (hcodec : codec.RoundTrips) {h : Header} {body : M} {out out' : Bytes}
    {n : ℕ} (hversion : h.version = protocolVersion)
    (hsome : encodeMessage codec h body out = some (n, out')) :
    n = headerLen + (codec.encode body).length ∧
      Header.decode (out'.take n) = some h ∧ decodeBody codec (out'.take n) = some body ∧
      out'.length = out.length ∧ out'.drop n = out.drop n := by
  have hlen : (h.bytes ++ codec.encode body).length
      = headerLen + (codec.encode body).length := by
    rw [List.length_append, Header.length_bytes]
  rw [encodeMessage_eq] at hsome
  obtain ⟨hfit, hr⟩ := Option.ite_none_right_eq_some.mp hsome
  obtain ⟨rfl, rfl⟩ := Prod.mk.inj (Option.some.inj hr)
  rw [← hlen] at hfit ⊢
  rw [List.take_left, List.drop_left]
  refine ⟨rfl, Header.decode_bytes_append hversion _, decodeBody_bytes_encode h hcodec body, ?_,
    rfl⟩
  rw [List.length_append, List.length_drop]
  omega

/-- **Round trips.** A message is written if and only if its length is within the buffer and the
path; then what stands in the buffer up to that length is read back as the header and the body, and
what follows stays. And a header that was read, with a service class that has a name, is written
back over any buffer as it was. -/
theorem message_round_trip {M : Type} {codec : Prost M} (hcodec : codec.RoundTrips) :
    (∀ (h : Header) (body : M) (out : Bytes), h.version = protocolVersion →
      ((∃ r, encodeMessage codec h body out = some r) ↔
        headerLen + (codec.encode body).length ≤ min out.length pmtuFloor) ∧
      ∀ n out', encodeMessage codec h body out = some (n, out') →
        n = headerLen + (codec.encode body).length ∧
          Header.decode (out'.take n) = some h ∧
          decodeBody codec (out'.take n) = some body ∧
          out'.length = out.length ∧ out'.drop n = out.drop n) ∧
    ∀ (d : Bytes) (h : Header), Header.decode d = some h → d.getD 3 0 ≤ 2 →
      ∀ out : Bytes, headerLen ≤ out.length →
        h.encode out = some (headerLen, d.take headerLen ++ out.drop headerLen) := by
  refine ⟨?_, ?_⟩
  · intro h body out hversion
    refine ⟨exists_encodeMessage_iff codec h body out, fun n out' hsome ↦ ?_⟩
    exact decode_encodeMessage hcodec hversion hsome
  · intro d h hd hqos out hout
    rw [Header.encode, if_neg (not_lt.mpr hout), Header.bytes_of_decode hd hqos]

/-- A relay frame of 86 bytes, in a buffer of 100 and in one of 80. -/
theorem message_round_trip_relay :
    let h := Header.request .relay .coordination 7
    let body : Proto.Relay := ⟨List.replicate 32 1, List.replicate 32 2, [3, 4, 5, 6]⟩
    (∃ r, encodeMessage Proto.relayWire h body (List.replicate 100 0) = some r) ∧
      ¬∃ r, encodeMessage Proto.relayWire h body (List.replicate 80 0) = some r := by
  intro h body
  have hround := (message_round_trip Proto.roundTrips_relayWire).1 h body
  exact ⟨(hround _ rfl).1.mpr (by decide), fun hr ↦ absurd ((hround _ rfl).1.mp hr) (by decide)⟩

end Molia
