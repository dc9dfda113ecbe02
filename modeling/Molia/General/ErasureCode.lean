import Mathlib.FieldTheory.Finite.GaloisField
import Mathlib.LinearAlgebra.Lagrange

/-!
# Erasure codes

A systematic erasure code computes parity shards over data shards, leaves the data shards as they
are, and restores all shards when no more are lost than there are parity shards. `Lawful` says this
of a pair of functions, so that a program can be verified over any coder.

The law has a model. Interpolate the data shards, symbol by symbol, with a polynomial at the points
`v 0, …, v (d - 1)`, and let the parity be its values at further points: this is the code of Reed
and Solomon, for any field with enough elements. Two polynomials of degree below `d` that agree at
`d` points are equal, and this is all the law needs (`shards_ext`). The functions of the model are
not computable: the shards are restored by choosing a codeword that agrees with what is left.
-/

namespace ErasureCode

variable {S : Type*}

/-! ## The law -/

/-- What is left of the shards when those at the given positions are lost. -/
def erase (lost : Finset ℕ) (coded : List (List S)) : List (Option (List S)) :=
  coded.mapIdx fun i s ↦ if i ∈ lost then none else some s

/-- A number of shards of one length. -/
structure Uniform (n len : ℕ) (shards : List (List S)) : Prop where
  length_eq : shards.length = n
  width : ∀ s ∈ shards, s.length = len

/-- A coder for `d` data shards and `p` parity shards: over shards that are not empty, it leaves the
data shards as they are, and it restores what it has coded from any `d` shards. -/
def Lawful (d p : ℕ) (encode : List (List S) → Option (List (List S)))
    (reconstruct : List (Option (List S)) → Option (List (Option (List S)))) : Prop :=
  ∀ shards len, 0 < len → Uniform (d + p) len shards →
    ∃ coded, encode shards = some coded ∧ Uniform (d + p) len coded ∧
      coded.take d = shards.take d ∧
      ∀ lost : Finset ℕ, lost.card ≤ p → reconstruct (erase lost coded) = some (coded.map some)

theorem getElem?_erase (lost : Finset ℕ) (coded : List (List S)) (i : ℕ) :
    (erase lost coded)[i]? = coded[i]?.map fun s ↦ if i ∈ lost then none else some s :=
  List.getElem?_mapIdx

theorem getElem?_eq_of_erase_eq {lost lost' : Finset ℕ} {coded coded' : List (List S)}
    (h : erase lost coded = erase lost' coded') {i : ℕ} (hi : i ∉ lost) (hlt : i < coded.length) :
    coded[i]? = coded'[i]? := by
  have hat := congrArg (·[i]?) h
  simp only [getElem?_erase, List.getElem?_eq_getElem hlt, Option.map_some, if_neg hi] at hat
  obtain ⟨s, hs, hkept⟩ := Option.map_eq_some_iff.mp hat.symm
  rw [List.getElem?_eq_getElem hlt, hs]
  split_ifs at hkept
  exact hkept.symm

/-! ## The code of Reed and Solomon -/

section

variable {F : Type*} [Field F] (v : ℕ → F) (d : ℕ)

/-- The value at point `i` of the polynomial that has the values of `m` at the first `d` points. -/
noncomputable def codeword (m : ℕ → F) (i : ℕ) : F :=
  (Lagrange.interpolate (Finset.range d) v m).eval (v i)

variable {v d}

theorem codeword_of_lt (hv : Set.InjOn v (Finset.range d)) (m : ℕ → F) {i : ℕ} (hi : i < d) :
    codeword v d m i = m i :=
  Lagrange.eval_interpolate_at_node m hv (Finset.mem_range.mpr hi)

/-- Codewords that agree at `d` points are equal. -/
theorem codeword_ext (hv : Set.InjOn v (Finset.range d)) {m m' : ℕ → F} {s : Finset ℕ}
    (hs : Set.InjOn v s) (hcard : d ≤ s.card)
    (h : ∀ i ∈ s, codeword v d m i = codeword v d m' i) : codeword v d m = codeword v d m' := by
  have hdeg (m : ℕ → F) : (Lagrange.interpolate (Finset.range d) v m).degree < s.card := by
    refine (Lagrange.degree_interpolate_lt m hv).trans_le ?_
    rw [Finset.card_range]
    exact_mod_cast hcard
  have hpoly := Polynomial.eq_of_degrees_lt_of_eval_index_eq s hs (hdeg m) (hdeg m') h
  funext i
  rw [codeword, codeword, hpoly]

variable (v d) (e : S ≃ F)

/-- Symbol `j` of every shard. -/
def column (shards : List (List S)) (j k : ℕ) : F := ((shards.getD k [])[j]?.map e).getD 0

/-- The data shards with their parity. -/
noncomputable def encodeShards (n : ℕ) (shards : List (List S)) : List (List S) :=
  (List.range n).map fun i ↦
    (List.range (shards.headD []).length).map fun j ↦
      e.symm (codeword v d (column e shards j) i)

variable {v d e} {n len : ℕ} {shards : List (List S)}

theorem Uniform.length_headD (h : Uniform n len shards) (hn : 0 < n) :
    (shards.headD []).length = len := by
  obtain ⟨s, rest, rfl⟩ := List.exists_cons_of_length_pos (h.length_eq ▸ hn)
  exact h.width s List.mem_cons_self

theorem getElem?_encodeShards {i : ℕ} (hi : i < n) :
    (encodeShards v d e n shards)[i]? = some ((List.range (shards.headD []).length).map fun j ↦
      e.symm (codeword v d (column e shards j) i)) := by
  rw [encodeShards, List.getElem?_map, List.getElem?_range hi]
  rfl

theorem uniform_encodeShards (h : Uniform n len shards) (hn : 0 < n) :
    Uniform n len (encodeShards v d e n shards) where
  length_eq := by rw [encodeShards, List.length_map, List.length_range]
  width s hs := by
    obtain ⟨i, -, rfl⟩ := List.mem_map.mp hs
    rw [List.length_map, List.length_range, h.length_headD hn]

/-- The code is systematic. -/
theorem take_encodeShards (hv : Set.InjOn v (Finset.range d)) (h : Uniform n len shards)
    (hd : d ≤ n) (hn : 0 < n) : (encodeShards v d e n shards).take d = shards.take d := by
  apply List.ext_getElem?
  intro i
  rw [List.getElem?_take, List.getElem?_take]
  split_ifs with hi
  · have hlt : i < shards.length := h.length_eq.symm ▸ hi.trans_le hd
    have hwidth : shards[i].length = len := h.width _ (List.getElem_mem hlt)
    rw [getElem?_encodeShards (hi.trans_le hd), List.getElem?_eq_getElem hlt, Option.some_inj,
      h.length_headD hn]
    apply List.ext_getElem
    · rw [List.length_map, List.length_range, hwidth]
    · intro j hj hj'
      rw [List.getElem_map, List.getElem_range, codeword_of_lt hv _ hi, column,
        List.getD_eq_getElem?_getD, List.getElem?_eq_getElem hlt, Option.getD_some,
        List.getElem?_eq_getElem hj', Option.map_some, Option.getD_some, e.symm_apply_apply]
  · rfl

theorem shards_ext {p len' : ℕ} {shards' : List (List S)} (hd : 0 < d)
    (hv : Set.InjOn v (Finset.range (d + p))) (h : Uniform (d + p) len shards)
    (h' : Uniform (d + p) len' shards') {s : Finset ℕ} (hs : s ⊆ Finset.range (d + p))
    (hcard : d ≤ s.card)
    (hagree : ∀ i ∈ s, (encodeShards v d e (d + p) shards)[i]?
      = (encodeShards v d e (d + p) shards')[i]?) :
    encodeShards v d e (d + p) shards = encodeShards v d e (d + p) shards' := by
  have hn : 0 < d + p := Nat.add_pos_left hd p
  have hsub : (Finset.range d : Set ℕ) ⊆ Finset.range (d + p) := by
    exact_mod_cast Finset.range_subset_range.mpr (Nat.le_add_right d p)
  have hlists : ∀ i ∈ s, ((List.range len).map fun j ↦
      e.symm (codeword v d (column e shards j) i)) = (List.range len').map fun j ↦
        e.symm (codeword v d (column e shards' j) i) := by
    intro i hi
    have hlt := Finset.mem_range.mp (hs hi)
    have heq := hagree i hi
    rw [getElem?_encodeShards hlt, getElem?_encodeShards hlt, h.length_headD hn,
      h'.length_headD hn] at heq
    exact Option.some.inj heq
  -- one position gives the length, all of them the codewords
  obtain ⟨i₀, hi₀⟩ := Finset.card_pos.mp (hd.trans_le hcard)
  have hlen : len = len' := by
    have hlengths := congrArg List.length (hlists i₀ hi₀)
    rwa [List.length_map, List.length_map, List.length_range, List.length_range] at hlengths
  subst hlen
  have hword : ∀ j < len, codeword v d (column e shards j) = codeword v d (column e shards' j) := by
    intro j hj
    refine codeword_ext (hv.mono hsub) (hv.mono (by exact_mod_cast hs)) hcard fun i hi ↦ ?_
    exact e.symm.injective (List.map_inj_left.mp (hlists i hi) j (List.mem_range.mpr hj))
  rw [encodeShards, encodeShards, h.length_headD hn, h'.length_headD hn]
  refine List.map_congr_left fun i _ ↦ List.map_congr_left fun j hj ↦ ?_
  rw [hword j (List.mem_range.mp hj)]

variable (v d e) in
open Classical in
/-- Restore the codeword that the remains come from, if there is one. -/
noncomputable def restoreShards (p : ℕ) (remains : List (Option (List S))) :
    Option (List (Option (List S))) :=
  if h : ∃ shards, (∃ len, Uniform (d + p) len shards) ∧ ∃ lost : Finset ℕ, lost.card ≤ p ∧
      erase lost (encodeShards v d e (d + p) shards) = remains then
    some ((encodeShards v d e (d + p) h.choose).map some)
  else none

/-- **The law holds** for the code of Reed and Solomon, over any field with enough points. -/
theorem lawful_reedSolomon {p : ℕ} (hd : 0 < d) (hv : Set.InjOn v (Finset.range (d + p))) :
    Lawful d p (fun shards ↦ some (encodeShards v d e (d + p) shards)) (restoreShards v d e p) := by
  have hn : 0 < d + p := Nat.add_pos_left hd p
  have hsub : (Finset.range d : Set ℕ) ⊆ Finset.range (d + p) := by
    exact_mod_cast Finset.range_subset_range.mpr (Nat.le_add_right d p)
  intro shards len _ huniform
  refine ⟨_, rfl, uniform_encodeShards huniform hn,
    take_encodeShards (hv.mono hsub) huniform (Nat.le_add_right d p) hn, ?_⟩
  intro lost hlost
  have hex : ∃ shards', (∃ len, Uniform (d + p) len shards') ∧ ∃ lost' : Finset ℕ,
      lost'.card ≤ p ∧ erase lost' (encodeShards v d e (d + p) shards')
        = erase lost (encodeShards v d e (d + p) shards) :=
    ⟨shards, ⟨len, huniform⟩, lost, hlost, rfl⟩
  rw [restoreShards, dif_pos hex]
  obtain ⟨⟨len', huniform'⟩, lost', -, heq⟩ := hex.choose_spec
  -- the two codewords agree wherever nothing was lost
  have hsame : encodeShards v d e (d + p) shards = encodeShards v d e (d + p) hex.choose := by
    refine shards_ext hd hv huniform huniform' (s := Finset.range (d + p) \ lost)
      Finset.sdiff_subset ?_ fun i hi ↦ ?_
    · have hle := Finset.le_card_sdiff lost (Finset.range (d + p))
      rw [Finset.card_range] at hle
      omega
    · obtain ⟨hi, hkept⟩ := Finset.mem_sdiff.mp hi
      refine getElem?_eq_of_erase_eq heq.symm hkept ?_
      rw [(uniform_encodeShards huniform hn).length_eq]
      exact Finset.mem_range.mp hi
  exact congrArg (fun c ↦ some (c.map some)) hsame.symm

end

/-! ## Bytes -/

theorem nonempty_byte_equiv : Nonempty (UInt8 ≃ GaloisField 2 8) := by
  have hfin : Nonempty (GaloisField 2 8 ≃ Fin (2 ^ 8)) :=
    ⟨Finite.equivFinOfCardEq (GaloisField.card 2 8 (by decide))⟩
  obtain ⟨f⟩ := hfin
  let g : UInt8 ≃ Fin (2 ^ 8) :=
    { toFun := UInt8.toFin
      invFun := UInt8.ofFin
      left_inv := fun _ ↦ rfl
      right_inv := fun _ ↦ rfl }
  exact ⟨g.trans f.symm⟩

/-- A field element for every byte. -/
noncomputable def byteField : UInt8 ≃ GaloisField 2 8 := nonempty_byte_equiv.some

/-- The points of the code: the bytes in order. -/
noncomputable def bytePoint (i : ℕ) : GaloisField 2 8 := byteField (UInt8.ofNat i)

theorem injOn_bytePoint {n : ℕ} (hn : n ≤ 256) : Set.InjOn bytePoint (Finset.range n) := by
  intro i hi j hj h
  have hi' : i < 256 := (Finset.mem_range.mp hi).trans_le hn
  have hj' : j < 256 := (Finset.mem_range.mp hj).trans_le hn
  have hbyte := congrArg UInt8.toNat (byteField.injective h)
  rw [UInt8.toNat_ofNat', UInt8.toNat_ofNat'] at hbyte
  omega

end ErasureCode
