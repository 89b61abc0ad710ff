import SocModel.Chisel.Datapath
import SocModel.Lib.Rv32i

/-!
# Immediates

`ImmGen` and the table of its select, against the encodings of RV32I: what comes out for an encoded word is the
immediate that went in (`immGen_encode`), and what comes out for any word of a format, encoded with the word's
other fields, gives the word again (`immGen_inverts`).
-/

namespace SocModel.Chisel

open Rv32i (Fields Format)

/-- The select of a format. -/
def immSel : Format → ImmSel
  | .I => .iType
  | .S => .sType
  | .B => .bType
  | .U => .uType
  | .J => .jType

/-- `D_ImmSel` goes by the opcode as the formats do. -/
theorem dImmSel_eq {w : Word} {f : Format} (h : Format.ofOpcode (opcode w) = some f) : dImmSel w = immSel f := by
  unfold dImmSel
  generalize opcode w = op at h
  unfold Format.ofOpcode at h
  split_ifs at h with hI hS hB hU hJ
  · obtain rfl | rfl | rfl := hI <;> exact Option.some.inj h ▸ rfl
  · exact hS ▸ Option.some.inj h ▸ rfl
  · exact hB ▸ Option.some.inj h ▸ rfl
  · obtain rfl | rfl := hU <;> exact Option.some.inj h ▸ rfl
  · exact hJ ▸ Option.some.inj h ▸ rfl

/-! ## The bits behind an immediate -/

section

variable (w : Word) {i : Nat}

/-- The 12 bits of a store's offset. -/
def sBits : BitVec 12 := w.extractLsb' 31 1 ++ w.extractLsb' 25 6 ++ w.extractLsb' 8 4 ++ w.extractLsb' 7 1

/-- The 13 bits of a branch's offset. -/
def bBits : BitVec 13 :=
  w.extractLsb' 31 1 ++ w.extractLsb' 7 1 ++ w.extractLsb' 25 6 ++ w.extractLsb' 8 4 ++ 0#1

/-- The 21 bits of a jump's offset. -/
def jBits : BitVec 21 :=
  w.extractLsb' 31 1 ++ w.extractLsb' 12 8 ++ w.extractLsb' 20 1 ++ w.extractLsb' 21 10 ++ 0#1

theorem getElem_sBits (hi : i < 12) : (sBits w)[i] =
    if i < 1 then w.getLsbD 7 else if i < 5 then w.getLsbD (i + 7) else w.getLsbD (i + 20) := by
  rw [← BitVec.getLsbD_eq_getElem, sBits, BitVec.getLsbD_append, BitVec.getLsbD_append, BitVec.getLsbD_append]
  interval_cases i <;> simp

theorem getElem_bBits (hi : i < 13) : (bBits w)[i] =
    if i < 1 then false else if i < 5 then w.getLsbD (i + 7) else if i < 11 then w.getLsbD (i + 20)
    else if i < 12 then w.getLsbD 7 else w.getLsbD 31 := by
  rw [← BitVec.getLsbD_eq_getElem, bBits, BitVec.getLsbD_append, BitVec.getLsbD_append, BitVec.getLsbD_append, BitVec.getLsbD_append]
  interval_cases i <;> simp

theorem getElem_jBits (hi : i < 21) : (jBits w)[i] =
    if i < 1 then false else if i < 11 then w.getLsbD (i + 20) else if i < 12 then w.getLsbD 20
    else if i < 20 then w.getLsbD i else w.getLsbD 31 := by
  rw [← BitVec.getLsbD_eq_getElem, jBits, BitVec.getLsbD_append, BitVec.getLsbD_append, BitVec.getLsbD_append, BitVec.getLsbD_append]
  interval_cases i <;> simp

theorem getLsbD_immGen_uType (hi : i < 32) : (immGen .uType w).getLsbD i = if i < 12 then false else w.getLsbD i := by
  unfold immGen
  rw [BitVec.getLsbD_append]
  interval_cases i <;> simp

end

/-! ## Decoding an encoded word -/

section

variable (x : Fields) {imm : Word}

theorem immGen_encode_I (h : Format.I.Represents imm) : immGen .iType (Format.I.encode x imm) = imm := by
  have hbits : (Format.I.encode x imm).extractLsb' 20 12 = imm.setWidth 12 := by
    apply BitVec.eq_of_getLsbD_eq
    intro i hi
    interval_cases i <;> simp [Format.encode]
  rw [immGen, hbits, Rv32i.signExtend_setWidth imm (by decide) (by decide) h.1 h.2]

theorem immGen_encode_S (h : Format.S.Represents imm) : immGen .sType (Format.S.encode x imm) = imm := by
  have hbits : sBits (Format.S.encode x imm) = imm.setWidth 12 := by
    ext i hi
    rw [getElem_sBits _ hi]
    interval_cases i <;> simp [Format.encode]
  rw [immGen, ← sBits, hbits, Rv32i.signExtend_setWidth imm (by decide) (by decide) h.1 h.2]

theorem immGen_encode_B (h : Format.B.Represents imm) : immGen .bType (Format.B.encode x imm) = imm := by
  obtain ⟨hlo, hhi, heven⟩ := h
  have hzero : imm[0] = false := (Rv32i.getLsbD_zero_eq_false_iff imm).mpr heven
  have hbits : bBits (Format.B.encode x imm) = imm.setWidth 13 := by
    ext i hi
    rw [getElem_bBits _ hi]
    interval_cases i <;> simp [Format.encode, hzero]
  rw [immGen, ← bBits, hbits, Rv32i.signExtend_setWidth imm (by decide) (by decide) hlo hhi]

theorem immGen_encode_J (h : Format.J.Represents imm) : immGen .jType (Format.J.encode x imm) = imm := by
  obtain ⟨hlo, hhi, heven⟩ := h
  have hzero : imm[0] = false := (Rv32i.getLsbD_zero_eq_false_iff imm).mpr heven
  have hbits : jBits (Format.J.encode x imm) = imm.setWidth 21 := by
    ext i hi
    rw [getElem_jBits _ hi]
    interval_cases i <;> simp [Format.encode, hzero]
  rw [immGen, ← jBits, hbits, Rv32i.signExtend_setWidth imm (by decide) (by decide) hlo hhi]

theorem immGen_encode_U (h : Format.U.Represents imm) : immGen .uType (Format.U.encode x imm) = imm := by
  have hzero : imm.setWidth 12 = 0#12 := by
    apply BitVec.eq_of_toNat_eq
    rw [BitVec.toNat_setWidth]
    exact h
  apply BitVec.eq_of_getLsbD_eq
  intro i hi
  rw [getLsbD_immGen_uType _ hi]
  by_cases h12 : i < 12
  · have hbit := congrArg (fun v => v.getLsbD i) hzero
    simpa [h12, hi] using hbit.symm
  · rw [if_neg h12]
    interval_cases i <;> first | exact absurd (by decide) h12 | simp [Format.encode]

/-- What `ImmGen` makes of an encoded word is the immediate. -/
theorem immGen_encode {f : Format} (hop : Format.ofOpcode x.opcode = some f) (h : f.Represents imm) :
    immGen (dImmSel (f.encode x imm)) (f.encode x imm) = imm := by
  have hsel : Format.ofOpcode (opcode (f.encode x imm)) = some f := by
    rw [opcode, Format.opcode_encode, hop]
  rw [dImmSel_eq hsel]
  cases f with
  | I => exact immGen_encode_I x h
  | S => exact immGen_encode_S x h
  | B => exact immGen_encode_B x h
  | U => exact immGen_encode_U x h
  | J => exact immGen_encode_J x h

end

/-! ## Encoding what was decoded -/

section

variable (w : Word)

/-- Every output of `ImmGen` is an immediate of the format. -/
theorem represents_immGen (f : Format) : f.Represents (immGen (immSel f) w) := by
  cases f with
  | I => exact Rv32i.toInt_signExtend_bounds _ (by decide)
  | S => exact Rv32i.toInt_signExtend_bounds _ (by decide)
  | B =>
    obtain ⟨hlo, hhi⟩ := Rv32i.toInt_signExtend_bounds (bBits w) (by decide)
    exact ⟨hlo, hhi, Rv32i.toNat_signExtend_even _ (by decide) (getElem_bBits w (by decide))⟩
  | U =>
    have hzero : (immGen .uType w).setWidth 12 = 0#12 := by
      apply BitVec.eq_of_getLsbD_eq
      intro i hi
      rw [BitVec.getLsbD_setWidth, getLsbD_immGen_uType w (by omega), if_pos hi]
      simp
    have hnat := congrArg BitVec.toNat hzero
    rwa [BitVec.toNat_setWidth] at hnat
  | J =>
    obtain ⟨hlo, hhi⟩ := Rv32i.toInt_signExtend_bounds (jBits w) (by decide)
    exact ⟨hlo, hhi, Rv32i.toNat_signExtend_even _ (by decide) (getElem_jBits w (by decide))⟩

theorem encode_immGen_I : Format.I.encode (Format.fields w) (immGen .iType w) = w := by
  apply BitVec.eq_of_getLsbD_eq
  intro i hi
  rw [immGen]
  interval_cases i <;> simp [Format.encode, Format.fields, Rv32i.getElem_signExtend_low]

theorem encode_immGen_S : Format.S.encode (Format.fields w) (immGen .sType w) = w := by
  apply BitVec.eq_of_getLsbD_eq
  intro i hi
  rw [immGen, ← sBits]
  interval_cases i <;> simp [Format.encode, Format.fields, Rv32i.getElem_signExtend_low, getElem_sBits]

theorem encode_immGen_B : Format.B.encode (Format.fields w) (immGen .bType w) = w := by
  apply BitVec.eq_of_getLsbD_eq
  intro i hi
  rw [immGen, ← bBits]
  interval_cases i <;> simp [Format.encode, Format.fields, Rv32i.getElem_signExtend_low, getElem_bBits]

theorem encode_immGen_J : Format.J.encode (Format.fields w) (immGen .jType w) = w := by
  apply BitVec.eq_of_getLsbD_eq
  intro i hi
  rw [immGen, ← jBits]
  interval_cases i <;> simp [Format.encode, Format.fields, Rv32i.getElem_signExtend_low, getElem_jBits]

theorem encode_immGen_U : Format.U.encode (Format.fields w) (immGen .uType w) = w := by
  apply BitVec.eq_of_getLsbD_eq
  intro i hi
  have hbits : (immGen .uType w).extractLsb' 12 20 = w.extractLsb' 12 20 := by
    apply BitVec.eq_of_getLsbD_eq
    intro j hj
    rw [BitVec.getLsbD_extractLsb', getLsbD_immGen_uType w (by omega), if_neg (by omega), BitVec.getLsbD_extractLsb']
  rw [Format.encode, hbits]
  interval_cases i <;> simp [Format.fields]

end

/-- **`ImmGen` inverts the encodings of RV32I.** For every format, every immediate that it represents and every
setting of its other fields, the output for the encoded word is the immediate; and for every word of a format the
output is such an immediate, which with the word's other fields encodes to the word again. -/
theorem immGen_inverts (f : Format) :
    (∀ (x : Fields) (imm : Word), Format.ofOpcode x.opcode = some f → f.Represents imm →
      immGen (dImmSel (f.encode x imm)) (f.encode x imm) = imm) ∧
    ∀ w : Word, Format.ofOpcode (opcode w) = some f →
      f.Represents (immGen (dImmSel w) w) ∧ f.encode (Format.fields w) (immGen (dImmSel w) w) = w := by
  refine ⟨fun x imm hop h => immGen_encode x hop h, ?_⟩
  intro w hop
  rw [dImmSel_eq hop]
  refine ⟨represents_immGen w f, ?_⟩
  cases f with
  | I => exact encode_immGen_I w
  | S => exact encode_immGen_S w
  | B => exact encode_immGen_B w
  | U => exact encode_immGen_U w
  | J => exact encode_immGen_J w

/-- A branch back by 4096 bytes. -/
theorem immGen_inverts_branch :
    immGen (dImmSel (Format.B.encode ⟨0b1100011, 0, 0, 1, 2⟩ (-4096))) (Format.B.encode ⟨0b1100011, 0, 0, 1, 2⟩ (-4096)) =
      -4096 :=
  (immGen_inverts .B).1 _ _ (by decide) (by decide)

end SocModel.Chisel
