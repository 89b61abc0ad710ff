import Mathlib.Data.List.TakeWhile
import SocModel.Asm.Lines
import SocModel.Chisel.Immediate
import SocModel.Isa.Rv32

/-!
# Offsets

`parse_imm` takes a 12-bit immediate as a signed or as an unsigned number. The instructions with an immediate operand
extend its sign, `parse_mem` stores it as it is.

* `storesOffset_eq`, `storesImmediate_eq` : what the two kinds of instructions store;
* `OffsetAgrees` : both, and the hardware, make the same of a token;
* `offsetAgrees_iff` : that is so of the numbers below 2048.
-/

namespace SocModel.Asm

open Lib

/-- The 12-bit number in the low bits. -/
def low12 (v : Word) : Word := (v.extractLsb' 0 12).signExtend 32

/-- A load, a store or `JALR` stores `off` for the token `t` of its offset. -/
def StoresOffset (line : Nat) (t : CStr) (off : Word) : Prop :=
  ∃ i i' o1 o2 rest, formatOf i.op = .mem ∧ strtok ['('] o2 = some (t, rest) ∧
    parseOperands line i ⟨some o1, some o2, none, none⟩ = .ok i' ∧ i'.a3.imm = off

/-- An instruction with an immediate operand stores `v` for the token `t`. -/
def StoresImmediate (line : Nat) (t : CStr) (v : Word) : Prop :=
  ∃ i i' o1 o2, formatOf i.op = .rri ∧ parseOperands line i ⟨some o1, some o2, some t, none⟩ = .ok i' ∧
    i'.a3.imm = v

/-- What is stored for the offset `t`, which `parse_imm` reads as `v`, is the number in the low bits of `v`: the one
the instructions with an immediate operand store, and the one the hardware finds in the fields of both formats. -/
def OffsetAgrees (line : Nat) (t : CStr) (v : Word) : Prop :=
  ∀ off, StoresOffset line t off → off = low12 v ∧ (∀ alu, StoresImmediate line t alu → off = alu) ∧
    ∀ x, off = Chisel.immGen .iType (Rv32i.Format.I.encode x v) ∧
      off = Chisel.immGen .sType (Rv32i.Format.S.encode x v)

theorem parseImm_eq_ok {line bits : Nat} {t : CStr} {v : Word} (h : parseImm line t bits = .ok v) :
    t ≠ [] ∧ -2 ^ (bits - 1) ≤ (strtol 0 t).1 ∧ (strtol 0 t).1 ≤ 2 ^ bits - 1 ∧ v = BitVec.ofInt 32 (strtol 0 t).1 := by
  unfold parseImm at h
  simp only at h
  split at h
  · cases h
  next hc =>
  split at h
  · cases h
  next hr =>
  refine ⟨?_, by omega, by omega, (Except.ok.inj h).symm⟩
  rintro rfl
  exact hc (by decide)

/-- `parse_mem` stores what `parse_imm` reads. -/
theorem storesOffset_eq {line : Nat} {t : CStr} {v off : Word} (hv : parseImm line t 12 = .ok v)
    (h : StoresOffset line t off) : off = v := by
  obtain ⟨i, i', o1, o2, rest, hf, ht, hi, rfl⟩ := h
  rw [parseOperands_format, hf] at hi
  obtain ⟨r1, -, hi⟩ := Except.bind_eq_ok.mp hi
  obtain ⟨⟨r2, imm⟩, hm, hi⟩ := Except.bind_eq_ok.mp hi
  obtain rfl := Except.ok.inj hi
  unfold parseMem at hm
  rw [ht] at hm
  obtain ⟨w, hw, hm⟩ := Except.bind_eq_ok.mp hm
  obtain rfl : v = w := Except.ok.inj (hv.symm.trans hw)
  split at hm
  · cases hm
  · obtain ⟨reg, -, hm⟩ := Except.bind_eq_ok.mp hm
    exact (Prod.mk.inj (Except.ok.inj hm)).2.symm

/-- The sign extension of the assembler is right for what `parse_imm` takes. -/
theorem signextend_eq_low12 {v : Word} (h : -2048 ≤ v.toInt ∧ v.toInt ≤ 4095) : signextend v 12 = low12 v := by
  have hbit : v.getLsbD 11 = decide (v.toNat / 2048 % 2 = 1) := by
    rw [BitVec.getLsbD, Nat.testBit_eq_decide_div_mod_eq]
  unfold signextend
  split
  · next hset =>
    apply BitVec.eq_of_getLsbD_eq
    intro i hi
    have hmsb : v.getMsbD 20 = true := hset
    interval_cases i <;> simp [low12, hmsb, BitVec.getElem_signExtend]
  · next hclear =>
    have hv := BitVec.toInt_eq_toNat_cond v
    have hlt := v.isLt
    have hlow := toInt_signExtend_low v
    have hclear' : ¬ v.toNat / 2048 % 2 = 1 := by
      intro h1
      exact hclear (hbit.trans (decide_eq_true h1))
    apply BitVec.eq_of_toInt_eq
    rw [low12, hlow]
    split at hv <;> split <;> omega

theorem storesImmediate_eq {line : Nat} {t : CStr} {v alu : Word} (hv : parseImm line t 12 = .ok v)
    (h : StoresImmediate line t alu) : alu = signextend v 12 := by
  obtain ⟨i, i', o1, o2, hf, hi, rfl⟩ := h
  rw [parseOperands_format, hf] at hi
  obtain ⟨r1, -, hi⟩ := Except.bind_eq_ok.mp hi
  obtain ⟨r2, -, hi⟩ := Except.bind_eq_ok.mp hi
  obtain ⟨w, hw, hi⟩ := Except.bind_eq_ok.mp hi
  obtain rfl : v = w := Except.ok.inj (hv.symm.trans hw)
  obtain rfl := Except.ok.inj hi
  rfl

theorem immGen_I (x : Rv32i.Fields) (v : Word) : Chisel.immGen .iType (Rv32i.Format.I.encode x v) = low12 v := by
  have hbits : (Rv32i.Format.I.encode x v).extractLsb' 20 12 = v.extractLsb' 0 12 := by
    apply BitVec.eq_of_getLsbD_eq
    intro i hi
    interval_cases i <;> simp [Rv32i.Format.encode]
  rw [Chisel.immGen, hbits, low12]

theorem immGen_S (x : Rv32i.Fields) (v : Word) : Chisel.immGen .sType (Rv32i.Format.S.encode x v) = low12 v := by
  have hbits : Chisel.sBits (Rv32i.Format.S.encode x v) = v.extractLsb' 0 12 := by
    ext i hi
    rw [Chisel.getElem_sBits _ hi]
    interval_cases i <;> simp [Rv32i.Format.encode]
  rw [Chisel.immGen, ← Chisel.sBits, hbits, low12]

theorem low12_eq_iff {v : Word} (h : -2048 ≤ v.toInt ∧ v.toInt ≤ 4095) : v = low12 v ↔ v.toInt ≤ 2047 := by
  have hext : low12 v - v = if v.toInt < 2048 then 0 else -4096 := offsetExtension_of_accepted h
  constructor
  · intro heq
    rw [← heq, BitVec.sub_self] at hext
    by_contra hle
    rw [if_neg (by omega)] at hext
    exact absurd hext (by decide)
  · intro hle
    rw [if_pos (by omega)] at hext
    have hback := BitVec.sub_eq_iff_eq_add.mp hext
    exact (hback.trans (BitVec.zero_add v)).symm

/-! ## The spelling of an operand -/

theorem strtok_append {t r : CStr} {c : Char} (ht : t ≠ []) (hc : c ∉ t) : strtok [c] (t ++ c :: r) = some (t, r) := by
  have hp : ∀ x ∈ t, (! [c].contains x) = true := by
    intro x hx
    have hne : x ≠ c := fun h => hc (h ▸ hx)
    simpa using hne
  obtain ⟨a, as, rfl⟩ := List.exists_cons_of_ne_nil ht
  have ha : ¬ ([c].contains a) = true := by
    intro h
    have := hp a List.mem_cons_self
    rw [h] at this
    cases this
  have hfirst : ((a :: as) ++ c :: r).dropWhile ([c].contains ·) = a :: (as ++ c :: r) :=
    List.dropWhile_cons_of_neg ha
  unfold strtok
  rw [hfirst]
  simp only
  rw [← List.cons_append, List.takeWhile_append_of_pos hp, List.dropWhile_append_of_pos hp,
    List.takeWhile_cons_of_neg (by simp), List.dropWhile_cons_of_neg (by simp), List.append_nil, List.drop_one,
    List.tail_cons]

/-- A token without a parenthesis is the offset of some load. -/
theorem storesOffset_of_parseImm {line : Nat} {t : CStr} {v : Word} (hv : parseImm line t 12 = .ok v) (hp : '(' ∉ t) :
    StoresOffset line t v := by
  have hne := (parseImm_eq_ok hv).1
  have hs : strtok ['('] (t ++ "(x1)".toList) = some (t, "x1)".toList) := strtok_append hne hp
  have hreg : strtok [')'] "x1)".toList = some ("x1".toList, []) := by decide
  have hx1 : parseReg line "x1".toList = .ok 1 := rfl
  have hm : parseMem line (t ++ "(x1)".toList) 12 = .ok (1, v) := by
    unfold parseMem
    rw [hs]
    simp only [hv, bind, Except.bind, hreg, hx1]
    rfl
  have hi : parseOperands line { op := .LW } ⟨some "x1".toList, some (t ++ "(x1)".toList), none, none⟩ =
      .ok { op := .LW, a1.reg := 1, a2.reg := 1, a3.imm := v } := by
    rw [parseOperands_format]
    simp only [formatOf, Format.operands, operandsMem, hx1, hm, bind, Except.bind]
    rfl
  exact ⟨_, _, _, _, _, rfl, hs, hi, rfl⟩

/-- A piece in front of a parenthesis has none itself. -/
theorem not_mem_of_strtok {c : Char} {s t r : CStr} (h : strtok [c] s = some (t, r)) : c ∉ t := by
  intro hc
  unfold strtok at h
  split at h
  · cases h
  · obtain ⟨rfl, -⟩ := Prod.mk.inj (Option.some.inj h)
    have := List.mem_takeWhile_imp hc
    simp at this

/-- **Offsets mean the same everywhere** for the numbers up to 2047, and for no other token that can stand in front
of a parenthesis. -/
theorem offsetAgrees_iff {line : Nat} {t : CStr} {v : Word} (hv : parseImm line t 12 = .ok v) :
    OffsetAgrees line t v ↔ '(' ∈ t ∨ (strtol 0 t).1 ≤ 2047 := by
  obtain ⟨-, hlo, hhi, heq⟩ := parseImm_eq_ok hv
  have hint : v.toInt = (strtol 0 t).1 := by
    rw [heq, BitVec.toInt_ofInt, Int.bmod_eq_of_le (by omega) (by omega)]
  have hrange : -2048 ≤ v.toInt ∧ v.toInt ≤ 4095 := by omega
  rw [← hint, ← low12_eq_iff hrange]
  constructor
  · intro h
    by_cases hp : '(' ∈ t
    · exact .inl hp
    · exact .inr (h v (storesOffset_of_parseImm hv hp)).1
  · intro h off hoff
    obtain ⟨_, _, _, o2, _, -, ht, -⟩ := id hoff
    have hlow := h.resolve_left (not_mem_of_strtok ht)
    obtain rfl := storesOffset_eq hv hoff
    refine ⟨hlow, fun alu halu => ?_, fun x => ?_⟩
    · rw [storesImmediate_eq hv halu, signextend_eq_low12 hrange]
      exact hlow
    · rw [immGen_I, immGen_S]
      exact ⟨hlow, hlow⟩

theorem offsetAgrees_minus_4 : OffsetAgrees 1 "-4".toList (-4) :=
  (@offsetAgrees_iff 1 "-4".toList (-4) (by decide)).mpr (.inr (by decide))

theorem not_offsetAgrees_4095 : ¬ OffsetAgrees 1 "4095".toList 4095 := by
  intro h
  exact absurd (h 4095 (storesOffset_of_parseImm (by decide) (by decide))).1 (by decide)

end SocModel.Asm
