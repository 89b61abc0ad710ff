import SocModel.Asm.Li
import SocModel.Asm.Offsets
import SocModel.Asm.Registers
import SocModel.Isa.Commands

/-!
# What a line of assembly means

The language that the assembler is for: registers, numbers and labels as operands, the instructions of RV32I, the
pseudo-instructions, and `hcf`. A line outside of it has no meaning, also where the assembler accepts it.

* `register`, `immediate`, `offset`, `constant` : operands, `parseReg_register`, `parseImm_numberIn`, `parseMem_offset` :
  the parsers on them;
* `Mnemonic`, `denote` : lines;
* `mnemonics_plain`, `name_of_pseudo` : how the assembler looks mnemonics up.
-/

namespace SocModel.Asm

open Lib
open Rv32i (Cmd Inst Slot)

/-! ## Operands -/

/-- The register that a token names. -/
def register (tok : CStr) : Option Rv32i.Reg := (regName tok).map (BitVec.ofNat 5)

/-- A number from `lo` on and below `hi`. -/
def numberIn (lo hi : Int) (tok : CStr) : Option Int := (literal tok).filter fun v => lo ≤ v ∧ v < hi

/-- A signed number of 12 bits. -/
def immediate (tok : CStr) : Option (BitVec 12) := (numberIn (-2 ^ 11) (2 ^ 11) tok).map (BitVec.ofInt 12)

/-- A number of 20 bits, with a sign or without one. -/
def upper (tok : CStr) : Option (BitVec 20) := (numberIn (-2 ^ 19) (2 ^ 20) tok).map (BitVec.ofInt 20)

/-- The amount of a shift. -/
def amount (tok : CStr) : Option Rv32i.Reg := (numberIn 0 32 tok).map (BitVec.ofInt 5)

/-- A number of 32 bits, with a sign or without one. -/
def constant (tok : CStr) : Option Word := (numberIn (-2 ^ 31) (2 ^ 32) tok).map (BitVec.ofInt 32)

/-- The text in front of the first `c`, and the text behind it. -/
def cut (c : Char) (s : CStr) : Option (CStr × CStr) :=
  match s.dropWhile (· ≠ c) with
  | [] => none
  | _ :: r => some (s.takeWhile (· ≠ c), r)

/-- `imm(reg)`. -/
def offset (tok : CStr) : Option (Rv32i.Reg × BitVec 12) :=
  (cut '(' tok).bind fun p => (cut ')' p.2).bind fun q =>
    if q.2 = [] then (register q.1).bind fun r => (immediate p.1).map (r, ·) else none

/-! ### Their parsers -/

section

variable {line : Nat} {tok : CStr}

theorem parseReg_register {r : Rv32i.Reg} (h : register tok = some r) : parseReg line tok = .ok r.toNat := by
  obtain ⟨n, hn, rfl⟩ := Option.map_eq_some_iff.mp h
  have hname (hlt : n < 32) : ((BitVec.ofNat 5 n).toNat : Int) = n := by
    rw [BitVec.toNat_ofNat, Nat.mod_eq_of_lt hlt]
  by_cases hx : ∃ ds, tok = 'x' :: ds
  · obtain ⟨ds, rfl⟩ := hx
    obtain ⟨hds, hle⟩ := (regName_x ds n).mp hn
    have hv := atoi_of_digitString hds (by omega)
    rw [parseReg_x, hv, if_neg (by omega), hname (by omega)]
  · rw [not_exists] at hx
    have hidx : abiNames.idxOf? (String.ofList tok) = some n := by
      rw [← hn]
      unfold regName
      split
      · exact absurd rfl (hx _)
      · rfl
    obtain ⟨hlt, -⟩ := List.idxOf?_eq_some_iff.mp hidx
    rw [parseReg_abi line hx, hidx, hname hlt]

theorem numberIn_eq_some {lo hi v : Int} : numberIn lo hi tok = some v ↔ literal tok = some v ∧ lo ≤ v ∧ v < hi := by
  rw [numberIn, Option.filter_eq_some_iff, decide_eq_true_eq]

/-- What `parse_imm` accepts, it reads exactly. -/
theorem parseImm_numberIn {lo hi v : Int} {bits : Nat} {w : Word} (hv : numberIn lo hi tok = some v)
    (hlo : -2 ^ 63 ≤ lo) (hhi : hi ≤ 2 ^ 63) (h : parseImm line tok bits = .ok w) : w = BitVec.ofInt 32 v := by
  obtain ⟨hlit, hle, hlt⟩ := numberIn_eq_some.mp hv
  obtain ⟨-, -, -, rfl⟩ := parseImm_eq_ok h
  rw [strtol_of_literal hlit, clampLong_of_mem (by omega) (by omega)]

theorem signExtend_ofInt {v : Int} (hlo : -2 ^ 11 ≤ v) (hhi : v < 2 ^ 11) :
    (BitVec.ofInt 12 v).signExtend 32 = BitVec.ofInt 32 v := by
  rw [BitVec.signExtend, BitVec.toInt_ofInt, Int.bmod_eq_of_le (by omega) (by omega)]

/-- The sign extension leaves a number alone that has its sign. -/
theorem signextend_ofInt {v : Int} (hlo : -2 ^ 11 ≤ v) (hhi : v < 2 ^ 11) :
    signextend (BitVec.ofInt 32 v) 12 = BitVec.ofInt 32 v := by
  have hint : (BitVec.ofInt 32 v).toInt = v := by
    rw [BitVec.toInt_ofInt, Int.bmod_eq_of_le (by omega) (by omega)]
  have hrange : -2048 ≤ (BitVec.ofInt 32 v).toInt ∧ (BitVec.ofInt 32 v).toInt ≤ 4095 := by omega
  rw [signextend_eq_low12 hrange]
  exact ((low12_eq_iff hrange).mpr (by omega)).symm

theorem parseImm_immediate {imm : BitVec 12} {w : Word} (hi : immediate tok = some imm)
    (h : parseImm line tok 12 = .ok w) : w = imm.signExtend 32 ∧ signextend w 12 = imm.signExtend 32 := by
  obtain ⟨v, hv, rfl⟩ := Option.map_eq_some_iff.mp hi
  obtain ⟨-, hlo, hhi⟩ := numberIn_eq_some.mp hv
  obtain rfl := parseImm_numberIn hv (by decide) (by decide) h
  rw [signExtend_ofInt hlo hhi, signextend_ofInt hlo hhi]
  exact ⟨rfl, rfl⟩

theorem parseImm_amount {sh : Rv32i.Reg} {w : Word} (hi : amount tok = some sh) (h : parseImm line tok 12 = .ok w) :
    signextend w 12 = sh.setWidth 32 := by
  obtain ⟨v, hv, rfl⟩ := Option.map_eq_some_iff.mp hi
  obtain ⟨-, hlo, hhi⟩ := numberIn_eq_some.mp hv
  obtain rfl := parseImm_numberIn hv (by decide) (by decide) h
  rw [signextend_ofInt (by omega) (by omega)]
  apply BitVec.eq_of_toNat_eq
  rw [BitVec.toNat_setWidth, BitVec.toNat_ofInt, BitVec.toNat_ofInt]
  omega

theorem parseImm_upper {imm : BitVec 20} {w : Word} (hi : upper tok = some imm) (h : parseImm line tok 20 = .ok w) :
    w <<< 12 = imm ++ 0#12 := by
  obtain ⟨v, hv, rfl⟩ := Option.map_eq_some_iff.mp hi
  obtain rfl := parseImm_numberIn hv (by decide) (by decide) h
  have hlow : (BitVec.ofInt 32 v).extractLsb' 0 20 = BitVec.ofInt 20 v := by
    apply BitVec.eq_of_toNat_eq
    rw [BitVec.extractLsb'_toNat, BitVec.toNat_ofInt, BitVec.toNat_ofInt, Nat.shiftRight_zero]
    omega
  rw [shiftLeft_eq_upperImm, upperImm, hlow]

theorem cut_eq_some {c : Char} {s t r : CStr} (h : cut c s = some (t, r)) : s = t ++ c :: r ∧ c ∉ t := by
  unfold cut at h
  split at h
  · cases h
  · next d r' hd =>
    obtain ⟨rfl, rfl⟩ := Prod.mk.inj (Option.some.inj h)
    have hc : d = c := by
      have hne : s.dropWhile (· ≠ c) ≠ [] := by
        rw [hd]
        exact List.cons_ne_nil _ _
      have hhead := List.head_dropWhile_not (· ≠ c) hne
      simp only [hd, List.head_cons, decide_eq_false_iff_not, not_not] at hhead
      exact hhead
    refine ⟨?_, fun hmem => ?_⟩
    · rw [hc] at hd
      rw [← hd, List.takeWhile_append_dropWhile]
    · have := List.mem_takeWhile_imp hmem
      simp at this

/-- `parse_mem` stores the number of `imm(reg)` as it is. -/
theorem parseMem_offset {r : Rv32i.Reg} {imm : BitVec 12} {reg : Int} {w : Word} (ho : offset tok = some (r, imm))
    (h : parseMem line tok 12 = .ok (reg, w)) : reg = r.toNat ∧ w = imm.signExtend 32 := by
  obtain ⟨⟨imms, rest⟩, h1, ho⟩ := Option.bind_eq_some_iff.mp ho
  obtain ⟨⟨regs, tail⟩, h2, ho⟩ := Option.bind_eq_some_iff.mp ho
  split at ho
  · next htail =>
    obtain ⟨r', hr, ho⟩ := Option.bind_eq_some_iff.mp ho
    obtain ⟨imm', hi, ho⟩ := Option.map_eq_some_iff.mp ho
    obtain ⟨rfl, rfl⟩ := Prod.mk.inj ho
    obtain ⟨rfl, hn1⟩ := cut_eq_some h1
    dsimp only at h2 hr hi htail
    obtain ⟨rfl, hn2⟩ := cut_eq_some h2
    have hregs : regs ≠ [] := by
      rintro rfl
      cases hr
    have himms : imms ≠ [] := by
      rintro rfl
      cases hi
    unfold parseMem at h
    rw [strtok_append himms hn1] at h
    obtain ⟨v, hv, h⟩ := Except.bind_eq_ok.mp h
    rw [strtok_append hregs hn2] at h
    obtain ⟨k, hk, h⟩ := Except.bind_eq_ok.mp h
    obtain ⟨rfl, rfl⟩ := Prod.mk.inj (Except.ok.inj h)
    exact ⟨Except.ok.inj (hk.symm.trans (parseReg_register hr)), (parseImm_immediate hi hv).1⟩
  · cases ho

end

/-! ## Mnemonics -/

inductive Mnemonic where
  | op (o : Rv32i.Op) | opImm (o : Rv32i.OpImm) | shiftImm (o : Rv32i.ShiftImm) | lui | auipc
  | load (o : Rv32i.Load) | store (o : Rv32i.Store) | branch (o : Rv32i.Cond) | jal | jalr | hcf
  | li | la | mv | j | ret | beqz | bnez
  deriving DecidableEq, Repr

namespace Mnemonic

/-- The operation of a mnemonic that is one. -/
def type : Mnemonic → Option InstrType
  | op o => some o.type
  | opImm o => some o.type
  | shiftImm o => some o.type
  | lui => some .LUI
  | auipc => some .AUIPC
  | load o => some o.type
  | store o => some o.type
  | branch o => some o.type
  | jal => some .JAL
  | jalr => some .JALR
  | hcf => some .HCF
  | li | la | mv | j | ret | beqz | bnez => none

/-- The name of a pseudo-instruction. -/
def pseudo : Mnemonic → Option String
  | li => some "li"
  | la => some "la"
  | mv => some "mv"
  | j => some "j"
  | ret => some "ret"
  | beqz => some "beqz"
  | bnez => some "bnez"
  | _ => none

end Mnemonic

def mnemonics : List (String × Mnemonic) :=
  [("add", .op .ADD), ("sub", .op .SUB), ("slt", .op .SLT), ("sltu", .op .SLTU), ("and", .op .AND), ("or", .op .OR),
    ("xor", .op .XOR), ("sll", .op .SLL), ("srl", .op .SRL), ("sra", .op .SRA),
    ("addi", .opImm .ADDI), ("slti", .opImm .SLTI), ("sltiu", .opImm .SLTIU), ("andi", .opImm .ANDI),
    ("ori", .opImm .ORI), ("xori", .opImm .XORI),
    ("slli", .shiftImm .SLLI), ("srli", .shiftImm .SRLI), ("srai", .shiftImm .SRAI),
    ("lb", .load .LB), ("lbu", .load .LBU), ("lh", .load .LH), ("lhu", .load .LHU), ("lw", .load .LW),
    ("sb", .store .SB), ("sh", .store .SH), ("sw", .store .SW),
    ("beq", .branch .BEQ), ("bge", .branch .BGE), ("bgeu", .branch .BGEU), ("blt", .branch .BLT),
    ("bltu", .branch .BLTU), ("bne", .branch .BNE),
    ("jal", .jal), ("jalr", .jalr), ("auipc", .auipc), ("lui", .lui), ("hcf", .hcf),
    ("li", .li), ("la", .la), ("mv", .mv), ("j", .j), ("ret", .ret), ("beqz", .beqz), ("bnez", .bnez)]

/-- The names that `parse_pseudoinstructions` knows. -/
def pseudoNames : List String := ["li", "la", "ret", "j", "mv", "bnez", "beqz"]

/-- The assembler looks the mnemonics up as they are in the table. -/
theorem mnemonics_plain : ∀ e ∈ mnemonics, ∀ t ∈ e.2.type, parseOp e.1.toList = t ∧ e.1 ∉ pseudoNames := by
  decide +kernel

theorem name_of_pseudo : ∀ e ∈ mnemonics, ∀ s ∈ e.2.pseudo, e.1 = s := by decide +kernel

/-! ## Lines -/

/-- The operands, if there are as many as `f` takes. -/
def Operands.three {α : Type} (os : Operands) (f : CStr → CStr → CStr → Option α) : Option α :=
  match os with
  | ⟨some a, some b, some c, none⟩ => f a b c
  | _ => none

def Operands.two {α : Type} (os : Operands) (f : CStr → CStr → Option α) : Option α :=
  match os with
  | ⟨some a, some b, none, none⟩ => f a b
  | _ => none

def Operands.one {α : Type} (os : Operands) (f : CStr → Option α) : Option α :=
  match os with
  | ⟨some a, none, none, none⟩ => f a
  | _ => none

def Operands.zero {α : Type} (os : Operands) (x : α) : Option α :=
  match os with
  | ⟨none, none, none, none⟩ => some x
  | _ => none

/-- What a line with the mnemonic means; `label` is the address that a name stands for. -/
def Mnemonic.meaning (label : CStr → Option Word) (os : Operands) : Mnemonic → Option (Slot Cmd)
  | op o => os.three fun d s t => do
    let rd ← register d
    let rs1 ← register s
    let rs2 ← register t
    return .inst (.inst (.op o rd rs1 rs2))
  | opImm o => os.three fun d s t => do
    let rd ← register d
    let rs1 ← register s
    let imm ← immediate t
    return .inst (.inst (.opImm o rd rs1 imm))
  | shiftImm o => os.three fun d s t => do
    let rd ← register d
    let rs1 ← register s
    let shamt ← amount t
    return .inst (.inst (.shiftImm o rd rs1 shamt))
  | lui => os.two fun d t => do
    let rd ← register d
    let imm ← upper t
    return .inst (.inst (.lui rd imm))
  | auipc => os.two fun d t => do
    let rd ← register d
    let imm ← upper t
    return .inst (.inst (.auipc rd imm))
  | load o => os.two fun d t => do
    let rd ← register d
    let (rs1, imm) ← offset t
    return .inst (.inst (.load o rd rs1 imm))
  | store o => os.two fun s t => do
    let rs2 ← register s
    let (rs1, imm) ← offset t
    return .inst (.inst (.store o rs1 rs2 imm))
  | jalr => os.two fun d t => do
    let rd ← register d
    let (rs1, imm) ← offset t
    return .inst (.inst (.jalr rd rs1 imm))
  | branch o => os.three fun s t l => do
    let rs1 ← register s
    let rs2 ← register t
    let target ← label l
    return .inst (.branch o rs1 rs2 target)
  | jal => (os.two fun d l => do
      let rd ← register d
      let target ← label l
      return .inst (.jal rd target)).or
    (os.one fun l => do
      let target ← label l
      return .inst (.jal 1 target))
  | hcf => os.zero .halt
  | li => os.two fun d t => do
    let rd ← register d
    let v ← constant t
    return .inst (.const rd v)
  | la => os.two fun d l => do
    let rd ← register d
    let v ← label l
    return .inst (.const rd v)
  | mv => os.two fun d s => do
    let rd ← register d
    let rs1 ← register s
    return .inst (.inst (.opImm .ADDI rd rs1 0))
  | j => os.one fun l => do
    let target ← label l
    return .inst (.jal 0 target)
  | ret => os.zero (.inst (.inst (.jalr 0 1 0)))
  | beqz => os.two fun s l => do
    let rs1 ← register s
    let target ← label l
    return .inst (.branch .BEQ rs1 0 target)
  | bnez => os.two fun s l => do
    let rs1 ← register s
    let target ← label l
    return .inst (.branch .BNE rs1 0 target)

/-- What a line means: a command, or the end of the program. -/
def denote (label : CStr → Option Word) (tok : CStr) (os : Operands) : Option (Slot Cmd) :=
  (mnemonics.lookup (String.ofList tok)).bind (·.meaning label os)

section

variable {α : Type} {os : Operands} {y : α}

theorem three_eq_some {f : CStr → CStr → CStr → Option α} (h : os.three f = some y) :
    ∃ a b c, os = ⟨some a, some b, some c, none⟩ ∧ f a b c = some y := by
  unfold Operands.three at h
  split at h
  · exact ⟨_, _, _, rfl, h⟩
  · cases h

theorem two_eq_some {f : CStr → CStr → Option α} (h : os.two f = some y) :
    ∃ a b, os = ⟨some a, some b, none, none⟩ ∧ f a b = some y := by
  unfold Operands.two at h
  split at h
  · exact ⟨_, _, rfl, h⟩
  · cases h

theorem one_eq_some {f : CStr → Option α} (h : os.one f = some y) :
    ∃ a, os = ⟨some a, none, none, none⟩ ∧ f a = some y := by
  unfold Operands.one at h
  split at h
  · exact ⟨_, rfl, h⟩
  · cases h

theorem zero_eq_some {x : α} (h : os.zero x = some y) : os = ⟨none, none, none, none⟩ ∧ x = y := by
  unfold Operands.zero at h
  split at h
  · exact ⟨rfl, Option.some.inj h⟩
  · cases h

/-- A line with a meaning has a mnemonic of the table. -/
theorem denote_eq_some {label : CStr → Option Word} {tok : CStr} {x : Slot Cmd} (h : denote label tok os = some x) :
    ∃ mn, (String.ofList tok, mn) ∈ mnemonics ∧ mn.meaning label os = some x := by
  obtain ⟨mn, hmn, h⟩ := Option.bind_eq_some_iff.mp h
  obtain ⟨l, l', hl, -⟩ := List.lookup_eq_some_iff.mp hmn
  exact ⟨mn, by rw [hl]; simp, h⟩

end

end SocModel.Asm
