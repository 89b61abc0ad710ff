import Mathlib.Tactic.Common
import Mathlib.Tactic.IntervalCases

/-!
# The words of RV32I

* `place lo x` : the field `x` at bit `lo` of a word;
* `Format` : the five formats with an immediate, `Format.encode` puts a 32-bit immediate and the other fields into a
  word, `Format.Represents` are the immediates that it can carry;
* `Inst` : the instructions but `FENCE`, `ECALL` and `EBREAK`, `Inst.encode` : their words;
* `Inst.result`, `Inst.taken` : the value, address or target that the instruction computes, and whether it leaves
  the straight line.
-/

namespace SocModel.Rv32i

abbrev Word := BitVec 32
abbrev Reg := BitVec 5

/-- The field `x` at bit `lo`. -/
def place {w : Nat} (lo : Nat) (x : BitVec w) : Word := x.setWidth 32 <<< lo

@[simp] theorem getElem_place {w : Nat} (lo : Nat) (x : BitVec w) (i : Nat) (hi : i < 32) :
    (place lo x)[i] = (decide (lo ≤ i) && x.getLsbD (i - lo)) := by
  have hsub : i - lo < 32 := by omega
  rw [← BitVec.getLsbD_eq_getElem, place, BitVec.getLsbD_shiftLeft, BitVec.getLsbD_setWidth]
  by_cases hlo : lo ≤ i
  · have : ¬ i < lo := by omega
    simp [hi, hlo, this, hsub]
  · have : i < lo := by omega
    simp [hlo, this]

/-! ## Formats -/

/-- The fields beside the immediate; a format ignores those that it has no room for. -/
structure Fields where
  opcode : BitVec 7
  rd : Reg
  funct3 : BitVec 3
  rs1 : Reg
  rs2 : Reg

inductive Format where
  | I | S | B | U | J
  deriving DecidableEq, Repr

namespace Format

def encode (x : Fields) (imm : Word) : Format → Word
  | I => place 20 (imm.extractLsb' 0 12) ||| place 15 x.rs1 ||| place 12 x.funct3 ||| place 7 x.rd ||| place 0 x.opcode
  | S => place 25 (imm.extractLsb' 5 7) ||| place 20 x.rs2 ||| place 15 x.rs1 ||| place 12 x.funct3 |||
      place 7 (imm.extractLsb' 0 5) ||| place 0 x.opcode
  | B => place 31 (imm.extractLsb' 12 1) ||| place 25 (imm.extractLsb' 5 6) ||| place 20 x.rs2 ||| place 15 x.rs1 |||
      place 12 x.funct3 ||| place 8 (imm.extractLsb' 1 4) ||| place 7 (imm.extractLsb' 11 1) ||| place 0 x.opcode
  | U => place 12 (imm.extractLsb' 12 20) ||| place 7 x.rd ||| place 0 x.opcode
  | J => place 31 (imm.extractLsb' 20 1) ||| place 21 (imm.extractLsb' 1 10) ||| place 20 (imm.extractLsb' 11 1) |||
      place 12 (imm.extractLsb' 12 8) ||| place 7 x.rd ||| place 0 x.opcode

/-- The immediates of a format: 12 signed bits, even offsets of 13 or 21 signed bits, multiples of 4096. -/
def Represents (imm : Word) : Format → Prop
  | I | S => -2 ^ 11 ≤ imm.toInt ∧ imm.toInt < 2 ^ 11
  | B => -2 ^ 12 ≤ imm.toInt ∧ imm.toInt < 2 ^ 12 ∧ imm.toNat % 2 = 0
  | U => imm.toNat % 2 ^ 12 = 0
  | J => -2 ^ 20 ≤ imm.toInt ∧ imm.toInt < 2 ^ 20 ∧ imm.toNat % 2 = 0

instance (imm : Word) : (f : Format) → Decidable (f.Represents imm)
  | I | S => inferInstanceAs (Decidable (_ ∧ _))
  | B | J => inferInstanceAs (Decidable (_ ∧ _))
  | U => inferInstanceAs (Decidable (_ = _))

/-- The fields of a word, each at its place whatever the format. -/
def fields (w : Word) : Fields where
  opcode := w.extractLsb' 0 7
  rd := w.extractLsb' 7 5
  funct3 := w.extractLsb' 12 3
  rs1 := w.extractLsb' 15 5
  rs2 := w.extractLsb' 20 5

def hasRd : Format → Bool
  | I | U | J => true
  | S | B => false

def hasRs1 : Format → Bool
  | I | S | B => true
  | U | J => false

def hasRs2 : Format → Bool
  | S | B => true
  | I | U | J => false

section

variable (x : Fields) (imm : Word) (f : Format)

theorem opcode_encode : (f.encode x imm).extractLsb' 0 7 = x.opcode := by
  apply BitVec.eq_of_getLsbD_eq
  intro i hi
  cases f <;> interval_cases i <;> simp [encode]

theorem rd_encode (h : f.hasRd = true) : (f.encode x imm).extractLsb' 7 5 = x.rd := by
  apply BitVec.eq_of_getLsbD_eq
  intro i hi
  cases f <;> first | exact absurd h (by decide) | interval_cases i <;> simp [encode]

theorem funct3_encode (h : f.hasRs1 = true) : (f.encode x imm).extractLsb' 12 3 = x.funct3 := by
  apply BitVec.eq_of_getLsbD_eq
  intro i hi
  cases f <;> first | exact absurd h (by decide) | interval_cases i <;> simp [encode]

theorem rs1_encode (h : f.hasRs1 = true) : (f.encode x imm).extractLsb' 15 5 = x.rs1 := by
  apply BitVec.eq_of_getLsbD_eq
  intro i hi
  cases f <;> first | exact absurd h (by decide) | interval_cases i <;> simp [encode]

theorem rs2_encode (h : f.hasRs2 = true) : (f.encode x imm).extractLsb' 20 5 = x.rs2 := by
  apply BitVec.eq_of_getLsbD_eq
  intro i hi
  cases f <;> first | exact absurd h (by decide) | interval_cases i <;> simp [encode]

end

end Format

/-! ## Signed immediates -/

/-- A word whose value fits `n` signed bits is the sign extension of its low `n` bits. -/
theorem signExtend_setWidth {n : Nat} (x : Word) (hn : 0 < n) (hn' : n ≤ 32) (hlo : -2 ^ (n - 1) ≤ x.toInt)
    (hhi : x.toInt < 2 ^ (n - 1)) : (x.setWidth n).signExtend 32 = x := by
  apply BitVec.eq_of_toInt_eq
  have hpow : (2 : Int) ^ n = 2 ^ (n - 1) * 2 := by
    rw [← pow_succ]
    congr 1
    omega
  rw [BitVec.toInt_signExtend_of_le hn', BitVec.toInt_setWidth, ← Int.bmod_bmod_of_dvd (Nat.pow_dvd_pow 2 hn'),
    ← BitVec.toInt_eq_toNat_bmod]
  apply Int.bmod_eq_of_le_mul_two
  · push_cast
    omega
  · push_cast
    omega

/-- The value of a sign extension. -/
theorem toInt_signExtend_bounds {n : Nat} (z : BitVec n) (hn' : n ≤ 32) :
    -2 ^ (n - 1) ≤ (z.signExtend 32).toInt ∧ (z.signExtend 32).toInt < 2 ^ (n - 1) := by
  rw [BitVec.toInt_signExtend_of_le hn']
  exact ⟨BitVec.le_toInt z, BitVec.toInt_lt⟩

theorem getLsbD_zero_eq_false_iff (x : Word) : x.getLsbD 0 = false ↔ x.toNat % 2 = 0 := by
  rw [BitVec.getLsbD, Nat.testBit_zero]
  simp

/-- The low bits of a sign extension. -/
theorem getElem_signExtend_low {n i : Nat} (z : BitVec n) (hi : i < 32) (hn : i < n) :
    (z.signExtend 32)[i] = z[i] := by
  rw [← BitVec.getLsbD_eq_getElem, BitVec.getLsbD_signExtend]
  simp [hi, hn]

theorem toNat_signExtend_even {n : Nat} (z : BitVec n) (hn : 0 < n) (hz : z[0] = false) :
    (z.signExtend 32).toNat % 2 = 0 := by
  have h32 : 0 < 32 := by decide
  rw [← getLsbD_zero_eq_false_iff, BitVec.getLsbD_eq_getElem h32, getElem_signExtend_low z h32 hn, hz]

/-! ## Instructions -/

inductive Op where
  | ADD | SUB | SLL | SLT | SLTU | XOR | SRL | SRA | OR | AND
  deriving DecidableEq, Repr

inductive OpImm where
  | ADDI | SLTI | SLTIU | XORI | ORI | ANDI
  deriving DecidableEq, Repr

inductive ShiftImm where
  | SLLI | SRLI | SRAI
  deriving DecidableEq, Repr

inductive Load where
  | LB | LH | LW | LBU | LHU
  deriving DecidableEq, Repr

inductive Store where
  | SB | SH | SW
  deriving DecidableEq, Repr

inductive Cond where
  | BEQ | BNE | BLT | BGE | BLTU | BGEU
  deriving DecidableEq, Repr

/-- An instruction with its registers and the bits of its immediate. -/
inductive Inst where
  | op (o : Op) (rd rs1 rs2 : Reg)
  | opImm (o : OpImm) (rd rs1 : Reg) (imm : BitVec 12)
  | shiftImm (o : ShiftImm) (rd rs1 : Reg) (shamt : BitVec 5)
  | lui (rd : Reg) (imm : BitVec 20)
  | auipc (rd : Reg) (imm : BitVec 20)
  | load (o : Load) (rd rs1 : Reg) (imm : BitVec 12)
  | store (o : Store) (rs1 rs2 : Reg) (imm : BitVec 12)
  /-- The offset, in halfwords. -/
  | branch (o : Cond) (rs1 rs2 : Reg) (offset : BitVec 12)
  | jal (rd : Reg) (offset : BitVec 20)
  | jalr (rd rs1 : Reg) (imm : BitVec 12)
  deriving DecidableEq, Repr

/-! ### Codes -/

namespace Opcode

def LOAD : BitVec 7 := 0b0000011
def OP_IMM : BitVec 7 := 0b0010011
def AUIPC : BitVec 7 := 0b0010111
def STORE : BitVec 7 := 0b0100011
def OP : BitVec 7 := 0b0110011
def LUI : BitVec 7 := 0b0110111
def BRANCH : BitVec 7 := 0b1100011
def JALR : BitVec 7 := 0b1100111
def JAL : BitVec 7 := 0b1101111

end Opcode

/-- The format of an opcode; `OP` has no immediate. -/
def Format.ofOpcode (op : BitVec 7) : Option Format :=
  if op = Opcode.LOAD ∨ op = Opcode.JALR ∨ op = Opcode.OP_IMM then some .I
  else if op = Opcode.STORE then some .S
  else if op = Opcode.BRANCH then some .B
  else if op = Opcode.LUI ∨ op = Opcode.AUIPC then some .U
  else if op = Opcode.JAL then some .J
  else none

def Op.funct3 : Op → BitVec 3
  | ADD | SUB => 0b000
  | SLL => 0b001
  | SLT => 0b010
  | SLTU => 0b011
  | XOR => 0b100
  | SRL | SRA => 0b101
  | OR => 0b110
  | AND => 0b111

def Op.funct7 : Op → BitVec 7
  | SUB | SRA => 0b0100000
  | _ => 0b0000000

def OpImm.funct3 : OpImm → BitVec 3
  | ADDI => 0b000
  | SLTI => 0b010
  | SLTIU => 0b011
  | XORI => 0b100
  | ORI => 0b110
  | ANDI => 0b111

def ShiftImm.funct3 : ShiftImm → BitVec 3
  | SLLI => 0b001
  | SRLI | SRAI => 0b101

def ShiftImm.funct7 : ShiftImm → BitVec 7
  | SRAI => 0b0100000
  | _ => 0b0000000

def Load.funct3 : Load → BitVec 3
  | LB => 0b000
  | LH => 0b001
  | LW => 0b010
  | LBU => 0b100
  | LHU => 0b101

def Store.funct3 : Store → BitVec 3
  | SB => 0b000
  | SH => 0b001
  | SW => 0b010

def Cond.funct3 : Cond → BitVec 3
  | BEQ => 0b000
  | BNE => 0b001
  | BLT => 0b100
  | BGE => 0b101
  | BLTU => 0b110
  | BGEU => 0b111

namespace Inst

def opcode : Inst → BitVec 7
  | op .. => Opcode.OP
  | opImm .. | shiftImm .. => Opcode.OP_IMM
  | lui .. => Opcode.LUI
  | auipc .. => Opcode.AUIPC
  | load .. => Opcode.LOAD
  | store .. => Opcode.STORE
  | branch .. => Opcode.BRANCH
  | jal .. => Opcode.JAL
  | jalr .. => Opcode.JALR

/-- The immediate operand; a shift by an immediate keeps `funct7` above its amount. -/
def imm : Inst → Word
  | op .. => 0
  | opImm _ _ _ imm | load _ _ _ imm | store _ _ _ imm | jalr _ _ imm => imm.signExtend 32
  | shiftImm o _ _ shamt => (o.funct7 ++ shamt).signExtend 32
  | lui _ imm | auipc _ imm => imm ++ 0#12
  | branch _ _ _ offset => (offset ++ 0#1).signExtend 32
  | jal _ offset => (offset ++ 0#1).signExtend 32

/-- The registers and codes; zero where the format has no such field. -/
def fields : Inst → Fields
  | op o rd rs1 rs2 => ⟨Opcode.OP, rd, o.funct3, rs1, rs2⟩
  | opImm o rd rs1 _ => ⟨Opcode.OP_IMM, rd, o.funct3, rs1, 0⟩
  | shiftImm o rd rs1 _ => ⟨Opcode.OP_IMM, rd, o.funct3, rs1, 0⟩
  | lui rd _ => ⟨Opcode.LUI, rd, 0, 0, 0⟩
  | auipc rd _ => ⟨Opcode.AUIPC, rd, 0, 0, 0⟩
  | load o rd rs1 _ => ⟨Opcode.LOAD, rd, o.funct3, rs1, 0⟩
  | store o rs1 rs2 _ => ⟨Opcode.STORE, 0, o.funct3, rs1, rs2⟩
  | branch o rs1 rs2 _ => ⟨Opcode.BRANCH, 0, o.funct3, rs1, rs2⟩
  | jal rd _ => ⟨Opcode.JAL, rd, 0, 0, 0⟩
  | jalr rd rs1 _ => ⟨Opcode.JALR, rd, 0b000, rs1, 0⟩

/-- The word of an instruction of `OP`. -/
def encodeR (x : Fields) (funct7 : BitVec 7) : Word :=
  place 25 funct7 ||| place 20 x.rs2 ||| place 15 x.rs1 ||| place 12 x.funct3 ||| place 7 x.rd ||| place 0 x.opcode

/-- `OP` has no immediate. -/
def format : Inst → Option Format
  | op .. => none
  | opImm .. | shiftImm .. | load .. | jalr .. => some .I
  | store .. => some .S
  | branch .. => some .B
  | lui .. | auipc .. => some .U
  | jal .. => some .J

def encode (i : Inst) : Word :=
  match i with
  | op o .. => encodeR i.fields o.funct7
  | opImm .. | shiftImm .. | load .. | jalr .. => Format.I.encode i.fields i.imm
  | store .. => Format.S.encode i.fields i.imm
  | branch .. => Format.B.encode i.fields i.imm
  | lui .. | auipc .. => Format.U.encode i.fields i.imm
  | jal .. => Format.J.encode i.fields i.imm

end Inst

/-! ### The fields of an encoded instruction -/

section

variable (x : Fields) (f7 : BitVec 7)

theorem opcode_encodeR : (Inst.encodeR x f7).extractLsb' 0 7 = x.opcode := by
  ext i hi
  interval_cases i <;> simp [Inst.encodeR]

theorem rd_encodeR : (Inst.encodeR x f7).extractLsb' 7 5 = x.rd := by
  ext i hi
  interval_cases i <;> simp [Inst.encodeR]

theorem funct3_encodeR : (Inst.encodeR x f7).extractLsb' 12 3 = x.funct3 := by
  ext i hi
  interval_cases i <;> simp [Inst.encodeR]

theorem rs1_encodeR : (Inst.encodeR x f7).extractLsb' 15 5 = x.rs1 := by
  ext i hi
  interval_cases i <;> simp [Inst.encodeR]

theorem rs2_encodeR : (Inst.encodeR x f7).extractLsb' 20 5 = x.rs2 := by
  ext i hi
  interval_cases i <;> simp [Inst.encodeR]

theorem funct7_encodeR : (Inst.encodeR x f7).extractLsb' 25 7 = f7 := by
  ext i hi
  interval_cases i <;> simp [Inst.encodeR]

end

namespace Inst

/-- Whether the instruction writes `rd`, and whether it reads `rs1` and `rs2`. -/
def writesRd : Inst → Bool
  | store .. | branch .. => false
  | _ => true

def readsRs1 : Inst → Bool
  | lui .. | auipc .. | jal .. => false
  | _ => true

def readsRs2 : Inst → Bool
  | op .. | store .. | branch .. => true
  | _ => false

variable (i : Inst)

theorem opcode_encode : i.encode.extractLsb' 0 7 = i.opcode := by
  cases i with
  | op => exact opcode_encodeR _ _
  | _ => exact Format.opcode_encode _ _ _

theorem rd_encode (h : i.writesRd = true) : i.encode.extractLsb' 7 5 = i.fields.rd := by
  cases i with
  | op => exact rd_encodeR _ _
  | store | branch => exact nomatch h
  | _ => exact Format.rd_encode _ _ _ rfl

theorem funct3_encode (h : i.readsRs1 = true) : i.encode.extractLsb' 12 3 = i.fields.funct3 := by
  cases i with
  | op => exact funct3_encodeR _ _
  | lui | auipc | jal => exact nomatch h
  | _ => exact Format.funct3_encode _ _ _ rfl

theorem rs1_encode (h : i.readsRs1 = true) : i.encode.extractLsb' 15 5 = i.fields.rs1 := by
  cases i with
  | op => exact rs1_encodeR _ _
  | lui | auipc | jal => exact nomatch h
  | _ => exact Format.rs1_encode _ _ _ rfl

theorem rs2_encode (h : i.readsRs2 = true) : i.encode.extractLsb' 20 5 = i.fields.rs2 := by
  cases i with
  | op => exact rs2_encodeR _ _
  | store | branch => exact Format.rs2_encode _ _ _ rfl
  | _ => exact nomatch h

/-- A shift by an immediate has its `funct7` where the others have it. -/
theorem funct7_encode_shiftImm (o : ShiftImm) (rd rs1 : Reg) (shamt : BitVec 5) :
    (shiftImm o rd rs1 shamt).encode.extractLsb' 25 7 = o.funct7 := by
  ext i hi
  have hlow : 5 + i < 7 + 5 := by omega
  have himm : ((o.funct7 ++ shamt).signExtend 32)[5 + i] = o.funct7[i] := by
    rw [getElem_signExtend_low _ (by omega) hlow, BitVec.getElem_append]
    simp
  have hword : ((shiftImm o rd rs1 shamt).encode.extractLsb' 25 7)[i] =
      ((o.funct7 ++ shamt).signExtend 32)[5 + i] := by
    interval_cases i <;> simp [encode, Format.encode, imm]
  exact hword.trans himm

/-- The immediate of an instruction is one of its format. -/
theorem represents_imm {f : Format} (h : i.format = some f) : f.Represents i.imm := by
  cases i with
  | op => exact nomatch h
  | opImm | load | jalr | shiftImm | store =>
    obtain rfl := Option.some.inj h
    exact toInt_signExtend_bounds _ (by decide)
  | lui rd imm | auipc rd imm =>
    obtain rfl := Option.some.inj h
    change (imm ++ 0#12).toNat % 2 ^ 12 = 0
    rw [BitVec.toNat_append, BitVec.toNat_zero, Nat.or_zero, Nat.shiftLeft_eq, Nat.mul_mod_left]
  | branch o rs1 rs2 offset =>
    obtain rfl := Option.some.inj h
    obtain ⟨hlo, hhi⟩ := toInt_signExtend_bounds (offset ++ 0#1) (by decide)
    exact ⟨hlo, hhi, toNat_signExtend_even _ (by decide) (by rw [BitVec.getElem_append]; rfl)⟩
  | jal rd offset =>
    obtain rfl := Option.some.inj h
    obtain ⟨hlo, hhi⟩ := toInt_signExtend_bounds (offset ++ 0#1) (by decide)
    exact ⟨hlo, hhi, toNat_signExtend_even _ (by decide) (by rw [BitVec.getElem_append]; rfl)⟩

theorem ofOpcode_opcode {f : Format} (h : i.format = some f) : Format.ofOpcode i.opcode = some f := by
  cases i with
  | op => exact nomatch h
  | _ => exact h

theorem encode_of_format {f : Format} (h : i.format = some f) : i.encode = f.encode i.fields i.imm := by
  cases i with
  | op => exact nomatch h
  | _ => exact Option.some.inj h ▸ rfl

end Inst

/-! ### Meaning -/

/-- The low five bits of a shift amount. -/
def shamt (y : Word) : Nat := y.toNat % 32

def flag (p : Prop) [Decidable p] : Word := if p then 1 else 0

def Op.eval (x y : Word) : Op → Word
  | ADD => x + y
  | SUB => x - y
  | SLL => x <<< shamt y
  | SLT => flag (x.toInt < y.toInt)
  | SLTU => flag (x.toNat < y.toNat)
  | XOR => x ^^^ y
  | SRL => x >>> shamt y
  | SRA => x.sshiftRight (shamt y)
  | OR => x ||| y
  | AND => x &&& y

def OpImm.toOp : OpImm → Op
  | ADDI => .ADD
  | SLTI => .SLT
  | SLTIU => .SLTU
  | XORI => .XOR
  | ORI => .OR
  | ANDI => .AND

def ShiftImm.toOp : ShiftImm → Op
  | SLLI => .SLL
  | SRLI => .SRL
  | SRAI => .SRA

def Cond.eval (x y : Word) : Cond → Prop
  | BEQ => x = y
  | BNE => x ≠ y
  | BLT => x.toInt < y.toInt
  | BGE => y.toInt ≤ x.toInt
  | BLTU => x.toNat < y.toNat
  | BGEU => y.toNat ≤ x.toNat

instance (x y : Word) : (c : Cond) → Decidable (c.eval x y)
  | .BEQ => inferInstanceAs (Decidable (_ = _))
  | .BNE => inferInstanceAs (Decidable (_ ≠ _))
  | .BLT => inferInstanceAs (Decidable (_ < _))
  | .BGE => inferInstanceAs (Decidable (_ ≤ _))
  | .BLTU => inferInstanceAs (Decidable (_ < _))
  | .BGEU => inferInstanceAs (Decidable (_ ≤ _))

namespace Inst

/-- The value, the effective address or the target that the instruction at `pc` computes from `x` in `rs1` and `y`
in `rs2`. -/
def result (pc x y : Word) (i : Inst) : Word :=
  match i with
  | op o .. => o.eval x y
  | opImm o .. => o.toOp.eval x i.imm
  | shiftImm o _ _ shamt => o.toOp.eval x (shamt.setWidth 32)
  | lui .. => i.imm
  | auipc .. | branch .. | jal .. => pc + i.imm
  | load .. | store .. => x + i.imm
  | jalr .. => (x + i.imm) &&& ~~~1#32

/-- Whether the instruction after it is the one at its target. -/
def taken (x y : Word) : Inst → Prop
  | branch o .. => o.eval x y
  | jal .. | jalr .. => True
  | _ => False

end Inst

end SocModel.Rv32i
