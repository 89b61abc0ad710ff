import Mathlib.Tactic.Common
import Mathlib.Logic.Function.Basic

/-!
# Decoded instructions and the register file

The types of `DataStruct.hh`, which the two CPU models, the assembler and the bus packets share, and the
faults of the C++ code: undefined behaviour and failed assertions. A register operand is the `int` the
assembler stored, so an access of `rf[32]` outside `0 .. 31` is a fault, not a wrapped index.
-/

namespace SocModel

abbrev Word := BitVec 32

/-- Undefined behaviour and failed assertions of the C++ models. -/
inductive Fault where
  /-- `rf[r]` with `r` outside `0 .. 31`. -/
  | registerIndex
  /-- A shift of a 32-bit value by 32 or more. -/
  | shiftAmount
  /-- `imem[pc / 4]` past the end of the instruction memory. -/
  | imemIndex
  /-- `front()` of an empty `std::queue`. -/
  | emptyQueue
  /-- The range check of `BaseMemory::readData` and `writeData`. -/
  | memoryRange
  /-- An `assert` or `LABELED_ASSERT`. -/
  | assertion
  /-- An index past the end of a fixed-size array. -/
  | arrayIndex
  /-- A null pointer given to a function that reads it. -/
  | nullPointer
  deriving DecidableEq, Repr

/-- `instr_type`. The 5-stage model has no `MUL`, `NOP` and SIMD members. -/
inductive InstrType where
  | UNIMPL | ADD | ADDI | AND | ANDI | AUIPC | BEQ | BGE | BGEU | BLT | BLTU | BNE | JAL | JALR
  | LB | LBU | LH | LHU | LUI | LW | OR | ORI | SB | SH | SLL | SLLI | SLT | SLTI | SLTIU | SLTU
  | SRA | SRAI | SRL | SRLI | SUB | SW | XOR | XORI
  | S_ADDI8I8S_VV | S_ADDI16I16S_VV | S_SUBI8I8S_VV | S_SUBI16I16S_VV
  | S_PMULI8I16S_VV_L | S_PMULI8I16S_VV_H | S_AMULI8I8S_VV_NQ | S_AMULI8I8S_VV_L
  | MUL | NOP | HCF
  deriving DecidableEq, Repr, Inhabited

namespace InstrType

def isLoad : InstrType → Bool
  | LB | LBU | LH | LHU | LW => true
  | _ => false

def isStore : InstrType → Bool
  | SB | SH | SW => true
  | _ => false

def isCfu : InstrType → Bool
  | S_ADDI8I8S_VV | S_ADDI16I16S_VV | S_SUBI8I8S_VV | S_SUBI16I16S_VV
  | S_PMULI8I16S_VV_L | S_PMULI8I16S_VV_H | S_AMULI8I8S_VV_NQ | S_AMULI8I8S_VV_L => true
  | _ => false

/-- A load or a store: what goes over the bus. -/
def isMem (op : InstrType) : Bool := op.isLoad || op.isStore

end InstrType

/-- `operand_type`. -/
inductive OperandType where
  | none | reg | imm | label
  deriving DecidableEq, Repr, Inhabited

/-- `operand`. The label is its text, `[]` where the assembler stored none. -/
structure Operand where
  type : OperandType := .none
  label : List Char := []
  reg : Int := 0
  imm : Word := 0
  deriving DecidableEq, Repr, Inhabited

/-- `instr`, without the `psrc` text and the debugger's breakpoint flag. -/
structure Instr where
  op : InstrType := .UNIMPL
  a1 : Operand := {}
  a2 : Operand := {}
  a3 : Operand := {}
  origLine : Int := -1
  deriving DecidableEq, Repr, Inhabited

/-- The array `imem` of `size` instructions. -/
structure Imem where
  size : Nat
  code : Nat → Instr

namespace Imem

/-- `imem[k]`. -/
def fetch (m : Imem) (k : Nat) : Except Fault Instr :=
  if k < m.size then .ok (m.code k) else .error .imemIndex

def ofList (is : List Instr) : Imem := ⟨is.length, fun k => is.getD k {}⟩

end Imem

/-! ## The register file -/

/-- `uint32_t rf[32]`. -/
abbrev Regfile := Fin 32 → Word

/-- The cell `rf[r]` names. -/
def regIndex (r : Int) : Except Fault (Fin 32) :=
  if h : 0 ≤ r ∧ r < 32 then .ok ⟨r.toNat, by omega⟩ else .error .registerIndex

theorem regIndex_eq_ok {r : Int} {k : Fin 32} : regIndex r = .ok k ↔ r = k.val := by
  unfold regIndex
  split
  · next h =>
    simp only [Except.ok.injEq, Fin.ext_iff]
    omega
  · next h =>
    have := k.isLt
    simp only [reduceCtorEq, false_iff]
    omega

theorem regIndex_eq_ok_zero {r : Int} : regIndex r = .ok 0 ↔ r = 0 := regIndex_eq_ok

namespace Regfile

def read (rf : Regfile) (o : Operand) : Except Fault Word := do
  let k ← regIndex o.reg
  return rf k

def write (rf : Regfile) (o : Operand) (v : Word) : Except Fault Regfile := do
  let k ← regIndex o.reg
  return Function.update rf k v

theorem write_eq_ok {rf rf' : Regfile} {o : Operand} {v : Word} :
    rf.write o v = .ok rf' ↔ ∃ k : Fin 32, o.reg = k.val ∧ rf' = Function.update rf k v := by
  unfold write
  cases h : regIndex o.reg with
  | error e =>
    simp only [bind, Except.bind, reduceCtorEq, false_iff, not_exists, not_and]
    intro k hk
    rw [regIndex_eq_ok.mpr hk] at h
    cases h
  | ok k =>
    rw [regIndex_eq_ok] at h
    simp only [bind, Except.bind, pure, Except.pure, Except.ok.injEq]
    constructor
    · rintro rfl
      exact ⟨k, h, rfl⟩
    · rintro ⟨j, hj, rfl⟩
      rw [show j = k from Fin.ext (by omega)]

/-- A write to another register than `x0` leaves `x0` as it was. -/
theorem write_zero {rf rf' : Regfile} {o : Operand} {v : Word} (h : rf.write o v = .ok rf')
    (ho : o.reg ≠ 0) : rf' 0 = rf 0 := by
  obtain ⟨k, hk, rfl⟩ := write_eq_ok.mp h
  have hne : (0 : Fin 32) ≠ k := by
    rintro rfl
    exact ho hk
  simp [hne]

end Regfile

end SocModel
