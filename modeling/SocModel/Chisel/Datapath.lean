import SocModel.Isa.Instr

/-!
# Decoding, control and datapath components of the Chisel CPU

`RiscvDefs.scala`, the tables of `Controller.scala`, and `ALU`, `BranchComp` and `ImmGen`. A table is a
`muxLookup`, as in the source; the address width is the 15 bits that `top` instantiates.
-/

namespace SocModel.Chisel

/-- A byte address of the instruction and data memories. -/
abbrev Addr := BitVec 15

/-- `MuxLookup(key, default, cases)`. -/
def muxLookup {κ α : Type} [DecidableEq κ] (key : κ) (default : α) : List (κ × α) → α
  | [] => default
  | (k, v) :: cases => if key = k then v else muxLookup key default cases

/-! ## Fields -/

def opcode (i : Word) : BitVec 7 := i.extractLsb' 0 7
def rd (i : Word) : BitVec 5 := i.extractLsb' 7 5
def funct3 (i : Word) : BitVec 3 := i.extractLsb' 12 3
def rs1 (i : Word) : BitVec 5 := i.extractLsb' 15 5
def rs2 (i : Word) : BitVec 5 := i.extractLsb' 20 5
def funct7 (i : Word) : BitVec 7 := i.extractLsb' 25 7

/-! ## `RiscvDefs.scala` -/

namespace Opcode

def LOAD : BitVec 7 := 0b0000011
def STORE : BitVec 7 := 0b0100011
def BRANCH : BitVec 7 := 0b1100011
def JALR : BitVec 7 := 0b1100111
def JAL : BitVec 7 := 0b1101111
def OP_IMM : BitVec 7 := 0b0010011
def OP : BitVec 7 := 0b0110011
def AUIPC : BitVec 7 := 0b0010111
def LUI : BitVec 7 := 0b0110111
def HCF : BitVec 7 := 0b0001011

end Opcode

/-- `inst_type`. -/
inductive ImmSel where
  | rType | iType | sType | bType | jType | uType
  deriving DecidableEq, Repr

namespace AluOp

def ADD : BitVec 15 := 0b0000000_11111_000
def SLL : BitVec 15 := 0b0000000_11111_001
def SLT : BitVec 15 := 0b0000000_11111_010
def SLTU : BitVec 15 := 0b0000000_11111_011
def XOR : BitVec 15 := 0b0000000_11111_100
def SRL : BitVec 15 := 0b0000000_11111_101
def OR : BitVec 15 := 0b0000000_11111_110
def AND : BitVec 15 := 0b0000000_11111_111
def SUB : BitVec 15 := 0b0100000_11111_000
def SRA : BitVec 15 := 0b0100000_11111_101

end AluOp

/-- `wb_sel_map`. -/
inductive WbSel where
  | pcPlus4 | aluOut | ldData
  deriving DecidableEq, Repr

/-! ## Components -/

def alu (sel : BitVec 15) (src1 src2 : Word) : Word :=
  let sh := (src2.extractLsb' 0 5).toNat
  muxLookup sel 0
    [(AluOp.ADD, src1 + src2), (AluOp.SLL, src1 <<< sh), (AluOp.SLT, if src1.slt src2 then 1 else 0),
      (AluOp.SLTU, if src1.ult src2 then 1 else 0), (AluOp.XOR, src1 ^^^ src2), (AluOp.SRL, src1 >>> sh),
      (AluOp.OR, src1 ||| src2), (AluOp.AND, src1 &&& src2), (AluOp.SUB, src1 - src2),
      (AluOp.SRA, src1.sshiftRight sh)]

/-- `BranchComp`: `BrEq` and `BrLT`. -/
def brEq (src1 src2 : Word) : Bool := src1 == src2

def brLT (brUn : Bool) (src1 src2 : Word) : Bool := if brUn then src1.ult src2 else src1.slt src2

def immGen (sel : ImmSel) (i : Word) : Word :=
  match sel with
  | .rType => 0
  | .iType => (i.extractLsb' 20 12).signExtend 32
  | .bType =>
    ((i.extractLsb' 31 1 ++ i.extractLsb' 7 1 ++ i.extractLsb' 25 6 ++ i.extractLsb' 8 4 ++ 0#1 :
      BitVec 13)).signExtend 32
  | .sType =>
    ((i.extractLsb' 31 1 ++ i.extractLsb' 25 6 ++ i.extractLsb' 8 4 ++ i.extractLsb' 7 1 :
      BitVec 12)).signExtend 32
  | .uType => (i.extractLsb' 12 20 ++ 0#12 : BitVec 32)
  | .jType =>
    ((i.extractLsb' 31 1 ++ i.extractLsb' 12 8 ++ i.extractLsb' 20 1 ++ i.extractLsb' 21 10 ++ 0#1 :
      BitVec 21)).signExtend 32

/-! ## The tables of the controller -/

open Opcode

/-- `E_En`. -/
def eEn (exe : Word) : Bool := opcode exe == BRANCH || opcode exe == JALR || opcode exe == JAL

def eBranchTaken (exe : Word) (eq lt : Bool) : Bool :=
  muxLookup (opcode exe) false
    [(BRANCH, muxLookup (funct3 exe) false
        [(0b000, eq), (0b001, !eq), (0b100, lt), (0b101, !lt), (0b110, lt), (0b111, !lt)]),
      (JALR, true), (JAL, true)]

def eBrUn (exe : Word) : Bool := exe.getLsbD 13

def dImmSel (id : Word) : ImmSel :=
  muxLookup (opcode id) .rType
    [(LOAD, .iType), (STORE, .sType), (BRANCH, .bType), (JALR, .iType), (JAL, .jType), (OP_IMM, .iType),
      (OP, .rType), (AUIPC, .uType), (LUI, .uType), (HCF, .rType)]

/-- `E_ASel`: 0 `rs1`, 1 the pc, 2 zero. -/
def eASel (exe : Word) : BitVec 2 :=
  muxLookup (opcode exe) 0
    [(LOAD, 0), (STORE, 0), (BRANCH, 1), (JALR, 0), (JAL, 1), (OP_IMM, 0), (OP, 0), (AUIPC, 1), (LUI, 2),
      (HCF, 2)]

/-- `E_BSel`: 0 `rs2`, 1 the immediate. -/
def eBSel (exe : Word) : BitVec 1 :=
  muxLookup (opcode exe) 0
    [(LOAD, 1), (STORE, 1), (BRANCH, 1), (JALR, 1), (JAL, 1), (OP_IMM, 1), (OP, 0), (AUIPC, 1), (LUI, 1),
      (HCF, 0)]

def eALUSel (exe : Word) : BitVec 15 :=
  muxLookup (opcode exe) AluOp.ADD
    [(LOAD, AluOp.ADD), (STORE, AluOp.ADD), (BRANCH, AluOp.ADD), (JALR, AluOp.ADD), (JAL, AluOp.ADD),
      (OP_IMM, if funct3 exe = 5 then funct7 exe ++ 0b11111#5 ++ funct3 exe
        else 0#7 ++ 0b11111#5 ++ funct3 exe),
      (OP, funct7 exe ++ 0b11111#5 ++ funct3 exe), (AUIPC, AluOp.ADD), (LUI, AluOp.ADD), (HCF, AluOp.ADD)]

/-- Whether the instruction writes a register: `W_RegWEn`, and `is_E_use_rd` and its siblings. -/
def useRd (i : Word) : Bool :=
  muxLookup (opcode i) false
    [(LOAD, true), (STORE, false), (BRANCH, false), (JALR, true), (JAL, true), (OP_IMM, true), (OP, true),
      (AUIPC, true), (LUI, true), (HCF, false)]

def wWBSel (wb : Word) : WbSel :=
  muxLookup (opcode wb) .aluOut
    [(LOAD, .ldData), (STORE, .aluOut), (BRANCH, .aluOut), (JALR, .pcPlus4), (JAL, .pcPlus4),
      (OP_IMM, .aluOut), (OP, .aluOut), (AUIPC, .aluOut), (LUI, .aluOut), (HCF, .aluOut)]

/-- `is_D_use_rs1`. -/
def useRs1 (id : Word) : Bool :=
  muxLookup (opcode id) false
    [(LOAD, true), (STORE, true), (BRANCH, true), (JALR, true), (JAL, false), (OP_IMM, true), (OP, true),
      (AUIPC, false), (LUI, false), (HCF, false)]

/-- `is_D_use_rs2`. -/
def useRs2 (id : Word) : Bool :=
  muxLookup (opcode id) false
    [(LOAD, false), (STORE, true), (BRANCH, true), (JALR, false), (JAL, false), (OP_IMM, false), (OP, true),
      (AUIPC, false), (LUI, false), (HCF, false)]

/-- A register that `id` reads is the one `i` has still to write. -/
def overlap (id i : Word) : Bool :=
  (useRs1 id && useRd i && rs1 id == rd i && rd i != 0) || (useRs2 id && useRd i && rs2 id == rd i && rd i != 0)

end SocModel.Chisel
