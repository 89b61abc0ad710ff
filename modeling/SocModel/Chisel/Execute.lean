import SocModel.Chisel.Immediate
import SocModel.Chisel.Pipeline

/-!
# The EXE stage

What the selects of the controller, the operand muxes, the ALU and the branch comparator make of an encoded
instruction: the value, address or target of RV32I (`exeAluOut_encode`), and its decision to leave the straight
line (`branchTaken_encode`).
-/

namespace SocModel.Chisel

open Rv32i (Inst Op OpImm ShiftImm Cond)

/-! ## The fields -/

section

variable (i : Inst)

theorem opcode_encode : opcode i.encode = i.opcode := i.opcode_encode

theorem funct3_encode (h : i.readsRs1 = true) : funct3 i.encode = i.fields.funct3 := i.funct3_encode h

theorem funct7_encode_op (o : Op) (rd rs1 rs2 : BitVec 5) : funct7 (Inst.op o rd rs1 rs2).encode = o.funct7 :=
  Rv32i.funct7_encodeR _ _

theorem funct7_encode_shiftImm (o : ShiftImm) (rd rs1 shamt : BitVec 5) :
    funct7 (Inst.shiftImm o rd rs1 shamt).encode = o.funct7 :=
  Inst.funct7_encode_shiftImm o rd rs1 shamt

/-- The immediate that ID hands on. -/
theorem immGen_inst {f : Rv32i.Format} (h : i.format = some f) : immGen (dImmSel i.encode) i.encode = i.imm := by
  have hop : Rv32i.Format.ofOpcode i.fields.opcode = some f := by
    have hfields : i.fields.opcode = i.opcode := by cases i <;> rfl
    rw [hfields, i.ofOpcode_opcode h]
  rw [i.encode_of_format h]
  exact immGen_encode i.fields hop (i.represents_imm h)

end

/-! ## The ALU -/

theorem shamt_eq (y : Word) : (y.extractLsb' 0 5).toNat = Rv32i.shamt y := by
  simp [Rv32i.shamt]

/-- The select that `OP` makes of `funct7` and `funct3`. -/
theorem alu_op (o : Op) (x y : Word) : alu (o.funct7 ++ 0b11111#5 ++ o.funct3) x y = o.eval x y := by
  cases o with
  | SLL => exact congrArg (x <<< ·) (shamt_eq y)
  | SRL => exact congrArg (x >>> ·) (shamt_eq y)
  | SRA => exact congrArg (x.sshiftRight ·) (shamt_eq y)
  | SLT =>
    change (if x.slt y then 1 else 0) = Rv32i.flag (x.toInt < y.toInt)
    simp [Rv32i.flag, BitVec.slt]
  | SLTU =>
    change (if x.ult y then 1 else 0) = Rv32i.flag (x.toNat < y.toNat)
    simp [Rv32i.flag, BitVec.ult]
  | _ => rfl

/-- An operation with an immediate has no `funct7`; its select is that of the operation. -/
theorem alu_opImm (o : OpImm) (x y : Word) : alu (0#7 ++ 0b11111#5 ++ o.funct3) x y = o.toOp.eval x y := by
  rw [← alu_op]
  cases o <;> rfl

/-- The shifts by an immediate differ in `funct7` only for `funct3 = 5`. -/
theorem alu_shiftImm (o : ShiftImm) (x y : Word) :
    alu (if o.funct3 = 5 then o.funct7 ++ 0b11111#5 ++ o.funct3 else 0#7 ++ 0b11111#5 ++ o.funct3) x y =
      o.toOp.eval x y := by
  rw [← alu_op]
  cases o <;> rfl

/-- A shift reads the low five bits of its operand, where the amount of a shift by an immediate is. -/
theorem eval_shiftImm (o : ShiftImm) (rd rs1 shamt : BitVec 5) (x : Word) :
    o.toOp.eval x (Inst.shiftImm o rd rs1 shamt).imm = o.toOp.eval x (shamt.setWidth 32) := by
  have hamount : Rv32i.shamt (Inst.shiftImm o rd rs1 shamt).imm = Rv32i.shamt (shamt.setWidth 32) := by
    rw [← shamt_eq, ← shamt_eq]
    congr 1
    ext j hj
    rw [BitVec.getElem_extractLsb', BitVec.getElem_extractLsb', Nat.zero_add, BitVec.getLsbD_eq_getElem (by omega),
      Inst.imm, Rv32i.getElem_signExtend_low _ (by omega) (by omega), BitVec.getElem_append]
    simp [hj]
    omega
  cases o with
  | SLLI => exact congrArg (x <<< ·) hamount
  | SRLI => exact congrArg (x >>> ·) hamount
  | SRAI => exact congrArg (x.sshiftRight ·) hamount

/-! ## The comparator -/

theorem eBrUn_eq (w : Word) : eBrUn w = (funct3 w)[1] := by
  simp [eBrUn, funct3]

/-- `E_Branch_taken` of a branch. -/
theorem branch_decision (o : Cond) (x y : Word) :
    muxLookup o.funct3 false
      [(0b000, brEq x y), (0b001, !brEq x y), (0b100, brLT o.funct3[1] x y), (0b101, !brLT o.funct3[1] x y),
        (0b110, brLT o.funct3[1] x y), (0b111, !brLT o.funct3[1] x y)] = decide (o.eval x y) := by
  cases o with
  | BEQ =>
    change (x == y) = decide (x = y)
    rfl
  | BNE =>
    change (!(x == y)) = decide (x ≠ y)
    rw [beq_eq_decide, decide_not]
  | BLT => rfl
  | BLTU => rfl
  | BGE =>
    change (!decide (x.toInt < y.toInt)) = decide (y.toInt ≤ x.toInt)
    rw [← decide_not]
    exact decide_eq_decide.mpr not_lt
  | BGEU =>
    change (!decide (x.toNat < y.toNat)) = decide (y.toNat ≤ x.toNat)
    rw [← decide_not]
    exact decide_eq_decide.mpr not_lt

/-! ## The stage -/

section

variable {s : State} {i : Inst}

/-- The first operand of RV32I: zero, the pc or `rs1`. -/
def operand1 (s : State) : Inst → Word
  | .lui .. => 0
  | .auipc .. | .branch .. | .jal .. => s.exe.pc.setWidth 32
  | _ => s.exe.rs1

/-- The second operand: `rs2` or the immediate. -/
def operand2 (s : State) (i : Inst) : Word :=
  match i with
  | .op .. => s.exe.rs2
  | _ => i.imm

theorem aluSrc1_encode (hinst : s.exe.inst = i.encode) : s.aluSrc1 = operand1 s i := by
  rw [State.aluSrc1, eASel, hinst, opcode_encode]
  cases i <;> rfl

theorem aluSrc2_encode (hinst : s.exe.inst = i.encode) (himm : s.exe.imm = immGen (dImmSel i.encode) i.encode) :
    s.aluSrc2 = operand2 s i := by
  rw [State.aluSrc2, eBSel, hinst, opcode_encode]
  cases i with
  | op => rfl
  | _ => exact himm.trans (immGen_inst _ rfl)

/-- The ALU yields the result, address or target of RV32I. `JALR` has no part in it: its target has bit 0 cleared,
and the stage does not clear it. -/
theorem exeAluOut_encode (hinst : s.exe.inst = i.encode) (himm : s.exe.imm = immGen (dImmSel i.encode) i.encode)
    (hj : i.opcode ≠ Rv32i.Opcode.JALR) :
    s.exeAluOut = i.result (s.exe.pc.setWidth 32) s.exe.rs1 s.exe.rs2 := by
  rw [State.exeAluOut, aluSrc1_encode hinst, aluSrc2_encode hinst himm, hinst]
  cases i with
  | op o rd rs1 rs2 =>
    have hsel : eALUSel (Inst.op o rd rs1 rs2).encode = o.funct7 ++ 0b11111#5 ++ o.funct3 := by
      rw [eALUSel, opcode_encode, funct7_encode_op, funct3_encode _ rfl]
      rfl
    rw [hsel]
    exact alu_op o _ _
  | opImm o rd rs1 imm =>
    have h5 : o.funct3 ≠ 5 := by cases o <;> decide
    have hsel : eALUSel (Inst.opImm o rd rs1 imm).encode = 0#7 ++ 0b11111#5 ++ o.funct3 := by
      rw [eALUSel, opcode_encode, funct3_encode _ rfl]
      exact if_neg h5
    rw [hsel]
    exact alu_opImm o _ _
  | shiftImm o rd rs1 shamt =>
    have hsel : eALUSel (Inst.shiftImm o rd rs1 shamt).encode =
        if o.funct3 = 5 then o.funct7 ++ 0b11111#5 ++ o.funct3 else 0#7 ++ 0b11111#5 ++ o.funct3 := by
      rw [eALUSel, opcode_encode, funct3_encode _ rfl, funct7_encode_shiftImm]
      rfl
    rw [hsel]
    exact (alu_shiftImm o _ _).trans (eval_shiftImm o rd rs1 shamt _)
  | lui rd imm =>
    rw [eALUSel, opcode_encode]
    exact BitVec.zero_add _
  | jalr => exact absurd rfl hj
  | auipc | load | store | branch | jal =>
    rw [eALUSel, opcode_encode]
    rfl

theorem branchTaken_encode (hinst : s.exe.inst = i.encode) :
    s.branchTaken = true ↔ i.taken s.exe.rs1 s.exe.rs2 := by
  rw [State.branchTaken, eBranchTaken, eBrUn_eq, hinst, opcode_encode]
  cases i with
  | branch o rs1 rs2 offset =>
    rw [funct3_encode _ rfl]
    exact (Bool.eq_iff_iff.mp (branch_decision o _ _)).trans decide_eq_true_iff
  | jal | jalr => exact iff_of_true rfl trivial
  | _ => exact iff_of_false (fun h => Bool.false_ne_true h) id

/-- **EXE computes what RV32I defines.** For every encoded instruction but `JALR`, the registers of the stage being
whatever they are and the immediate the one that ID produced, the ALU yields the result, the effective address or
the target; and `E_Branch_taken` holds exactly when the branch is taken or the instruction is a jump. -/
theorem exe_semantics (i : Inst) (hj : i.opcode ≠ Rv32i.Opcode.JALR) (s : State) (hinst : s.exe.inst = i.encode)
    (himm : s.exe.imm = immGen (dImmSel i.encode) i.encode) :
    s.exeAluOut = i.result (s.exe.pc.setWidth 32) s.exe.rs1 s.exe.rs2 ∧
      (s.branchTaken = true ↔ i.taken s.exe.rs1 s.exe.rs2) :=
  ⟨exeAluOut_encode hinst himm hj, branchTaken_encode hinst⟩

/-- `SRAI x1, x2, 4` of a negative number. -/
theorem exe_semantics_srai :
    let w := (Inst.shiftImm .SRAI 1 2 4).encode
    let s : State := { exe := { inst := w, imm := immGen (dImmSel w) w, rs1 := -256 } }
    s.exeAluOut = (Inst.shiftImm .SRAI 1 2 4).result (s.exe.pc.setWidth 32) (-256) s.exe.rs2 :=
  (exe_semantics (.shiftImm .SRAI 1 2 4) (by decide)
    { exe := { inst := (Inst.shiftImm .SRAI 1 2 4).encode
               imm := immGen (dImmSel (Inst.shiftImm .SRAI 1 2 4).encode) (Inst.shiftImm .SRAI 1 2 4).encode
               rs1 := -256 } } rfl rfl).1

end

end SocModel.Chisel
