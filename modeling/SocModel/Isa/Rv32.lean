import Mathlib.Algebra.Group.Nat.Defs
import SocModel.Chisel.Datapath
import SocModel.Isa.Exec

/-!
# What RV32I defines

The values and targets that the instruction set defines, in terms of the operands, and what the switch of the two
CPU models does about them.

* `InstrType.aluValue`, `rdValue` : what an instruction writes to `rd`, `alu_eq_aluValue` : the ALU of the pipeline
  computes the same;
* `Operands` : an instruction whose operands are registers;
* `execBase_alu_iff` : when the switch writes that value, `execBase_branch` : the branches.
-/

namespace SocModel

namespace InstrType

/-- The instructions with two source registers. -/
def isRegAlu : InstrType → Bool
  | ADD | SUB | SLT | SLTU | AND | OR | XOR | SLL | SRL | SRA | MUL => true
  | _ => false

/-- The instructions with a source register and an immediate. -/
def isImmAlu : InstrType → Bool
  | ADDI | SLTI | SLTIU | ANDI | ORI | XORI | SLLI | SRLI | SRAI => true
  | _ => false

def isUpper : InstrType → Bool
  | LUI | AUIPC => true
  | _ => false

def isAlu (op : InstrType) : Bool := op.isRegAlu || op.isImmAlu || op.isUpper

def isBranch : InstrType → Bool
  | BEQ | BGE | BGEU | BLT | BLTU | BNE => true
  | _ => false

/-- The low five bits of a shift amount. -/
def shamt (y : Word) : Nat := (y.extractLsb' 0 5).toNat

/-- The function of two operands that RV32I and `MUL` define. -/
def aluValue (op : InstrType) (x y : Word) : Word :=
  match op with
  | ADD | ADDI => x + y
  | SUB => x - y
  | MUL => x * y
  | SLT | SLTI => ofBool (x.slt y)
  | SLTU | SLTIU => ofBool (x.ult y)
  | AND | ANDI => x &&& y
  | OR | ORI => x ||| y
  | XOR | XORI => x ^^^ y
  | SLL | SLLI => x <<< shamt y
  | SRL | SRLI => x >>> shamt y
  | SRA | SRAI => x.sshiftRight (shamt y)
  | _ => 0

/-- Whether a branch on the values `x` and `y` is taken. -/
def taken (op : InstrType) (x y : Word) : Bool :=
  match op with
  | BEQ => x == y
  | BNE => x != y
  | BLT => decide (x.toInt < y.toInt)
  | BGE => decide (y.toInt ≤ x.toInt)
  | BLTU => decide (x.toNat < y.toNat)
  | BGEU => decide (y.toNat ≤ x.toNat)
  | _ => false

/-- The select code of the pipeline's ALU. -/
def aluSel : InstrType → Option (BitVec 15)
  | ADD | ADDI => some Chisel.AluOp.ADD
  | SUB => some Chisel.AluOp.SUB
  | SLT | SLTI => some Chisel.AluOp.SLT
  | SLTU | SLTIU => some Chisel.AluOp.SLTU
  | AND | ANDI => some Chisel.AluOp.AND
  | OR | ORI => some Chisel.AluOp.OR
  | XOR | XORI => some Chisel.AluOp.XOR
  | SLL | SLLI => some Chisel.AluOp.SLL
  | SRL | SRLI => some Chisel.AluOp.SRL
  | SRA | SRAI => some Chisel.AluOp.SRA
  | _ => none

/-- `ALU.scala` computes the same function. -/
theorem alu_eq_aluValue {op : InstrType} {sel : BitVec 15} (h : op.aluSel = some sel) (x y : Word) :
    Chisel.alu sel x y = op.aluValue x y := by
  unfold aluSel at h
  split at h
  all_goals first
    | exact Option.some.inj h ▸ rfl
    | exact absurd h (by simp)

end InstrType

/-- The upper immediate of `LUI` and `AUIPC`: 20 bits, above 12 zeros. -/
def upperImm (imm : Word) : Word := (imm.extractLsb' 0 20 ++ 0#12 : BitVec 32)

theorem shiftLeft_eq_upperImm (imm : Word) : imm <<< 12 = upperImm imm := by
  apply BitVec.eq_of_getLsbD_eq
  intro k hk
  unfold upperImm
  rw [BitVec.getLsbD_shiftLeft, BitVec.getLsbD_append]
  by_cases h12 : k < 12
  · simp [h12]
  · have h20 : k - 12 < 20 := by omega
    simp [h12, hk, h20]

/-- The value of `rd` after an instruction at `pc` that reads `x` and `y`. -/
def rdValue (i : Instr) (pc x y : Word) : Word :=
  match i.op with
  | .LUI => upperImm i.a2.imm
  | .AUIPC => pc + upperImm i.a2.imm
  | op => if op.isImmAlu then op.aluValue x i.a3.imm else op.aluValue x y

/-! ## Operands -/

/-- The operand is a register that the switch reads. -/
def InstrType.readsA2 (op : InstrType) : Bool := op.isRegAlu || op.isImmAlu || op.isBranch || op == .JALR

/-- The registers `r1`, `r2` and `r3` of an instruction, as far as it has them. -/
structure Operands (i : Instr) where
  r1 : Fin 32
  r2 : Fin 32
  r3 : Fin 32
  a1 : i.a1.reg = r1.val
  a2 : i.op.readsA2 = true → i.a2.reg = r2.val
  a3 : i.op.isRegAlu = true → i.a3.reg = r3.val

theorem Regfile.read_of_eq {rf : Regfile} {o : Operand} {k : Fin 32} (h : o.reg = k.val) : rf.read o = .ok (rf k) := by
  unfold Regfile.read
  rw [regIndex_eq_ok.mpr h]
  rfl

/-- The file after a write to register `k`. -/
theorem Regfile.write_of_eq {rf : Regfile} {o : Operand} {k : Fin 32} (h : o.reg = k.val) (v : Word) :
    rf.write o v = .ok (Function.update rf k v) := Regfile.write_eq_ok.mpr ⟨k, h, rfl⟩

/-! ## The value that the switch writes -/

/-- `v` is written to `r`, and the next instruction follows. -/
def commitValue (rf : Regfile) (r : Fin 32) (pc : Word) (v : Except Fault Word) : Except Fault Effect :=
  v.map fun v => .commit (Function.update rf r v) (pc + 4)

theorem commitValue_eq_iff {rf : Regfile} {r : Fin 32} {pc w : Word} {v : Except Fault Word} :
    commitValue rf r pc v = .ok (.commit (Function.update rf r w) (pc + 4)) ↔ v = .ok w := by
  cases v with
  | error e => simp [commitValue, Except.map]
  | ok v =>
    simp only [commitValue, Except.map, Except.ok.injEq, Effect.commit.injEq, and_true]
    constructor
    · intro h
      simpa using congrFun h r
    · rintro rfl
      rfl

section

variable {i : Instr} (o : Operands i) (pc w : Word) (rf : Regfile)

theorem opRR_iff (h : i.op.isRegAlu = true) (f : Word → Word → Except Fault Word) :
    Effect.opRR f i pc rf = .ok (.commit (Function.update rf o.r1 w) (pc + 4)) ↔ f (rf o.r2) (rf o.r3) = .ok w := by
  have h2 := o.a2 (by simp [InstrType.readsA2, h])
  have hw : ∀ v, rf.write i.a1 v = .ok (Function.update rf o.r1 v) := Regfile.write_of_eq o.a1
  have heq : Effect.opRR f i pc rf = commitValue rf o.r1 pc (f (rf o.r2) (rf o.r3)) := by
    unfold Effect.opRR
    rw [Regfile.read_of_eq h2, Regfile.read_of_eq (o.a3 h)]
    cases hf : f (rf o.r2) (rf o.r3) with
    | error e => simp only [bind, Except.bind, hf, commitValue, Except.map]
    | ok v => simp only [bind, Except.bind, hf, hw, commitValue, Except.map, pure, Except.pure]
  rw [heq, commitValue_eq_iff]

theorem opRI_iff (h : i.op.isImmAlu = true) (f : Word → Word → Except Fault Word) :
    Effect.opRI f i pc rf = .ok (.commit (Function.update rf o.r1 w) (pc + 4)) ↔ f (rf o.r2) i.a3.imm = .ok w := by
  have h2 := o.a2 (by simp [InstrType.readsA2, h])
  have hw : ∀ v, rf.write i.a1 v = .ok (Function.update rf o.r1 v) := Regfile.write_of_eq o.a1
  have heq : Effect.opRI f i pc rf = commitValue rf o.r1 pc (f (rf o.r2) i.a3.imm) := by
    unfold Effect.opRI
    rw [Regfile.read_of_eq h2]
    cases hf : f (rf o.r2) i.a3.imm with
    | error e => simp only [bind, Except.bind, hf, commitValue, Except.map]
    | ok v => simp only [bind, Except.bind, hf, hw, commitValue, Except.map, pure, Except.pure]
  rw [heq, commitValue_eq_iff]

theorem opU_iff (v : Word) : Effect.opU v (fun _ => .ok (pc + 4)) i rf =
    .ok (.commit (Function.update rf o.r1 w) (pc + 4)) ↔ (.ok v : Except Fault Word) = .ok w := by
  unfold Effect.opU
  rw [Regfile.write_of_eq o.a1]
  exact commitValue_eq_iff (v := .ok v)

end

/-- The sum of two words is the unsigned comparison. -/
def SumCompares (x y : Word) : Prop :=
  (x.toNat = 0 ∧ y.toNat ≤ 1) ∨ (x.toNat + y.toNat = 2 ^ 32 ∧ 2 ^ 31 ≤ x.toNat) ∨
    (x.toNat + y.toNat = 2 ^ 32 + 1 ∧ 2 ≤ x.toNat ∧ x.toNat ≤ 2 ^ 31)

instance (x y : Word) : Decidable (SumCompares x y) := by unfold SumCompares; infer_instance

theorem add_eq_ult_iff (x y : Word) : x + y = ofBool (x.ult y) ↔ SumCompares x y := by
  have hx := x.isLt
  have hy := y.isLt
  rw [← BitVec.toNat_inj, BitVec.toNat_add, BitVec.ult]
  unfold SumCompares
  by_cases h : x.toNat < y.toNat
  · rw [decide_eq_true h, show (ofBool true).toNat = 1 from rfl]
    omega
  · rw [decide_eq_false h, show (ofBool false).toNat = 0 from rfl]
    omega

/-- The operands on which the switch writes what is defined: `SLTU` adds, and the shift operators of C++ have no
value from 32 on. -/
def AluExact (i : Instr) (x y : Word) : Prop :=
  match i.op with
  | .SLTU => SumCompares x y
  | .SLL | .SRL | .SRA => y.toNat < 32
  | .SLLI | .SRLI | .SRAI => i.a3.imm.toNat < 32
  | _ => True

instance (i : Instr) (x y : Word) : Decidable (AluExact i x y) := by unfold AluExact; split <;> infer_instance

theorem shamt_of_lt {y : Word} (h : y.toNat < 32) : InstrType.shamt y = y.toNat := by
  unfold InstrType.shamt
  rw [BitVec.extractLsb'_toNat, Nat.shiftRight_zero]
  exact Nat.mod_eq_of_lt h

/-- A shift of C++ has the value of the shift by the low five bits, or none. -/
theorem shift_eq_iff {f : Word → Nat → Word} {x y : Word} :
    (if y.toNat < 32 then .ok (f x y.toNat) else .error .shiftAmount : Except Fault Word) =
      .ok (f x (InstrType.shamt y)) ↔ y.toNat < 32 := by
  by_cases h : y.toNat < 32
  · simp [h, shamt_of_lt h]
  · simp [h]

/-- **The switch writes the defined value** and nothing else, exactly on these operands. -/
theorem execBase_alu_iff {i : Instr} (o : Operands i) (hop : i.op.isAlu = true) (hmul : i.op ≠ .MUL) (pc : Word)
    (rf : Regfile) : execBase i pc rf =
      .ok (.commit (Function.update rf o.r1 (rdValue i pc (rf o.r2) (rf o.r3))) (pc + 4)) ↔
      AluExact i (rf o.r2) (rf o.r3) := by
  unfold execBase rdValue AluExact
  cases h : i.op <;> simp only [h] at hop hmul
  all_goals first
    | exact absurd hop (by decide)
    | exact absurd rfl hmul
    | refine (opRR_iff o pc _ rf (by rw [h]; rfl) _).trans ?_
    | refine (opRI_iff o pc _ rf (by rw [h]; rfl) _).trans ?_
    | refine (opU_iff o pc _ rf _).trans ?_
  case SLTU =>
    rw [Except.ok.injEq]
    exact add_eq_ult_iff _ _
  case LUI => exact iff_of_true (by rw [shiftLeft_eq_upperImm]) trivial
  case AUIPC => exact iff_of_true (by rw [shiftLeft_eq_upperImm]) trivial
  case SLL | SRL | SRA | SLLI | SRLI | SRAI => exact shift_eq_iff
  all_goals exact iff_of_true rfl trivial

/-! ## Control transfers -/

/-- A branch, `JAL` or `JALR`. -/
def InstrType.isControl (op : InstrType) : Bool := op.isBranch || op == .JAL || op == .JALR

/-- What the sign extension of a 12-bit offset adds to the immediate that the assembler stored. -/
def offsetExtension (imm : Word) : Word := (imm.extractLsb' 0 12).signExtend 32 - imm

/-- The next `pc`, in terms of the registers before the instruction. -/
def target (i : Instr) (o : Operands i) (pc : Word) (rf : Regfile) : Word :=
  match i.op with
  | .JAL => i.a2.imm
  | .JALR => rf o.r2 + (i.a3.imm.extractLsb' 0 12).signExtend 32
  | op => if op.taken (rf o.r1) (rf o.r2) then i.a3.imm else pc + 4

/-- The registers after the instruction: a jump links in `rd`, unless that is `x0`. -/
def linked (i : Instr) (o : Operands i) (pc : Word) (rf : Regfile) : Regfile :=
  if i.op.isBranch = true ∨ o.r1.val = 0 then rf else Function.update rf o.r1 (pc + 4)

/-- The states in which the switch does that: it links in `x0` too, it reads `rs1` after the link, and it takes
the stored offset as it is. -/
def ControlExact (i : Instr) (o : Operands i) (pc : Word) (rf : Regfile) : Prop :=
  match i.op with
  | .JAL => o.r1.val = 0 → rf o.r1 = pc + 4
  | .JALR => (o.r1.val = 0 → rf o.r1 = pc + 4) ∧
    if o.r1 = o.r2 then rf o.r2 + offsetExtension i.a3.imm = pc + 4 else offsetExtension i.a3.imm = 0
  | _ => True

section

variable {i : Instr} (o : Operands i) (pc : Word) (rf : Regfile)

theorem branch_eq (h : i.op.isBranch = true) (taken : Word → Word → Bool) : Effect.branch taken i pc rf =
    .ok (.commit rf (if taken (rf o.r1) (rf o.r2) then i.a3.imm else pc + 4)) := by
  unfold Effect.branch
  rw [Regfile.read_of_eq o.a1, Regfile.read_of_eq (o.a2 (by simp [InstrType.readsA2, h]))]
  rfl

theorem execBase_branch (h : i.op.isBranch = true) :
    execBase i pc rf = .ok (.commit (linked i o pc rf) (target i o pc rf)) := by
  unfold linked target execBase
  rw [if_pos (.inl h)]
  cases hop : i.op <;> simp only [hop] at h
  all_goals first
    | exact absurd h (by decide)
    | exact branch_eq o pc rf (by rw [hop]; rfl) _

theorem execBase_jal (h : i.op = .JAL) :
    execBase i pc rf = .ok (.commit (Function.update rf o.r1 (pc + 4)) i.a2.imm) := by
  unfold execBase
  rw [h]
  simp only [Effect.opU]
  rw [Regfile.write_of_eq o.a1]
  rfl

theorem execBase_jalr (h : i.op = .JALR) : execBase i pc rf = .ok (.commit (Function.update rf o.r1 (pc + 4))
    (Function.update rf o.r1 (pc + 4) o.r2 + i.a3.imm)) := by
  have h2 := o.a2 (by rw [h]; rfl)
  unfold execBase
  rw [h]
  simp only [Effect.opU]
  rw [Regfile.write_of_eq o.a1]
  simp only [bind, Except.bind]
  rw [Regfile.read_of_eq h2]
  rfl

/-- The link leaves the registers as defined if `rd` is not `x0`, or holds the link already. -/
theorem update_eq_linked (h : i.op.isBranch = false) :
    Function.update rf o.r1 (pc + 4) = linked i o pc rf ↔ (o.r1.val = 0 → rf o.r1 = pc + 4) := by
  unfold linked
  by_cases h0 : o.r1.val = 0
  · rw [if_pos (.inr h0), Function.update_eq_self_iff, eq_comm]
    exact ⟨fun h _ => h, fun h => h h0⟩
  · rw [if_neg (by simp [h, h0])]
    exact iff_of_true rfl fun h => absurd h h0

theorem jalrTarget_iff (h : i.op = .JALR) : Function.update rf o.r1 (pc + 4) o.r2 + i.a3.imm = target i o pc rf ↔
    if o.r1 = o.r2 then rf o.r2 + offsetExtension i.a3.imm = pc + 4 else offsetExtension i.a3.imm = 0 := by
  unfold target offsetExtension
  simp only [h]
  generalize (i.a3.imm.extractLsb' 0 12).signExtend 32 = ext
  by_cases hr : o.r1 = o.r2
  · rw [if_pos hr, hr, Function.update_self]
    constructor
    · intro heq
      bv_omega
    · intro heq
      bv_omega
  · rw [if_neg hr, Function.update_of_ne (Ne.symm hr)]
    constructor
    · intro heq
      bv_omega
    · intro heq
      bv_omega

/-- **The switch transfers control as defined** exactly in these states. -/
theorem execBase_control_iff (h : i.op.isControl = true) :
    execBase i pc rf = .ok (.commit (linked i o pc rf) (target i o pc rf)) ↔ ControlExact i o pc rf := by
  unfold ControlExact
  cases hop : i.op <;> simp only [hop] at h
  case JAL =>
    rw [execBase_jal o pc rf hop, ← update_eq_linked o pc rf (by rw [hop]; rfl)]
    simp [target, hop]
  case JALR =>
    rw [execBase_jalr o pc rf hop, ← update_eq_linked o pc rf (by rw [hop]; rfl), ← jalrTarget_iff o pc rf hop]
    simp
  all_goals first
    | exact absurd h (by decide)
    | exact iff_of_true (execBase_branch o pc rf (by rw [hop]; rfl)) trivial

end

/-- Sign extension from 12 bits, as a number. -/
theorem toInt_signExtend_low (imm : Word) : ((imm.extractLsb' 0 12).signExtend 32).toInt =
    if imm.toNat % 4096 < 2048 then (imm.toNat % 4096 : Int) else (imm.toNat % 4096 : Int) - 4096 := by
  have hlow : (imm.extractLsb' 0 12).toNat = imm.toNat % 4096 := by
    rw [BitVec.extractLsb'_toNat, Nat.shiftRight_zero]
  rw [BitVec.toInt_signExtend_of_le (by decide), BitVec.toInt_eq_toNat_cond, hlow]
  split <;> split <;> omega

/-- Of the offsets that the assembler accepts, sign extension changes those from 2048 on. -/
theorem offsetExtension_of_accepted {imm : Word} (h : -2048 ≤ imm.toInt ∧ imm.toInt ≤ 4095) :
    offsetExtension imm = if imm.toInt < 2048 then 0 else -4096 := by
  have hlow := toInt_signExtend_low imm
  have himm := BitVec.toInt_eq_toNat_cond imm
  have hlt := imm.isLt
  unfold offsetExtension
  generalize (imm.extractLsb' 0 12).signExtend 32 = ext at hlow ⊢
  apply BitVec.eq_of_toInt_eq
  rw [BitVec.toInt_sub]
  split
  · next hsmall =>
    rw [show ext.toInt = imm.toInt by split at hlow <;> split at himm <;> omega, Int.sub_self]
    rfl
  · next hlarge =>
    rw [show ext.toInt - imm.toInt = -4096 by split at hlow <;> split at himm <;> omega]
    rfl

end SocModel
