import SocModel.Cpu.Model
import SocModel.Isa.Rv32
import SocModel.Stage5.Cpu

/-!
# The two functional CPUs against the instruction set

`processInstr` of `soc/libs/CPU.cc` and of `src/riscv/libs/CPU.cc` on the instructions that end in it: for which
operands they do what RV32I defines.

* `Cpu.Does`, `Stage5.Does` : the call ends with these registers and this `pc`;
* `alu_exact` : computing instructions, `control_exact` : branches and jumps.
-/

namespace SocModel

/-! ## One call -/

/-- `processInstr` leads from `s` to the registers `rf` and the program counter `pc`. -/
def Cpu.Does (port : Lib.Port) (i : Instr) (s : Cpu.State) (rf : Regfile) (pc : Word) : Prop :=
  ∃ t, Cpu.processInstr port i s = .ok t ∧ t.rf = rf ∧ t.pc = pc

def Stage5.Does (accepts : Bool) (i : Instr) (s : Stage5.State) (rf : Regfile) (pc : Word) : Prop :=
  ∃ t, Stage5.processInstr accepts i s = .ok t ∧ t.rf = rf ∧ t.pc = pc

theorem Cpu.does_iff {port : Lib.Port} {i : Instr} {s : Cpu.State} {rf : Regfile} {pc : Word}
    (hmem : i.op.isMem = false) (hcfu : i.op.isCfu = false) :
    Cpu.Does port i s rf pc ↔ Cpu.execute i s.pc s.rf = .ok (.commit rf pc) := by
  unfold Cpu.Does Cpu.processInstr
  constructor
  · rintro ⟨t, ht, rfl, rfl⟩
    obtain ⟨e, he, ht⟩ := Except.bind_eq_ok.mp ht
    obtain rfl := Except.ok.inj ht
    rw [he]
    rcases Cpu.execute_shape he with ⟨-, hw, pc'⟩ | ⟨-, -, pc'⟩ | ⟨hop, a⟩ | ⟨hop, a, d⟩ | ⟨hop, x, y⟩
    · rfl
    · rfl
    · simp [InstrType.isMem, hop] at hmem
    · simp [InstrType.isMem, hop] at hmem
    · simp [hop] at hcfu
  · intro he
    rw [he]
    exact ⟨_, rfl, rfl, rfl⟩

theorem Stage5.does_iff {accepts : Bool} {i : Instr} {s : Stage5.State} {rf : Regfile} {pc : Word}
    (hmem : i.op.isMem = false) (hcfu : i.op.isCfu = false) (hmul : i.op ≠ .MUL) :
    Stage5.Does accepts i s rf pc ↔ execBase i s.pc s.rf = .ok (.commit rf pc) := by
  unfold Stage5.Does Stage5.processInstr
  constructor
  · rintro ⟨t, ht, rfl, rfl⟩
    obtain ⟨e, he, ht⟩ := Except.bind_eq_ok.mp ht
    rw [he]
    rcases execBase_shape hcfu hmul he with ⟨-, hw, pc'⟩ | ⟨-, -, pc'⟩ | ⟨hop, a⟩ | ⟨hop, a, d⟩ | ⟨hop, x, y⟩
    · obtain rfl := Except.ok.inj ht
      cases accepts <;> rfl
    · obtain rfl := Except.ok.inj ht
      cases accepts <;> rfl
    · simp [InstrType.isMem, hop] at hmem
    · simp [InstrType.isMem, hop] at hmem
    · simp [hop] at hcfu
  · intro he
    rw [he]
    refine ⟨_, rfl, ?_, rfl⟩
    cases accepts <;> rfl

theorem InstrType.isAlu_ends {op : InstrType} (h : op.isAlu = true) : op.isMem = false ∧ op.isCfu = false := by
  cases op <;> first | exact ⟨rfl, rfl⟩ | exact absurd h (by decide)

theorem InstrType.isControl_ends {op : InstrType} (h : op.isControl = true) :
    op.isMem = false ∧ op.isCfu = false ∧ op ≠ .MUL := by
  cases op <;> first | exact ⟨rfl, rfl, by decide⟩ | exact absurd h (by decide)

/-! ## Computing instructions -/

/-- The switch of the bus-based CPU, which has `MUL` too. -/
theorem execute_alu_iff {i : Instr} (o : Operands i) (hop : i.op.isAlu = true) (pc : Word) (rf : Regfile) :
    Cpu.execute i pc rf =
      .ok (.commit (Function.update rf o.r1 (rdValue i pc (rf o.r2) (rf o.r3))) (pc + 4)) ↔
      AluExact i (rf o.r2) (rf o.r3) := by
  have hcfu := (InstrType.isAlu_ends hop).2
  unfold Cpu.execute
  rw [if_neg (by simp [hcfu])]
  by_cases hmul : i.op = .MUL
  · rw [if_pos hmul, opRR_iff o pc _ rf (by rw [hmul]; rfl)]
    unfold rdValue AluExact
    rw [hmul]
    exact iff_of_true rfl trivial
  · rw [if_neg hmul]
    exact execBase_alu_iff o hop hmul pc rf

/-- **Main result.** Each CPU writes the value that RV32I and `MUL` define to `rd`, changes no other register and
goes on to the next instruction, exactly on the operands of `AluExact`; the CPU of the 5-stage model has no `MUL`. -/
theorem alu_exact {i : Instr} (o : Operands i) (hop : i.op.isAlu = true) :
    (∀ (s : Cpu.State) (port : Lib.Port), Cpu.Does port i s
      (Function.update s.rf o.r1 (rdValue i s.pc (s.rf o.r2) (s.rf o.r3))) (s.pc + 4) ↔
        AluExact i (s.rf o.r2) (s.rf o.r3)) ∧
    (i.op ≠ .MUL → ∀ (s : Stage5.State) (accepts : Bool), Stage5.Does accepts i s
      (Function.update s.rf o.r1 (rdValue i s.pc (s.rf o.r2) (s.rf o.r3))) (s.pc + 4) ↔
        AluExact i (s.rf o.r2) (s.rf o.r3)) := by
  obtain ⟨hmem, hcfu⟩ := InstrType.isAlu_ends hop
  refine ⟨fun s port => ?_, fun hmul s accepts => ?_⟩
  · rw [Cpu.does_iff hmem hcfu]
    exact execute_alu_iff o hop s.pc s.rf
  · rw [Stage5.does_iff hmem hcfu hmul]
    exact execBase_alu_iff o hop hmul s.pc s.rf

/-- `op x1, x2, x3`, or `op x1, x2, imm`. -/
def sampleInstr (op : InstrType) (imm : Word) : Instr where
  op := op
  a1 := { reg := 1 }
  a2 := { reg := 2 }
  a3 := { reg := 3, imm := imm }

def sampleOperands (op : InstrType) (imm : Word) : Operands (sampleInstr op imm) :=
  ⟨⟨1, by decide⟩, ⟨2, by decide⟩, ⟨3, by decide⟩, rfl, fun _ => rfl, fun _ => rfl⟩

theorem alu_exact_srai : (sampleInstr .SRAI 4).op.isAlu = true ∧
    (∀ (s : Cpu.State) (port : Lib.Port), Cpu.Does port (sampleInstr .SRAI 4) s
      (Function.update s.rf 1 (rdValue (sampleInstr .SRAI 4) s.pc (s.rf 2) (s.rf 3))) (s.pc + 4) ↔
        AluExact (sampleInstr .SRAI 4) (s.rf 2) (s.rf 3)) :=
  ⟨rfl, (alu_exact (sampleOperands .SRAI 4) rfl).1⟩

/-- 2 in `x2`, 3 elsewhere. -/
def sampleRegs : Regfile := fun k => if k.val = 2 then 2 else 3

/-- `sltu x1, x2, x3` with 2 in `x2` and 3 in `x3` does not write 1, in neither CPU. -/
theorem not_alu_sltu :
    ¬ Cpu.Does ⟨false, true⟩ (sampleInstr .SLTU 0) { Cpu.init (.ofList []) with rf := sampleRegs }
      (Function.update sampleRegs 1 1) 4 ∧
    ¬ Stage5.Does true (sampleInstr .SLTU 0) { Stage5.init (.ofList []) ⟨0, fun _ => 0⟩ with rf := sampleRegs }
      (Function.update sampleRegs 1 1) 4 := by
  have hcond : ¬ AluExact (sampleInstr .SLTU 0) (sampleRegs 2) (sampleRegs 3) := by decide
  refine ⟨fun h => ?_, fun h => ?_⟩
  · rw [Cpu.does_iff rfl rfl] at h
    exact hcond ((execute_alu_iff (sampleOperands .SLTU 0) rfl 0 sampleRegs).mp h)
  · rw [Stage5.does_iff rfl rfl (by decide)] at h
    exact hcond ((execBase_alu_iff (sampleOperands .SLTU 0) rfl (by decide) 0 sampleRegs).mp h)

/-! ## Control transfers -/

/-- **Main result.** Each CPU takes the defined target from the registers before the instruction, links in `rd` and
changes no other register, exactly in the states of `ControlExact`. -/
theorem control_exact {i : Instr} (o : Operands i) (hop : i.op.isControl = true) :
    (∀ (s : Cpu.State) (port : Lib.Port),
      Cpu.Does port i s (linked i o s.pc s.rf) (target i o s.pc s.rf) ↔ ControlExact i o s.pc s.rf) ∧
    ∀ (s : Stage5.State) (accepts : Bool),
      Stage5.Does accepts i s (linked i o s.pc s.rf) (target i o s.pc s.rf) ↔ ControlExact i o s.pc s.rf := by
  obtain ⟨hmem, hcfu, hmul⟩ := InstrType.isControl_ends hop
  refine ⟨fun s port => ?_, fun s accepts => ?_⟩
  · rw [Cpu.does_iff hmem hcfu, Cpu.execute, if_neg (by simp [hcfu]), if_neg hmul]
    exact execBase_control_iff o s.pc s.rf hop
  · rw [Stage5.does_iff hmem hcfu hmul]
    exact execBase_control_iff o s.pc s.rf hop

theorem control_exact_bge : (sampleInstr .BGE 8).op.isControl = true ∧
    (∀ (s : Cpu.State) (port : Lib.Port), Cpu.Does port (sampleInstr .BGE 8) s
      (linked _ (sampleOperands .BGE 8) s.pc s.rf) (target _ (sampleOperands .BGE 8) s.pc s.rf) ↔
        ControlExact _ (sampleOperands .BGE 8) s.pc s.rf) :=
  ⟨rfl, (control_exact (sampleOperands .BGE 8) rfl).1⟩

/-- `jalr x1, 0(x1)`. -/
def linkedJump : Instr where
  op := .JALR
  a1 := { reg := 1 }
  a2 := { reg := 1 }

def linkedJumpOperands : Operands linkedJump :=
  ⟨⟨1, by decide⟩, ⟨1, by decide⟩, ⟨0, by decide⟩, rfl, fun _ => rfl, fun h => absurd h (by decide)⟩

/-- With 3 in `x1`, neither CPU jumps to 3. -/
theorem not_control_jalr :
    ¬ Cpu.Does ⟨false, true⟩ linkedJump { Cpu.init (.ofList []) with rf := sampleRegs }
      (Function.update sampleRegs 1 4) 3 ∧
    ¬ Stage5.Does true linkedJump { Stage5.init (.ofList []) ⟨0, fun _ => 0⟩ with rf := sampleRegs }
      (Function.update sampleRegs 1 4) 3 := by
  have hne : execBase linkedJump 0 sampleRegs ≠ .ok (.commit (Function.update sampleRegs 1 4) 3) := by
    rw [execBase_jalr linkedJumpOperands 0 sampleRegs rfl]
    intro h
    injection h with h
    injection h with _ hpc
    exact absurd hpc (by decide)
  refine ⟨fun h => ?_, fun h => ?_⟩
  · rw [Cpu.does_iff rfl rfl] at h
    exact hne h
  · rw [Stage5.does_iff rfl rfl (by decide)] at h
    exact hne h

end SocModel
