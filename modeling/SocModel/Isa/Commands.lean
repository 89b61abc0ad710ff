import SocModel.Asm.Resolve
import SocModel.Isa.Machine
import SocModel.Isa.Rv32
import SocModel.Lib.Rv32iMachine

/-!
# Commands on the instruction-level machine

What the assembler stores for a command, with the absolute target of a branch or `JAL` in it, and when the switch of the CPU
models executes it as it is defined.

* `Denotes`, `StoredAt` : what is stored, `Assembled` : a program in the instruction memory;
* `Exact` : the states in which the switch does a command as it is defined;
* `Agrees` : the two machines in the same state, `Does` : the call for an instruction does a command;
* `Agrees.does_inst`, `Agrees.does_branch`, `Agrees.does_jal`, `Agrees.does_const` : it does.
-/

namespace SocModel

open Lib
open Rv32i (Cmd Inst Machine Program Slot)

/-! ## What is stored -/

def Rv32i.Op.type : Rv32i.Op → InstrType
  | .ADD => .ADD | .SUB => .SUB | .SLL => .SLL | .SLT => .SLT | .SLTU => .SLTU
  | .XOR => .XOR | .SRL => .SRL | .SRA => .SRA | .OR => .OR | .AND => .AND

def Rv32i.OpImm.type : Rv32i.OpImm → InstrType
  | .ADDI => .ADDI | .SLTI => .SLTI | .SLTIU => .SLTIU | .XORI => .XORI | .ORI => .ORI | .ANDI => .ANDI

def Rv32i.ShiftImm.type : Rv32i.ShiftImm → InstrType
  | .SLLI => .SLLI | .SRLI => .SRLI | .SRAI => .SRAI

def Rv32i.Load.type : Rv32i.Load → InstrType
  | .LB => .LB | .LH => .LH | .LW => .LW | .LBU => .LBU | .LHU => .LHU

def Rv32i.Store.type : Rv32i.Store → InstrType
  | .SB => .SB | .SH => .SH | .SW => .SW

def Rv32i.Cond.type : Rv32i.Cond → InstrType
  | .BEQ => .BEQ | .BNE => .BNE | .BLT => .BLT | .BGE => .BGE | .BLTU => .BLTU | .BGEU => .BGEU

def Rv32i.Inst.type : Inst → InstrType
  | .op o .. => o.type
  | .opImm o .. => o.type
  | .shiftImm o .. => o.type
  | .lui .. => .LUI
  | .auipc .. => .AUIPC
  | .load o .. => o.type
  | .store o .. => o.type
  | .branch o .. => o.type
  | .jal .. => .JAL
  | .jalr .. => .JALR

/-- The operands of the instruction `c` that is stored for `i` at `pc`. -/
def Stored (pc : Word) (c : Instr) (i : Inst) : Prop :=
  match i with
  | .op _ rd rs1 rs2 => c.a1.reg = rd.toNat ∧ c.a2.reg = rs1.toNat ∧ c.a3.reg = rs2.toNat
  | .opImm _ rd rs1 _ | .load _ rd rs1 _ | .jalr rd rs1 _ =>
    c.a1.reg = rd.toNat ∧ c.a2.reg = rs1.toNat ∧ c.a3.imm = i.imm
  | .shiftImm _ rd rs1 shamt => c.a1.reg = rd.toNat ∧ c.a2.reg = rs1.toNat ∧ c.a3.imm = shamt.setWidth 32
  | .lui rd _ | .auipc rd _ => c.a1.reg = rd.toNat ∧ c.a2.imm <<< 12 = i.imm
  | .store _ rs1 rs2 _ => c.a1.reg = rs2.toNat ∧ c.a2.reg = rs1.toNat ∧ c.a3.imm = i.imm
  | .branch _ rs1 rs2 _ => c.a1.reg = rs1.toNat ∧ c.a2.reg = rs2.toNat ∧ c.a3.imm = pc + i.imm
  | .jal rd _ => c.a1.reg = rd.toNat ∧ c.a2.imm = pc + i.imm

def Denotes (pc : Word) (c : Instr) (i : Inst) : Prop := c.op = i.type ∧ Stored pc c i

instance (pc : Word) (c : Instr) : (i : Inst) → Decidable (Stored pc c i)
  | .op .. | .opImm .. | .load .. | .jalr .. | .shiftImm .. | .store .. | .branch .. =>
    inferInstanceAs (Decidable (_ ∧ _ ∧ _))
  | .lui .. | .auipc .. | .jal .. => inferInstanceAs (Decidable (_ ∧ _))

instance (pc : Word) (c : Instr) (i : Inst) : Decidable (Denotes pc c i) := by
  unfold Denotes
  infer_instance

/-- What the CPU finds at `pc` for a command: an instruction, or `LUI` and `ADDI` with the two parts of a constant. -/
def StoredAt (imem : Imem) (pc : Word) (x : Cmd) : Prop :=
  match x with
  | .inst i => ∃ c, imem.fetch (pc.toNat / 4) = .ok c ∧ Denotes pc c i
  | .branch o rs1 rs2 target => ∃ c, imem.fetch (pc.toNat / 4) = .ok c ∧
      c.op = o.type ∧ c.a1.reg = rs1.toNat ∧ c.a2.reg = rs2.toNat ∧ c.a3.imm = target
  | .jal rd target => ∃ c, imem.fetch (pc.toNat / 4) = .ok c ∧ c.op = .JAL ∧ c.a1.reg = rd.toNat ∧ c.a2.imm = target
  | .const rd v => ∃ c c', imem.fetch (pc.toNat / 4) = .ok c ∧ imem.fetch ((pc + 4).toNat / 4) = .ok c' ∧
      c.op = .LUI ∧ c.a1.reg = rd.toNat ∧ c.a2.imm = v >>> 12 ∧
      c'.op = .ADDI ∧ c'.a1.reg = rd.toNat ∧ c'.a2.reg = rd.toNat ∧ c'.a3.imm = v &&& 0xFFF

/-- What the CPU finds at `pc` for a command or the end. -/
def HoldsAt (imem : Imem) (pc : Word) : Slot Cmd → Prop
  | .inst x => StoredAt imem pc x
  | .halt => ∃ c, imem.fetch (pc.toNat / 4) = .ok c ∧ c.op = .HCF

/-- The program is in the instruction memory, with `HCF` where it ends. -/
def Assembled (imem : Imem) (p : Program Cmd) : Prop := ∀ pc slot, p pc = some slot → HoldsAt imem pc slot

/-! ## What the switch does as it is defined -/

/-- The states in which the switch does a command as it is defined: `SLTU` adds, the shifts of C++ have no value from 32
on, `JALR` reads `rs1` behind its link and keeps bit 0, and an access is checked against the size of the memory. -/
def Exact (size : Nat) (m : Machine) (x : Cmd) : Prop :=
  match x with
  | .inst i => match i with
    | .op .SLTU .. => SumCompares (i.x m) (i.y m)
    | .op .SLL .. | .op .SRL .. | .op .SRA .. => (i.y m).toNat < 32
    | .load o .. => (i.output m).toNat + o.size ≤ size
    | .store o .. => (i.output m).toNat + o.size ≤ size
    | .jalr rd rs1 _ => (i.x m + i.imm).toNat % 2 = 0 ∧ (rd = rs1 → i.x m = m.pc + 4)
    | _ => True
  | _ => True

instance (size : Nat) (m : Machine) (x : Cmd) : Decidable (Exact size m x) := by
  unfold Exact
  repeat' split
  all_goals infer_instance

/-- The cell of a register. -/
def cell (r : Rv32i.Reg) : Fin 32 := r.toFin

/-- The instruction-level machine is in the state of the machine of RV32I. The switch writes to `x0` as to any other
register. -/
structure Agrees (clean : Prop) (a : Arch) (m : Machine) : Prop where
  pc : a.pc = m.pc
  rf : ∀ r, r ≠ 0 → a.rf (cell r) = m.regs r
  zero : clean → a.rf (cell 0) = 0
  mem : a.dmem.mem = m.mem

/-! ### The operands -/

section

theorem cell_injective {r q : Rv32i.Reg} (h : cell r = cell q) : r = q := BitVec.eq_of_toFin_eq h

theorem read_cell {rf : Regfile} {o : Operand} {r : Rv32i.Reg} (h : o.reg = r.toNat) : rf.read o = .ok (rf (cell r)) :=
  Regfile.read_of_eq (k := cell r) h

theorem write_cell {rf : Regfile} {o : Operand} {r : Rv32i.Reg} (h : o.reg = r.toNat) (v : Word) :
    rf.write o v = .ok (Function.update rf (cell r) v) :=
  Regfile.write_of_eq (k := cell r) h v

/-- A write of the switch is one of RV32I, but for `x0`. -/
theorem update_cell {rf : Regfile} {regs : Rv32i.Reg → Word} (h : ∀ r, r ≠ 0 → rf (cell r) = regs r) (rd : Rv32i.Reg)
    (v : Word) (r : Rv32i.Reg) (hr : r ≠ 0) :
    Function.update rf (cell rd) v (cell r) = Rv32i.setReg regs rd v r := by
  unfold Rv32i.setReg
  by_cases hd : rd = 0
  · subst hd
    rw [if_pos rfl, Function.update_of_ne fun hc => hr (cell_injective hc), h r hr]
  · rw [if_neg hd]
    by_cases heq : r = rd
    · subst heq
      rw [Function.update_self, Function.update_self]
    · rw [Function.update_of_ne fun hc => heq (cell_injective hc), Function.update_of_ne heq, h r hr]

/-- The registers behind a command that writes as the switch does. -/
def written (rf : Regfile) (m : Machine) (x : Cmd) : Regfile :=
  match x.dest with
  | some rd => Function.update rf (cell rd) (x.value m)
  | none => rf

variable {clean : Prop} {a : Arch} {m : Machine} (h : Agrees clean a m)

include h

theorem Agrees.of_written {b : Arch} (x : Cmd) (hpc : b.pc = (x.exec m).pc) (hrf : b.rf = written a.rf m x)
    (hmem : b.dmem.mem = (x.exec m).mem) : Agrees (clean ∧ x.KeepsZero m) b (x.exec m) := by
  refine ⟨hpc, fun r hr => ?_, fun hc => ?_, hmem⟩
  · rw [hrf, written, Cmd.exec_regs]
    rcases x.dest with _ | rd
    · exact h.rf r hr
    · exact update_cell h.rf rd _ r hr
  · rw [hrf, written]
    obtain ⟨hz, hkeep⟩ := hc
    rcases hdest : x.dest with _ | rd
    · exact h.zero hz
    · by_cases hd : rd = 0
      · subst hd
        exact (Function.update_self _ _ _).trans (hkeep hdest)
      · exact (Function.update_of_ne (fun hc => hd (cell_injective hc).symm) _ _).trans (h.zero hz)

variable (h0 : m.regs 0 = 0)

include h0

/-- What a command reads. -/
theorem Agrees.read {x : Cmd} (hz : x.Reads 0 → clean) {r : Rv32i.Reg} (hr : x.Reads r) : a.rf (cell r) = m.regs r := by
  by_cases h00 : r = 0
  · subst h00
    rw [h.zero (hz hr), h0]
  · exact h.rf r h00

end

/-! ### One instruction -/

section

variable {clean : Prop} {a : Arch} {m : Machine} {c : Instr} {x : Cmd}

/-- The call for the instruction `c` does the command. -/
def Does (clean : Prop) (a : Arch) (m : Machine) (c : Instr) (x : Cmd) : Prop :=
  ∃ b, (execBase c a.pc a.rf >>= a.complete c) = .ok b ∧ Agrees (clean ∧ x.KeepsZero m) b (x.exec m) ∧
    b.dmem.size = a.dmem.size

variable (h : Agrees clean a m)

include h

theorem Agrees.does_commit {pcNext : Word} (he : execBase c a.pc a.rf = .ok (.commit (written a.rf m x) pcNext))
    (hpc : pcNext = (x.exec m).pc) (hmem : (x.exec m).mem = m.mem) : Does clean a m c x := by
  unfold Does
  rw [he]
  exact ⟨_, rfl, h.of_written x hpc rfl (h.mem.trans hmem.symm), rfl⟩

variable (h0 : m.regs 0 = 0)

include h0

theorem Agrees.rs1 {i : Inst} (hz : (Cmd.inst i).Reads 0 → clean) (hr : i.readsRs1 = true) :
    a.rf (cell i.fields.rs1) = i.x m :=
  h.read h0 hz (.inl ⟨hr, rfl⟩)

theorem Agrees.rs2 {i : Inst} (hz : (Cmd.inst i).Reads 0 → clean) (hr : i.readsRs2 = true) :
    a.rf (cell i.fields.rs2) = i.y m :=
  h.read h0 hz (.inr ⟨hr, rfl⟩)

end

section

variable {clean : Prop} {a : Arch} {m : Machine} {c : Instr} {x : Cmd}

theorem shamt_eq (y : Word) : InstrType.shamt y = Rv32i.shamt y := by
  simp [InstrType.shamt, Rv32i.shamt]

theorem aluValue_op (o : Rv32i.Op) (x y : Word) : o.type.aluValue x y = o.eval x y := by
  cases o with
  | SLT =>
    change ofBool (x.slt y) = Rv32i.flag (x.toInt < y.toInt)
    simp [ofBool, Rv32i.flag, BitVec.slt]
  | SLTU =>
    change ofBool (x.ult y) = Rv32i.flag (x.toNat < y.toNat)
    simp [ofBool, Rv32i.flag, BitVec.ult]
  | SLL => exact congrArg (x <<< ·) (shamt_eq y)
  | SRL => exact congrArg (x >>> ·) (shamt_eq y)
  | SRA => exact congrArg (x.sshiftRight ·) (shamt_eq y)
  | _ => rfl

theorem rdValue_op {o : Rv32i.Op} (hop : c.op = o.type) (pc x y : Word) : rdValue c pc x y = o.eval x y := by
  rw [← aluValue_op]
  unfold rdValue
  rw [hop]
  cases o <;> rfl

theorem rdValue_imm {o : Rv32i.Op} {t : InstrType} (hop : c.op = t) (ht : t.isImmAlu = true)
    (hval : ∀ x y, t.aluValue x y = o.type.aluValue x y) (pc x y : Word) : rdValue c pc x y = o.eval x c.a3.imm := by
  rw [← aluValue_op, ← hval]
  unfold rdValue
  rw [hop]
  cases t <;> first | rfl | exact absurd ht (by decide)

theorem written_inst {rf : Regfile} {i : Inst} (hw : i.writesRd = true) :
    written rf m (.inst i) = Function.update rf (cell i.fields.rd) (i.value m) := by
  have hdest : (Cmd.inst i).dest = some i.fields.rd := if_pos hw
  unfold written
  rw [hdest]
  rfl

/-- The instructions of the ALU: a value for `rd`. -/
theorem Agrees.does_alu (h : Agrees clean a m) {i : Inst} (hw : i.writesRd = true) (hmem : (i.exec m).mem = m.mem)
    (hpc : (i.exec m).pc = m.pc + 4) (o : Operands c) (hr1 : o.r1 = cell i.fields.rd) (hop : c.op.isAlu = true)
    (hmul : c.op ≠ .MUL) (hexact : AluExact c (a.rf o.r2) (a.rf o.r3))
    (hv : rdValue c a.pc (a.rf o.r2) (a.rf o.r3) = i.value m) : Does clean a m c (.inst i) := by
  have he := (execBase_alu_iff o hop hmul a.pc a.rf).mpr hexact
  rw [hv, hr1, ← written_inst hw] at he
  exact h.does_commit he (by rw [h.pc]; exact hpc.symm) hmem

variable (h : Agrees clean a m) (h0 : m.regs 0 = 0)

include h h0

theorem Agrees.does_op {o : Rv32i.Op} {rd rs1 rs2 : Rv32i.Reg} (hd : Denotes a.pc c (.op o rd rs1 rs2))
    (hx : Exact a.dmem.size m (.inst (.op o rd rs1 rs2))) (hz : (Cmd.inst (.op o rd rs1 rs2)).Reads 0 → clean) :
    Does clean a m c (.inst (.op o rd rs1 rs2)) := by
  obtain ⟨hop, h1, h2, h3⟩ := hd
  have hop : c.op = o.type := hop
  have hrs1 : a.rf (cell rs1) = (Inst.op o rd rs1 rs2).x m := h.rs1 h0 hz rfl
  have hrs2 : a.rf (cell rs2) = (Inst.op o rd rs1 rs2).y m := h.rs2 h0 hz rfl
  let operands : Operands c := ⟨cell rd, cell rs1, cell rs2, h1, fun _ => h2, fun _ => h3⟩
  refine h.does_alu rfl rfl rfl operands rfl (by rw [hop]; cases o <;> rfl) (by rw [hop]; cases o <;> decide) ?_ ?_
  · show AluExact c (a.rf (cell rs1)) (a.rf (cell rs2))
    rw [hrs1, hrs2]
    unfold AluExact
    rw [hop]
    cases o <;> exact hx
  · rw [rdValue_op hop]
    show o.eval (a.rf (cell rs1)) (a.rf (cell rs2)) = _
    rw [hrs1, hrs2]
    rfl

theorem Agrees.does_opImm {o : Rv32i.OpImm} {rd rs1 : Rv32i.Reg} {imm : BitVec 12}
    (hd : Denotes a.pc c (.opImm o rd rs1 imm)) (hz : (Cmd.inst (.opImm o rd rs1 imm)).Reads 0 → clean) :
    Does clean a m c (.inst (.opImm o rd rs1 imm)) := by
  obtain ⟨hop, h1, h2, h3⟩ := hd
  have hop : c.op = o.type := hop
  have hrs1 : a.rf (cell rs1) = (Inst.opImm o rd rs1 imm).x m := h.rs1 h0 hz rfl
  let operands : Operands c := ⟨cell rd, cell rs1, 0, h1, fun _ => h2, by rw [hop]; cases o <;> exact nofun⟩
  refine h.does_alu rfl rfl rfl operands rfl (by rw [hop]; cases o <;> rfl) (by rw [hop]; cases o <;> decide) ?_ ?_
  · unfold AluExact
    rw [hop]
    cases o <;> trivial
  · rw [rdValue_imm (o := o.toOp) hop (by cases o <;> rfl) (by intro x y; cases o <;> rfl), h3]
    show o.toOp.eval (a.rf (cell rs1)) _ = _
    rw [hrs1]
    rfl

theorem Agrees.does_shiftImm {o : Rv32i.ShiftImm} {rd rs1 shamt : Rv32i.Reg}
    (hd : Denotes a.pc c (.shiftImm o rd rs1 shamt)) (hz : (Cmd.inst (.shiftImm o rd rs1 shamt)).Reads 0 → clean) :
    Does clean a m c (.inst (.shiftImm o rd rs1 shamt)) := by
  obtain ⟨hop, h1, h2, h3⟩ := hd
  have hop : c.op = o.type := hop
  have hrs1 : a.rf (cell rs1) = (Inst.shiftImm o rd rs1 shamt).x m := h.rs1 h0 hz rfl
  have hamount : c.a3.imm.toNat < 32 := by
    rw [h3, BitVec.toNat_setWidth]
    exact Nat.lt_of_le_of_lt (Nat.mod_le _ _) shamt.isLt
  let operands : Operands c := ⟨cell rd, cell rs1, 0, h1, fun _ => h2, by rw [hop]; cases o <;> exact nofun⟩
  refine h.does_alu rfl rfl rfl operands rfl (by rw [hop]; cases o <;> rfl) (by rw [hop]; cases o <;> decide) ?_ ?_
  · unfold AluExact
    rw [hop]
    cases o <;> exact hamount
  · rw [rdValue_imm (o := o.toOp) hop (by cases o <;> rfl) (by intro x y; cases o <;> rfl), h3]
    show o.toOp.eval (a.rf (cell rs1)) _ = _
    rw [hrs1]
    rfl

omit h0 in
theorem Agrees.does_upper {i : Inst} {rd : Rv32i.Reg} {imm : BitVec 20} (hi : i = .lui rd imm ∨ i = .auipc rd imm)
    (hd : Denotes a.pc c i) : Does clean a m c (.inst i) := by
  rcases hi with rfl | rfl
  all_goals
    obtain ⟨hop, h1, h2⟩ := hd
    rw [shiftLeft_eq_upperImm] at h2
    have hop : c.op = _ := hop
    let operands : Operands c := ⟨cell rd, 0, 0, h1, by rw [hop]; exact nofun, by rw [hop]; exact nofun⟩
    refine h.does_alu rfl rfl rfl operands rfl (by rw [hop]; rfl) (by rw [hop]; simp [Inst.type]) ?_ ?_
    · unfold AluExact
      rw [hop]
      trivial
    · unfold rdValue
      rw [hop]
      dsimp only [Inst.type]
      rw [h2]
      first
        | rfl
        | rw [h.pc]; rfl

/-- A branch to an address. -/
theorem Agrees.does_branch {o : Rv32i.Cond} {rs1 rs2 : Rv32i.Reg} (hop : c.op = o.type) (h1 : c.a1.reg = rs1.toNat)
    (h2 : c.a2.reg = rs2.toNat) (hread : x.Reads 0 → clean) (hr1 : x.Reads rs1) (hr2 : x.Reads rs2)
    (hdest : x.dest = none) (hpc : (x.exec m).pc = if o.eval (m.regs rs1) (m.regs rs2) then c.a3.imm else m.pc + 4)
    (hmem : (x.exec m).mem = m.mem) : Does clean a m c x := by
  have hb : c.op.isBranch = true := by rw [hop]; cases o <;> rfl
  let operands : Operands c := ⟨cell rs1, cell rs2, 0, h1, fun _ => h2, by rw [hop]; cases o <;> exact nofun⟩
  have he := execBase_branch operands a.pc a.rf hb
  have hrf : linked c operands a.pc a.rf = written a.rf m x := by
    unfold linked written
    rw [if_pos (.inl hb), hdest]
  rw [hrf] at he
  refine h.does_commit he ?_ hmem
  have htaken : c.op.taken (a.rf (cell rs1)) (a.rf (cell rs2)) = decide (o.eval (m.regs rs1) (m.regs rs2)) := by
    rw [hop, h.read h0 hread hr1, h.read h0 hread hr2]
    cases o with
    | BEQ | BLT | BGE | BLTU | BGEU => rfl
    | BNE =>
      show (!(m.regs rs1 == m.regs rs2)) = decide (m.regs rs1 ≠ m.regs rs2)
      rw [beq_eq_decide, decide_not]
  have htarget : target c operands a.pc a.rf =
      if c.op.taken (a.rf (cell rs1)) (a.rf (cell rs2)) then c.a3.imm else a.pc + 4 := by
    unfold target
    rw [hop]
    cases o <;> rfl
  rw [htarget, htaken, hpc, h.pc]
  simp only [decide_eq_true_eq]

omit h0 in
/-- A jump to an address. -/
theorem Agrees.does_jal {rd : Rv32i.Reg} (hop : c.op = .JAL) (h1 : c.a1.reg = rd.toNat) (hdest : x.dest = some rd)
    (hvalue : x.value m = m.pc + 4) (hpc : (x.exec m).pc = c.a2.imm) (hmem : (x.exec m).mem = m.mem) :
    Does clean a m c x := by
  let operands : Operands c := ⟨cell rd, 0, 0, h1, by rw [hop]; exact nofun, by rw [hop]; exact nofun⟩
  have he := execBase_jal operands a.pc a.rf hop
  have hrf : Function.update a.rf (cell rd) (a.pc + 4) = written a.rf m x := by
    unfold written
    rw [hdest, hvalue, h.pc]
  rw [show operands.r1 = cell rd from rfl, hrf] at he
  exact h.does_commit he hpc.symm hmem

theorem Agrees.does_jalr {rd rs1 : Rv32i.Reg} {imm : BitVec 12} (hd : Denotes a.pc c (.jalr rd rs1 imm))
    (hx : Exact a.dmem.size m (.inst (.jalr rd rs1 imm))) (hz : (Cmd.inst (.jalr rd rs1 imm)).Reads 0 → clean) :
    Does clean a m c (.inst (.jalr rd rs1 imm)) := by
  obtain ⟨hop, h1, h2, h3⟩ := hd
  obtain ⟨heven, hlink⟩ := hx
  have hop : c.op = .JALR := hop
  have hrs1 : a.rf (cell rs1) = (Inst.jalr rd rs1 imm).x m := h.rs1 h0 hz rfl
  let operands : Operands c := ⟨cell rd, cell rs1, 0, h1, fun _ => h2, by rw [hop]; exact nofun⟩
  have he := execBase_jalr operands a.pc a.rf hop
  have hrf : Function.update a.rf (cell rd) (a.pc + 4) = written a.rf m (.inst (.jalr rd rs1 imm)) := by
    rw [h.pc]
    rfl
  have hbase : Function.update a.rf (cell rd) (a.pc + 4) (cell rs1) = (Inst.jalr rd rs1 imm).x m := by
    by_cases hr : rd = rs1
    · rw [hr, Function.update_self, h.pc]
      exact (hlink hr).symm
    · rw [Function.update_of_ne fun hc => hr (cell_injective hc).symm, hrs1]
  rw [show operands.r1 = cell rd from rfl, show operands.r2 = cell rs1 from rfl, hbase, hrf, h3] at he
  exact h.does_commit he (Rv32i.and_not_one_of_even heven).symm rfl

theorem Agrees.effect_load {o : Rv32i.Load} {rd rs1 : Rv32i.Reg} {imm : BitVec 12}
    (hd : Denotes a.pc c (.load o rd rs1 imm)) (hz : (Cmd.inst (.load o rd rs1 imm)).Reads 0 → clean) :
    execBase c a.pc a.rf = .ok (.load ((Inst.load o rd rs1 imm).output m)) := by
  obtain ⟨hop, -, h2, h3⟩ := hd
  have hop : c.op = o.type := hop
  have haddr : a.rf (cell rs1) + c.a3.imm = (Inst.load o rd rs1 imm).output m := by
    rw [show a.rf (cell rs1) = (Inst.load o rd rs1 imm).x m from h.rs1 h0 hz rfl, h3]
    rfl
  rw [← haddr]
  unfold execBase
  rw [hop]
  cases o <;> exact Except.bind_eq_ok.mpr ⟨_, read_cell h2, rfl⟩

theorem Agrees.effect_store {o : Rv32i.Store} {rs1 rs2 : Rv32i.Reg} {imm : BitVec 12}
    (hd : Denotes a.pc c (.store o rs1 rs2 imm)) (hz : (Cmd.inst (.store o rs1 rs2 imm)).Reads 0 → clean) :
    execBase c a.pc a.rf = .ok (.store ((Inst.store o rs1 rs2 imm).output m) (m.regs rs2)) := by
  obtain ⟨hop, h1, h2, h3⟩ := hd
  have hop : c.op = o.type := hop
  have haddr : a.rf (cell rs1) + c.a3.imm = (Inst.store o rs1 rs2 imm).output m := by
    rw [show a.rf (cell rs1) = (Inst.store o rs1 rs2 imm).x m from h.rs1 h0 hz rfl, h3]
    rfl
  rw [← haddr, ← show a.rf (cell rs2) = m.regs rs2 from h.rs2 (i := .store o rs1 rs2 imm) h0 hz rfl]
  unfold execBase
  rw [hop]
  cases o <;> exact Except.bind_eq_ok.mpr ⟨_, read_cell h2, Except.bind_eq_ok.mpr ⟨_, read_cell h1, rfl⟩⟩

omit h h0 in
theorem readWidth_type (o : Rv32i.Load) : o.type.readWidth = o.size := by cases o <;> rfl

omit h h0 in
theorem writeWidth_type (o : Rv32i.Store) : o.type.writeWidth = o.size := by cases o <;> rfl

theorem Agrees.does_load {o : Rv32i.Load} {rd rs1 : Rv32i.Reg} {imm : BitVec 12}
    (hd : Denotes a.pc c (.load o rd rs1 imm)) (hx : Exact a.dmem.size m (.inst (.load o rd rs1 imm)))
    (hz : (Cmd.inst (.load o rd rs1 imm)).Reads 0 → clean) : Does clean a m c (.inst (.load o rd rs1 imm)) := by
  have he := h.effect_load h0 hd hz
  obtain ⟨hop, h1, -⟩ := hd
  have hop : c.op = o.type := hop
  have hread : a.dmem.memRead c.op ((Inst.load o rd rs1 imm).output m) = .ok ((Inst.load o rd rs1 imm).value m) := by
    rw [hop, BaseMemory.memRead_of_le (by rw [readWidth_type]; exact hx), readWidth_type, h.mem]
    cases o <;> rfl
  unfold Does
  rw [he]
  refine ⟨_, Except.bind_eq_ok.mpr ⟨_, rfl, Except.bind_eq_ok.mpr ⟨_, hread, Except.bind_eq_ok.mpr ⟨_, write_cell h1 _, rfl⟩⟩⟩,
    h.of_written _ ?_ rfl h.mem, rfl⟩
  exact congrArg (· + 4) h.pc

theorem Agrees.does_store {o : Rv32i.Store} {rs1 rs2 : Rv32i.Reg} {imm : BitVec 12}
    (hd : Denotes a.pc c (.store o rs1 rs2 imm)) (hx : Exact a.dmem.size m (.inst (.store o rs1 rs2 imm)))
    (hz : (Cmd.inst (.store o rs1 rs2 imm)).Reads 0 → clean) : Does clean a m c (.inst (.store o rs1 rs2 imm)) := by
  have hop : c.op = o.type := hd.1
  have hin : ((Inst.store o rs1 rs2 imm).output m).toNat + c.op.writeWidth ≤ a.dmem.size := by
    rw [hop, writeWidth_type]
    exact hx
  have hwrite : a.dmem.memWrite c.op ((Inst.store o rs1 rs2 imm).output m) (m.regs rs2) = .ok _ :=
    BaseMemory.memWrite_of_le hin
  unfold Does
  rw [h.effect_store h0 hd hz]
  refine ⟨_, Except.bind_eq_ok.mpr ⟨_, rfl, Except.bind_eq_ok.mpr ⟨_, hwrite, rfl⟩⟩,
    h.of_written _ (congrArg (· + 4) h.pc) rfl ?_, rfl⟩
  show store a.dmem.mem _ c.op.writeWidth _ = store m.mem _ o.size _
  rw [hop, writeWidth_type, h.mem]
  rfl

/-- **One instruction** that the switch does as it is defined. -/
theorem Agrees.does_inst {i : Inst} (hd : Denotes a.pc c i) (hx : Exact a.dmem.size m (.inst i))
    (hz : (Cmd.inst i).Reads 0 → clean) : Does clean a m c (.inst i) := by
  cases i with
  | op => exact h.does_op h0 hd hx hz
  | opImm => exact h.does_opImm h0 hd hz
  | shiftImm => exact h.does_shiftImm h0 hd hz
  | lui => exact h.does_upper (.inl rfl) hd
  | auipc => exact h.does_upper (.inr rfl) hd
  | load => exact h.does_load h0 hd hx hz
  | store => exact h.does_store h0 hd hx hz
  | jalr => exact h.does_jalr h0 hd hx hz
  | branch o rs1 rs2 offset =>
    obtain ⟨hop, h1, h2, h3⟩ := hd
    refine h.does_branch h0 hop h1 h2 hz (.inl ⟨rfl, rfl⟩) (.inr ⟨rfl, rfl⟩) rfl ?_ rfl
    rw [h3, h.pc]
    rfl
  | jal rd offset =>
    obtain ⟨hop, h1, h2⟩ := hd
    refine h.does_jal hop h1 rfl rfl ?_ rfl
    rw [h2, h.pc]
    rfl

omit h0 in
/-- A constant: the two calls. -/
theorem Agrees.does_const {c' : Instr} {rd : Rv32i.Reg} {v : Word} (hop : c.op = .LUI) (h1 : c.a1.reg = rd.toNat)
    (h2 : c.a2.imm = v >>> 12) (hop' : c'.op = .ADDI) (h1' : c'.a1.reg = rd.toNat) (h2' : c'.a2.reg = rd.toNat)
    (h3' : c'.a3.imm = v &&& 0xFFF) : ∃ rf b, execBase c a.pc a.rf = .ok (.commit rf (a.pc + 4)) ∧
      (execBase c' (a.pc + 4) rf >>= (a.retire c rf (a.pc + 4) a.dmem).complete c') = .ok b ∧
      Agrees (clean ∧ (Cmd.const rd v).KeepsZero m) b ((Cmd.const rd v).exec m) ∧ b.dmem.size = a.dmem.size := by
  obtain ⟨rf, he, he'⟩ := @Asm.execBase_la _ _ (cell rd) _ hop h1 h2 hop' h1' h2' h3' a.pc (a.pc + 4) a.rf
  refine ⟨rf, _, he, Except.bind_eq_ok.mpr ⟨_, he', rfl⟩, h.of_written _ ?_ rfl h.mem, rfl⟩
  show a.pc + 4 + 4 = m.pc + 8
  rw [BitVec.add_assoc, h.pc]
  rfl

end

end SocModel
