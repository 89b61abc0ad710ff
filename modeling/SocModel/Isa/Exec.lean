import SocModel.Isa.Instr

/-!
# The instruction switch of `CPU::processInstr`

`execBase` is the switch as both CPU models have it, up to the point where a memory request is built;
`Effect` says how the call goes on. The shift operators of C++ are undefined from 32 on, `SLTU` adds, and
`JALR` reads `rs1` after it wrote `rd`: the definitions keep all three.

* `Effect.Shape` : what a case of the switch can come to, `execBase_shape` : each case comes to that;
* `execBase_within`, `execBase_faults` : the switch faults on a register index or a shift amount only.
-/

namespace SocModel

/-- How `processInstr` goes on after its switch. -/
inductive Effect where
  /-- `commitInstr`, then `pc = pc_next`. -/
  | commit (rf : Regfile) (pcNext : Word)
  /-- The read request of a load. -/
  | load (addr : Word)
  /-- The write request of a store. -/
  | store (addr data : Word)
  /-- The request to the custom function unit. -/
  | cfu (rs1 rs2 : Word)

/-- `x << n`, `x >> n` and the arithmetic `>>` of C++ on 32-bit values. -/
def shl (x n : Word) : Except Fault Word :=
  if n.toNat < 32 then .ok (x <<< n.toNat) else .error .shiftAmount

def shr (x n : Word) : Except Fault Word :=
  if n.toNat < 32 then .ok (x >>> n.toNat) else .error .shiftAmount

def sar (x n : Word) : Except Fault Word :=
  if n.toNat < 32 then .ok (x.sshiftRight n.toNat) else .error .shiftAmount

def ofBool (b : Bool) : Word := if b then 1 else 0

namespace Effect

/-- `rf[a1] = f(rf[a2], rf[a3])`. -/
def opRR (f : Word → Word → Except Fault Word) (i : Instr) (pc : Word) (rf : Regfile) :
    Except Fault Effect := do
  let x ← rf.read i.a2
  let y ← rf.read i.a3
  let v ← f x y
  let rf ← rf.write i.a1 v
  return .commit rf (pc + 4)

/-- `rf[a1] = f(rf[a2], a3.imm)`. -/
def opRI (f : Word → Word → Except Fault Word) (i : Instr) (pc : Word) (rf : Regfile) :
    Except Fault Effect := do
  let x ← rf.read i.a2
  let v ← f x i.a3.imm
  let rf ← rf.write i.a1 v
  return .commit rf (pc + 4)

/-- `rf[a1] = v`, the next instruction at `pcNext` of the new register file. -/
def opU (v : Word) (pcNext : Regfile → Except Fault Word) (i : Instr) (rf : Regfile) :
    Except Fault Effect := do
  let rf ← rf.write i.a1 v
  let pcNext ← pcNext rf
  return .commit rf pcNext

/-- `if (taken(rf[a1], rf[a2])) pc_next = a3.imm`. -/
def branch (taken : Word → Word → Bool) (i : Instr) (pc : Word) (rf : Regfile) :
    Except Fault Effect := do
  let x ← rf.read i.a1
  let y ← rf.read i.a2
  return .commit rf (if taken x y then i.a3.imm else pc + 4)

end Effect

open Effect in
/-- The switch of `processInstr` on the instructions both CPU models have. -/
def execBase (i : Instr) (pc : Word) (rf : Regfile) : Except Fault Effect :=
  match i.op with
  | .ADD => opRR (fun x y => .ok (x + y)) i pc rf
  | .SUB => opRR (fun x y => .ok (x - y)) i pc rf
  | .SLT => opRR (fun x y => .ok (ofBool (x.slt y))) i pc rf
  | .SLTU => opRR (fun x y => .ok (x + y)) i pc rf
  | .AND => opRR (fun x y => .ok (x &&& y)) i pc rf
  | .OR => opRR (fun x y => .ok (x ||| y)) i pc rf
  | .XOR => opRR (fun x y => .ok (x ^^^ y)) i pc rf
  | .SLL => opRR shl i pc rf
  | .SRL => opRR shr i pc rf
  | .SRA => opRR sar i pc rf
  | .ADDI => opRI (fun x y => .ok (x + y)) i pc rf
  | .SLTI => opRI (fun x y => .ok (ofBool (x.slt y))) i pc rf
  | .SLTIU => opRI (fun x y => .ok (ofBool (x.ult y))) i pc rf
  | .ANDI => opRI (fun x y => .ok (x &&& y)) i pc rf
  | .ORI => opRI (fun x y => .ok (x ||| y)) i pc rf
  | .XORI => opRI (fun x y => .ok (x ^^^ y)) i pc rf
  | .SLLI => opRI shl i pc rf
  | .SRLI => opRI shr i pc rf
  | .SRAI => opRI sar i pc rf
  | .BEQ => branch (fun x y => x == y) i pc rf
  | .BGE => branch (fun x y => y.sle x) i pc rf
  | .BGEU => branch (fun x y => y.ule x) i pc rf
  | .BLT => branch (fun x y => x.slt y) i pc rf
  | .BLTU => branch (fun x y => x.ult y) i pc rf
  | .BNE => branch (fun x y => x != y) i pc rf
  | .JAL => opU (pc + 4) (fun _ => .ok i.a2.imm) i rf
  -- `rd` is written before `rs1` is read
  | .JALR => opU (pc + 4) (fun rf => do let x ← rf.read i.a2; return x + i.a3.imm) i rf
  | .AUIPC => opU (pc + (i.a2.imm <<< 12)) (fun _ => .ok (pc + 4)) i rf
  | .LUI => opU (i.a2.imm <<< 12) (fun _ => .ok (pc + 4)) i rf
  | .LB | .LBU | .LH | .LHU | .LW => do
    let x ← rf.read i.a2
    return .load (x + i.a3.imm)
  | .SB | .SH | .SW => do
    let x ← rf.read i.a2
    let d ← rf.read i.a1
    return .store (x + i.a3.imm) d
  -- `HCF`, and the message of `UNIMPL` and `default`
  | _ => .ok (.commit rf (pc + 4))

namespace InstrType

/-- The operations whose case in the switch assigns `rf[a1]`. -/
def writesRd : InstrType → Bool
  | ADD | SUB | MUL | SLT | SLTU | AND | OR | XOR | SLL | SRL | SRA
  | ADDI | SLTI | SLTIU | ANDI | ORI | XORI | SLLI | SRLI | SRAI
  | JAL | JALR | AUIPC | LUI => true
  | _ => false

/-- The operations that deliver a value to `rf[a1]`, at once or by a response. -/
def hasRd (op : InstrType) : Bool := op.writesRd || op.isLoad || op.isCfu

end InstrType

/-! ## What the switch can do to the register file -/

theorem Except.bind_eq_ok {ε α β : Type} {x : Except ε α} {f : α → Except ε β} {b : β} :
    x >>= f = .ok b ↔ ∃ a, x = .ok a ∧ f a = .ok b := by
  cases x <;> simp [bind, Except.bind]

/-- What an instruction's case of the switch can come to: a write to `rf[a1]`, no change of any register,
a load, a store, a request to the custom function unit. -/
inductive Effect.Shape (i : Instr) (rf : Regfile) : Effect → Prop
  | write (hop : i.op.writesRd = true) {v : Word} {rf' : Regfile} (hw : rf.write i.a1 v = .ok rf')
      (pc' : Word) : Shape i rf (.commit rf' pc')
  | keep (hop : i.op.hasRd = false) (hst : i.op.isStore = false) (pc' : Word) :
      Shape i rf (.commit rf pc')
  | load (hop : i.op.isLoad = true) (a : Word) : Shape i rf (.load a)
  | store (hop : i.op.isStore = true) (a d : Word) : Shape i rf (.store a d)
  | cfu (hop : i.op.isCfu = true) (x y : Word) : Shape i rf (.cfu x y)

namespace Effect

variable {i : Instr} {pc v : Word} {rf : Regfile} {e : Effect} {f : Word → Word → Except Fault Word}

theorem shape_opRR (hop : i.op.writesRd = true) (h : opRR f i pc rf = .ok e) : Shape i rf e := by
  simp only [opRR, Except.bind_eq_ok] at h
  obtain ⟨x, -, y, -, v, -, rf', hw, h⟩ := h
  exact Except.ok.inj h ▸ .write hop hw _

theorem shape_opRI (hop : i.op.writesRd = true) (h : opRI f i pc rf = .ok e) : Shape i rf e := by
  simp only [opRI, Except.bind_eq_ok] at h
  obtain ⟨x, -, v, -, rf', hw, h⟩ := h
  exact Except.ok.inj h ▸ .write hop hw _

theorem shape_opU {pcNext : Regfile → Except Fault Word} (hop : i.op.writesRd = true)
    (h : opU v pcNext i rf = .ok e) : Shape i rf e := by
  simp only [opU, Except.bind_eq_ok] at h
  obtain ⟨rf', hw, pc', -, h⟩ := h
  exact Except.ok.inj h ▸ .write hop hw _

theorem shape_branch {taken : Word → Word → Bool} (hop : i.op.hasRd = false)
    (hst : i.op.isStore = false) (h : branch taken i pc rf = .ok e) : Shape i rf e := by
  simp only [branch, Except.bind_eq_ok] at h
  obtain ⟨x, -, y, -, h⟩ := h
  exact Except.ok.inj h ▸ .keep hop hst _

theorem shape_load (hop : i.op.isLoad = true)
    (h : (do let x ← rf.read i.a2; return Effect.load (x + i.a3.imm)) = .ok e) : Shape i rf e := by
  simp only [Except.bind_eq_ok] at h
  obtain ⟨x, -, h⟩ := h
  exact Except.ok.inj h ▸ .load hop _

theorem shape_store (hop : i.op.isStore = true)
    (h : (do let x ← rf.read i.a2; let d ← rf.read i.a1; return Effect.store (x + i.a3.imm) d) = .ok e) :
    Shape i rf e := by
  simp only [Except.bind_eq_ok] at h
  obtain ⟨x, -, d, -, h⟩ := h
  exact Except.ok.inj h ▸ .store hop _ _

end Effect

theorem execBase_shape {i : Instr} {pc : Word} {rf : Regfile} {e : Effect} (hc : i.op.isCfu = false)
    (hm : i.op ≠ .MUL) (h : execBase i pc rf = .ok e) : e.Shape i rf := by
  unfold execBase at h
  cases hop : i.op <;> simp only [hop] at h hc hm
  all_goals first
    | exact Effect.shape_opRR (by rw [hop]; rfl) h
    | exact Effect.shape_opRI (by rw [hop]; rfl) h
    | exact Effect.shape_opU (by rw [hop]; rfl) h
    | exact Effect.shape_branch (by rw [hop]; rfl) (by rw [hop]; rfl) h
    | exact Effect.shape_load (by rw [hop]; rfl) h
    | exact Effect.shape_store (by rw [hop]; rfl) h
    | exact Except.ok.inj h ▸ .keep (by rw [hop]; rfl) (by rw [hop]; rfl) _
    | exact absurd hc (by decide)
    | exact absurd rfl hm

/-- The operations only the SoC has fall through to the default case here. -/
theorem execBase_shape_or {i : Instr} {pc : Word} {rf : Regfile} {e : Effect}
    (h : execBase i pc rf = .ok e) : e.Shape i rf ∨ e = .commit rf (pc + 4) := by
  by_cases hc : i.op.isCfu = true ∨ i.op = .MUL
  · right
    unfold execBase at h
    cases hop : i.op <;> simp only [hop] at h hc
    all_goals first
      | exact (Except.ok.inj h).symm
      | exact absurd hc (by decide)
  · rw [not_or] at hc
    exact .inl (execBase_shape (by simpa using hc.1) hc.2 h)

/-- A committed register file differs at most in a destination other than `x0`. -/
theorem Effect.Shape.rf_zero {i : Instr} {rf rf' : Regfile} {pc' : Word}
    (h : Shape i rf (.commit rf' pc')) (hi : i.op.hasRd = true → i.a1.reg ≠ 0) : rf' 0 = rf 0 := by
  cases h with
  | write hop hw => exact Regfile.write_zero hw (hi (by simp [InstrType.hasRd, hop]))
  | keep => rfl

/-! ## The faults of the switch -/

/-- The computation fails with the faults of `P` only. -/
def Faults {α : Type} (P : Fault → Prop) (x : Except Fault α) : Prop := ∀ e, x = .error e → P e

theorem Faults.ok {α : Type} {P : Fault → Prop} (a : α) : Faults P (.ok a : Except Fault α) := by
  intro e h
  cases h

theorem Faults.bind {α β : Type} {P : Fault → Prop} {x : Except Fault α} {f : α → Except Fault β}
    (hx : Faults P x) (hf : ∀ a, Faults P (f a)) : Faults P (x >>= f) := by
  intro e h
  cases x with
  | error e' => exact hx e (congrArg Except.error (Except.error.inj h))
  | ok a => exact hf a e h

/-- The faults of an instruction that is executed: a register index or a shift amount. -/
def Fault.OfInstr : Fault → Prop
  | .registerIndex | .shiftAmount => True
  | _ => False

/-- The register operands of `i`, and shifts, fail with the faults of `P` only. -/
structure Instr.Within (P : Fault → Prop) (i : Instr) : Prop where
  a1 : Faults P (regIndex i.a1.reg)
  a2 : Faults P (regIndex i.a2.reg)
  a3 : Faults P (regIndex i.a3.reg)
  shift : P .shiftAmount

theorem regIndex_faults (r : Int) : Faults Fault.OfInstr (regIndex r) := by
  intro e h
  unfold regIndex at h
  split at h <;> cases h
  trivial

theorem Instr.within_ofInstr (i : Instr) : i.Within Fault.OfInstr :=
  ⟨regIndex_faults _, regIndex_faults _, regIndex_faults _, trivial⟩

theorem Regfile.read_within {P : Fault → Prop} {o : Operand} (h : Faults P (regIndex o.reg)) (rf : Regfile) :
    Faults P (rf.read o) := h.bind fun _ => .ok _

theorem Regfile.write_within {P : Fault → Prop} {o : Operand} (h : Faults P (regIndex o.reg)) (rf : Regfile)
    (v : Word) : Faults P (rf.write o v) := h.bind fun _ => .ok _

theorem Regfile.write_faults (rf : Regfile) (o : Operand) (v : Word) : Faults Fault.OfInstr (rf.write o v) :=
  rf.write_within (regIndex_faults _) v

section Shifts

variable {P : Fault → Prop} (hP : P .shiftAmount)

include hP

theorem shl_faults (x n : Word) : Faults P (shl x n) := by
  intro e h
  unfold shl at h
  split at h <;> cases h
  exact hP

theorem shr_faults (x n : Word) : Faults P (shr x n) := by
  intro e h
  unfold shr at h
  split at h <;> cases h
  exact hP

theorem sar_faults (x n : Word) : Faults P (sar x n) := by
  intro e h
  unfold sar at h
  split at h <;> cases h
  exact hP

end Shifts

namespace Effect

variable {P : Fault → Prop} {f : Word → Word → Except Fault Word} {i : Instr} (h : i.Within P) (pc v : Word)
  (rf : Regfile)

include h

theorem opRR_faults (hf : ∀ x y, Faults P (f x y)) : Faults P (opRR f i pc rf) :=
  (rf.read_within h.a2).bind fun _ => (rf.read_within h.a3).bind fun _ => (hf _ _).bind fun _ =>
    (rf.write_within h.a1 _).bind fun _ => .ok _

theorem opRI_faults (hf : ∀ x y, Faults P (f x y)) : Faults P (opRI f i pc rf) :=
  (rf.read_within h.a2).bind fun _ => (hf _ _).bind fun _ => (rf.write_within h.a1 _).bind fun _ => .ok _

theorem opU_faults {g : Regfile → Except Fault Word} (hg : ∀ rf, Faults P (g rf)) : Faults P (opU v g i rf) :=
  (rf.write_within h.a1 _).bind fun _ => (hg _).bind fun _ => .ok _

theorem branch_faults (taken : Word → Word → Bool) : Faults P (branch taken i pc rf) :=
  (rf.read_within h.a1).bind fun _ => (rf.read_within h.a2).bind fun _ => .ok _

end Effect

theorem execBase_within {P : Fault → Prop} {i : Instr} (h : i.Within P) (pc : Word) (rf : Regfile) :
    Faults P (execBase i pc rf) := by
  unfold execBase
  split
  all_goals with_reducible first
    | exact Effect.opRR_faults h _ _ fun _ _ => .ok _
    | exact Effect.opRR_faults h _ _ (shl_faults h.shift)
    | exact Effect.opRR_faults h _ _ (shr_faults h.shift)
    | exact Effect.opRR_faults h _ _ (sar_faults h.shift)
    | exact Effect.opRI_faults h _ _ fun _ _ => .ok _
    | exact Effect.opRI_faults h _ _ (shl_faults h.shift)
    | exact Effect.opRI_faults h _ _ (shr_faults h.shift)
    | exact Effect.opRI_faults h _ _ (sar_faults h.shift)
    | exact Effect.branch_faults h _ _ _
    | exact Effect.opU_faults h _ _ fun _ => .ok _
    | exact Effect.opU_faults h _ _ fun rf => (rf.read_within h.a2).bind fun _ => .ok _
    | exact (rf.read_within h.a2).bind fun _ => .ok _
    | exact (rf.read_within h.a2).bind fun _ => (rf.read_within h.a1).bind fun _ => .ok _
    | exact .ok _

theorem execBase_faults (i : Instr) (pc : Word) (rf : Regfile) : Faults Fault.OfInstr (execBase i pc rf) :=
  execBase_within i.within_ofInstr pc rf

end SocModel
