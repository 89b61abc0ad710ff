import SocModel.Chisel.Pipeline
import SocModel.Stage5.Stages

/-!
# One program for both pipelines

The functional CPU runs decoded instructions, with the absolute targets the assembler has put into them; the Chisel CPU
runs the words they stand for.

* `Encodes` : the word at `pc` stands for an ALU, branch or jump instruction, or for `HCF`;
* `Encodes.decodes` : what the two pipelines read off the instruction and off the word;
* `Decodes.overlap_eq_false` : where `hazard_check` finds no dependence, neither does the Chisel interlock.
-/

namespace SocModel.Timing

open Chisel Chisel.Opcode Stage5

/-! ## Formats -/

/-- The instruction formats, with the fields that tell the instructions of a format apart. -/
inductive Format where
  | R (f7 : BitVec 7) (f3 : BitVec 3)
  | I (op : BitVec 7) (f3 : BitVec 3)
  /-- A shift by an immediate, whose amount is where the others have `rs2`. -/
  | shift (f7 : BitVec 7) (f3 : BitVec 3)
  | B (f3 : BitVec 3)
  | U (op : BitVec 7)
  | J
  | hcf
  deriving DecidableEq, Repr

def Format.Holds (pc w : Word) (i : Instr) : Format → Prop
  | R f7 f3 => opcode w = OP ∧ funct7 w = f7 ∧ funct3 w = f3 ∧
      i.a1.reg = (rd w).toNat ∧ i.a2.reg = (rs1 w).toNat ∧ i.a3.reg = (rs2 w).toNat
  | I op f3 => opcode w = op ∧ funct3 w = f3 ∧
      i.a1.reg = (rd w).toNat ∧ i.a2.reg = (rs1 w).toNat ∧ i.a3.imm = immGen .iType w
  | shift f7 f3 => opcode w = OP_IMM ∧ funct7 w = f7 ∧ funct3 w = f3 ∧
      i.a1.reg = (rd w).toNat ∧ i.a2.reg = (rs1 w).toNat ∧ i.a3.imm = (rs2 w).setWidth 32
  | B f3 => opcode w = BRANCH ∧ funct3 w = f3 ∧
      i.a1.reg = (rs1 w).toNat ∧ i.a2.reg = (rs2 w).toNat ∧ i.a3.imm = pc + immGen .bType w
  | U op => opcode w = op ∧ i.a1.reg = (rd w).toNat ∧ i.a2.imm <<< 12 = immGen .uType w
  | J => opcode w = JAL ∧ i.a1.reg = (rd w).toNat ∧ i.a2.imm = pc + immGen .jType w
  | hcf => opcode w = HCF

instance (pc w : Word) (i : Instr) : (f : Format) → Decidable (f.Holds pc w i)
  | .R _ _ => inferInstanceAs (Decidable (_ ∧ _))
  | .I _ _ => inferInstanceAs (Decidable (_ ∧ _))
  | .shift _ _ => inferInstanceAs (Decidable (_ ∧ _))
  | .B _ => inferInstanceAs (Decidable (_ ∧ _))
  | .U _ => inferInstanceAs (Decidable (_ ∧ _))
  | .J => inferInstanceAs (Decidable (_ ∧ _))
  | .hcf => inferInstanceAs (Decidable (_ = _))

/-- The ALU, branch and jump instructions, and `HCF`. -/
def format : InstrType → Option Format
  | .ADD => some (.R 0b0000000 0b000)
  | .SUB => some (.R 0b0100000 0b000)
  | .SLL => some (.R 0b0000000 0b001)
  | .SLT => some (.R 0b0000000 0b010)
  | .SLTU => some (.R 0b0000000 0b011)
  | .XOR => some (.R 0b0000000 0b100)
  | .SRL => some (.R 0b0000000 0b101)
  | .SRA => some (.R 0b0100000 0b101)
  | .OR => some (.R 0b0000000 0b110)
  | .AND => some (.R 0b0000000 0b111)
  | .ADDI => some (.I OP_IMM 0b000)
  | .SLTI => some (.I OP_IMM 0b010)
  | .SLTIU => some (.I OP_IMM 0b011)
  | .XORI => some (.I OP_IMM 0b100)
  | .ORI => some (.I OP_IMM 0b110)
  | .ANDI => some (.I OP_IMM 0b111)
  | .JALR => some (.I JALR 0b000)
  | .SLLI => some (.shift 0b0000000 0b001)
  | .SRLI => some (.shift 0b0000000 0b101)
  | .SRAI => some (.shift 0b0100000 0b101)
  | .BEQ => some (.B 0b000)
  | .BNE => some (.B 0b001)
  | .BLT => some (.B 0b100)
  | .BGE => some (.B 0b101)
  | .BLTU => some (.B 0b110)
  | .BGEU => some (.B 0b111)
  | .LUI => some (.U LUI)
  | .AUIPC => some (.U AUIPC)
  | .JAL => some .J
  | .HCF => some .hcf
  | _ => none

/-- The word at `pc` is the instruction's. -/
def Encodes (pc w : Word) (i : Instr) : Prop := ∃ f, format i.op = some f ∧ f.Holds pc w i

instance (pc w : Word) (i : Instr) : Decidable (Encodes pc w i) :=
  match h : format i.op with
  | none => isFalse (by simp [Encodes, h])
  | some f => decidable_of_iff (f.Holds pc w i) (by simp [Encodes, h])

/-! ## What a word reads and writes -/

/-- What the pipelines decide with: the fields of the word, and the instruction's operands. -/
structure Decodes (w : Word) (i : Instr) : Prop where
  opcode : Chisel.opcode w ∈ [BRANCH, JALR, JAL, OP_IMM, OP, AUIPC, LUI, HCF]
  hcf : Chisel.opcode w = HCF ↔ i.op = .HCF
  mem : i.op.isMem = false
  rd : useRd w = true → getDestReg i = (rd w).toNat
  rs1 : useRs1 w = true → isRs1Used i = true ∧ (sourceRegs i).1 = (rs1 w).toNat
  rs2 : useRs2 w = true → isRs2Used i = true ∧ (sourceRegs i).2 = (rs2 w).toNat

section

variable {pc w : Word} {i : Instr}

/-! By format: which of its operands are registers read, and which is the one written. -/

theorem decodes_R {f7 : BitVec 7} {f3 : BitVec 3} (h : (Format.R f7 f3).Holds pc w i) (hm : i.op.isMem = false)
    (hh : i.op ≠ .HCF) (hd : getDestReg i = i.a1.reg) (h1 : isRs1Used i = true) (h2 : isRs2Used i = true)
    (hs : sourceRegs i = (i.a2.reg, i.a3.reg)) : Decodes w i := by
  obtain ⟨hop, -, -, hrd, hrs1, hrs2⟩ := h
  refine ⟨by rw [hop]; decide, ?_, hm, fun _ => hd.trans hrd, fun _ => ⟨h1, ?_⟩, fun _ => ⟨h2, ?_⟩⟩
  · rw [hop]
    exact iff_of_false (by decide) hh
  · rw [hs, hrs1]
  · rw [hs, hrs2]

theorem decodes_I {op : BitVec 7} {f3 : BitVec 3} (h : (Format.I op f3).Holds pc w i) (ho : op = OP_IMM ∨ op = JALR)
    (hm : i.op.isMem = false) (hh : i.op ≠ .HCF) (hd : getDestReg i = i.a1.reg) (h1 : isRs1Used i = true)
    (hs : (sourceRegs i).1 = i.a2.reg) : Decodes w i := by
  obtain ⟨hop, -, hrd, hrs1, -⟩ := h
  have hu : useRs2 w = false := by
    rw [useRs2, hop]
    rcases ho with rfl | rfl <;> rfl
  refine ⟨?_, ?_, hm, fun _ => hd.trans hrd, fun _ => ⟨h1, hs.trans hrs1⟩, fun h => absurd h (by rw [hu]; decide)⟩
  · rw [hop]
    rcases ho with rfl | rfl <;> decide
  · rw [hop]
    rcases ho with rfl | rfl <;> exact iff_of_false (by decide) hh

theorem decodes_shift {f7 : BitVec 7} {f3 : BitVec 3} (h : (Format.shift f7 f3).Holds pc w i)
    (hm : i.op.isMem = false) (hh : i.op ≠ .HCF) (hd : getDestReg i = i.a1.reg) (h1 : isRs1Used i = true)
    (hs : (sourceRegs i).1 = i.a2.reg) : Decodes w i := by
  obtain ⟨hop, -, -, hrd, hrs1, -⟩ := h
  have hu : useRs2 w = false := by
    rw [useRs2, hop]
    rfl
  refine ⟨by rw [hop]; decide, ?_, hm, fun _ => hd.trans hrd, fun _ => ⟨h1, hs.trans hrs1⟩,
    fun h => absurd h (by rw [hu]; decide)⟩
  rw [hop]
  exact iff_of_false (by decide) hh

theorem decodes_B {f3 : BitVec 3} (h : (Format.B f3).Holds pc w i) (hm : i.op.isMem = false) (hh : i.op ≠ .HCF)
    (h1 : isRs1Used i = true) (h2 : isRs2Used i = true) (hs : sourceRegs i = (i.a1.reg, i.a2.reg)) : Decodes w i := by
  obtain ⟨hop, -, hrs1, hrs2, -⟩ := h
  have hu : useRd w = false := by
    rw [useRd, hop]
    rfl
  refine ⟨by rw [hop]; decide, ?_, hm, fun h => absurd h (by rw [hu]; decide), fun _ => ⟨h1, ?_⟩, fun _ => ⟨h2, ?_⟩⟩
  · rw [hop]
    exact iff_of_false (by decide) hh
  · rw [hs, hrs1]
  · rw [hs, hrs2]

/-- The formats without a source register. -/
theorem decodes_noSource {op : BitVec 7} (hop : opcode w = op) (ho : op = LUI ∨ op = AUIPC ∨ op = JAL)
    (hrd : i.a1.reg = (rd w).toNat) (hm : i.op.isMem = false) (hh : i.op ≠ .HCF) (hd : getDestReg i = i.a1.reg) :
    Decodes w i := by
  have h1 : useRs1 w = false := by
    rw [useRs1, hop]
    rcases ho with rfl | rfl | rfl <;> rfl
  have h2 : useRs2 w = false := by
    rw [useRs2, hop]
    rcases ho with rfl | rfl | rfl <;> rfl
  refine ⟨?_, ?_, hm, fun _ => hd.trans hrd, fun h => absurd h (by rw [h1]; decide),
    fun h => absurd h (by rw [h2]; decide)⟩
  · rw [hop]
    rcases ho with rfl | rfl | rfl <;> decide
  · rw [hop]
    rcases ho with rfl | rfl | rfl <;> exact iff_of_false (by decide) hh

theorem decodes_hcf (hop : opcode w = HCF) (hi : i.op = .HCF) : Decodes w i := by
  have hd : useRd w = false := by
    rw [useRd, hop]
    rfl
  have h1 : useRs1 w = false := by
    rw [useRs1, hop]
    rfl
  have h2 : useRs2 w = false := by
    rw [useRs2, hop]
    rfl
  refine ⟨by rw [hop]; decide, iff_of_true hop hi, by rw [hi]; rfl, ?_, ?_, ?_⟩
  · rw [hd]
    exact fun h => absurd h (by decide)
  · rw [h1]
    exact fun h => absurd h (by decide)
  · rw [h2]
    exact fun h => absurd h (by decide)

theorem Encodes.decodes (h : Encodes pc w i) : Decodes w i := by
  obtain ⟨f, hf, h⟩ := h
  rcases i with ⟨op, a1, a2, a3, l⟩
  cases op <;> simp only [format, Option.some.injEq, reduceCtorEq] at hf <;> subst hf
  all_goals first
    | exact decodes_R h rfl (by simp) rfl rfl rfl rfl
    | exact decodes_I h (.inl rfl) rfl (by simp) rfl rfl rfl
    | exact decodes_I h (.inr rfl) rfl (by simp) rfl rfl rfl
    | exact decodes_shift h rfl (by simp) rfl rfl rfl
    | exact decodes_B h rfl (by simp) rfl rfl rfl
    | exact decodes_noSource h.1 (.inl rfl) h.2.1 rfl (by simp) rfl
    | exact decodes_noSource h.1 (.inr (.inl rfl)) h.2.1 rfl (by simp) rfl
    | exact decodes_noSource h.1 (.inr (.inr rfl)) h.2.1 rfl (by simp) rfl
    | exact decodes_hcf h rfl

end

/-! ## Dependences -/

section

variable {w w' : Word} {i j : Instr}

/-- A source register of `i` is the one `j` writes. -/
theorem checkRAW_of_rd (h' : Decodes w' j) (hd : useRd w' = true) (hz : rd w' ≠ 0)
    (hs : (sourceRegs i).1 = (rd w').toNat ∨ (sourceRegs i).2 = (rd w').toNat) :
    checkRAW (getDestReg j) i = true := by
  have hne : (rd w').toNat ≠ 0 := fun h0 => hz (BitVec.eq_of_toNat_eq (by simpa using h0))
  unfold checkRAW
  rw [h'.rd hd, if_neg (by exact_mod_cast hne)]
  simpa using hs

/-- The Chisel interlock stalls for no more than `hazard_check` does. -/
theorem Decodes.overlap_eq_false (h : Decodes w i) (h' : Decodes w' j) (hno : dependsOn i j = false) :
    overlap w w' = false := by
  simp only [dependsOn, Bool.or_eq_false_iff, Bool.and_eq_false_imp] at hno
  obtain ⟨hno1, hno2⟩ := hno
  unfold overlap
  rw [Bool.or_eq_false_iff]
  refine ⟨?_, ?_⟩ <;> by_contra hc
  · simp only [Bool.not_eq_false, Bool.and_eq_true, beq_iff_eq, bne_iff_ne, ne_eq] at hc
    obtain ⟨⟨⟨hu, hd⟩, he⟩, hz⟩ := hc
    obtain ⟨h1, hr⟩ := h.rs1 hu
    have hraw : checkRAW (getDestReg j) i = true := checkRAW_of_rd h' hd hz (.inl (by rw [hr, he]))
    exact Bool.false_ne_true ((hno1 h1).symm.trans hraw)
  · simp only [Bool.not_eq_false, Bool.and_eq_true, beq_iff_eq, bne_iff_ne, ne_eq] at hc
    obtain ⟨⟨⟨hu, hd⟩, he⟩, hz⟩ := hc
    obtain ⟨h2, hr⟩ := h.rs2 hu
    have hraw : checkRAW (getDestReg j) i = true := checkRAW_of_rd h' hd hz (.inr (by rw [hr, he]))
    exact Bool.false_ne_true ((hno2 h2).symm.trans hraw)

theorem Decodes.ne_zero (h : Decodes w i) : w ≠ 0#32 := by
  rintro rfl
  exact absurd h.opcode (by decide)

theorem Decodes.not_loadStore (h : Decodes w i) : Chisel.opcode w ≠ LOAD ∧ Chisel.opcode w ≠ STORE := by
  have ho := h.opcode
  refine ⟨?_, ?_⟩ <;> intro hc <;> rw [hc] at ho <;> exact absurd ho (by decide)

end

end SocModel.Timing
