import SocModel.Chisel.Execute
import SocModel.Stage5.Stages

/-!
# The two hazard detections

`hazard_check` goes by the operands of the decoded instructions, the Chisel controller by the fields of the words.
Both ask the same question of the registers that an instruction reads and writes (`Uses`, `Depends`), for every
RV32I instruction, `HCF` and the bubble.
-/

namespace SocModel.Timing

open Chisel Stage5
open Rv32i (Inst Reg)

/-! ## Registers read and written -/

/-- The registers that an instruction reads and the one it writes. -/
structure Uses where
  rs1 : Option Reg
  rs2 : Option Reg
  rd : Option Reg

/-- A register other than `x0` that `u` reads is the one `v` writes. -/
def Depends (u v : Uses) : Prop := ∃ r, v.rd = some r ∧ r ≠ 0 ∧ (u.rs1 = some r ∨ u.rs2 = some r)

/-- What a stage holds. -/
inductive Occupant where
  | bubble
  | hcf
  | inst (i : Inst)
  deriving DecidableEq, Repr

def Occupant.uses : Occupant → Uses
  | bubble | hcf => ⟨none, none, none⟩
  | inst i =>
    { rs1 := if i.readsRs1 then some i.fields.rs1 else none
      rs2 := if i.readsRs2 then some i.fields.rs2 else none
      rd := if i.writesRd then some i.fields.rd else none }

/-! ## The instructions of the 5-stage model -/

def opType : Rv32i.Op → InstrType
  | .ADD => .ADD | .SUB => .SUB | .SLL => .SLL | .SLT => .SLT | .SLTU => .SLTU
  | .XOR => .XOR | .SRL => .SRL | .SRA => .SRA | .OR => .OR | .AND => .AND

def opImmType : Rv32i.OpImm → InstrType
  | .ADDI => .ADDI | .SLTI => .SLTI | .SLTIU => .SLTIU | .XORI => .XORI | .ORI => .ORI | .ANDI => .ANDI

def shiftImmType : Rv32i.ShiftImm → InstrType
  | .SLLI => .SLLI | .SRLI => .SRLI | .SRAI => .SRAI

def loadType : Rv32i.Load → InstrType
  | .LB => .LB | .LH => .LH | .LW => .LW | .LBU => .LBU | .LHU => .LHU

def storeType : Rv32i.Store → InstrType
  | .SB => .SB | .SH => .SH | .SW => .SW

def condType : Rv32i.Cond → InstrType
  | .BEQ => .BEQ | .BNE => .BNE | .BLT => .BLT | .BGE => .BGE | .BLTU => .BLTU | .BGEU => .BGEU

/-- The `instr` is the decoded instruction: its opcode, and its registers where the assembler puts them. A store has
its data in `a1` and its base in `a2`. -/
def IsDecoded (d : Instr) : Inst → Prop
  | .op o rd rs1 rs2 => d.op = opType o ∧ d.a1.reg = rd.toNat ∧ d.a2.reg = rs1.toNat ∧ d.a3.reg = rs2.toNat
  | .opImm o rd rs1 _ => d.op = opImmType o ∧ d.a1.reg = rd.toNat ∧ d.a2.reg = rs1.toNat
  | .shiftImm o rd rs1 _ => d.op = shiftImmType o ∧ d.a1.reg = rd.toNat ∧ d.a2.reg = rs1.toNat
  | .lui rd _ => d.op = .LUI ∧ d.a1.reg = rd.toNat
  | .auipc rd _ => d.op = .AUIPC ∧ d.a1.reg = rd.toNat
  | .load o rd rs1 _ => d.op = loadType o ∧ d.a1.reg = rd.toNat ∧ d.a2.reg = rs1.toNat
  | .store o rs1 rs2 _ => d.op = storeType o ∧ d.a1.reg = rs2.toNat ∧ d.a2.reg = rs1.toNat
  | .branch o rs1 rs2 _ => d.op = condType o ∧ d.a1.reg = rs1.toNat ∧ d.a2.reg = rs2.toNat
  | .jal rd _ => d.op = .JAL ∧ d.a1.reg = rd.toNat
  | .jalr rd rs1 _ => d.op = .JALR ∧ d.a1.reg = rd.toNat ∧ d.a2.reg = rs1.toNat

/-- The occupant as the 5-stage model holds it: a bubble is a null pointer. -/
def Occupant.IsPacket (p : Option InstPacket) : Occupant → Prop
  | bubble => p = none
  | hcf => ∃ q, p = some q ∧ q.inst.op = .HCF
  | inst i => ∃ q, p = some q ∧ IsDecoded q.inst i

/-- The occupant as the Chisel CPU holds it: a bubble is the word 0. -/
def Occupant.IsWord (w : Word) : Occupant → Prop
  | bubble => w = 0
  | hcf => opcode w = Opcode.HCF
  | inst i => w = i.encode

/-! ## `hazard_check` -/

/-- What the functions of `PipelineUtils.hh` read off an instruction. -/
structure Uses.OfInstr (u : Uses) (d : Instr) : Prop where
  rd : getDestReg d = (u.rd.elim 0 fun r => (r.toNat : Int))
  sources : ∀ r : Reg, r ≠ 0 → (((isRs1Used d || isRs2Used d) = true ∧
    ((sourceRegs d).1 = r.toNat ∨ (sourceRegs d).2 = r.toNat)) ↔ u.rs1 = some r ∨ u.rs2 = some r)

theorem toNat_eq_iff {r s : Reg} : ((r.toNat : Int) = s.toNat) ↔ r = s := by
  rw [Int.natCast_inj, BitVec.toNat_inj]

theorem zero_ne_toNat {r : Reg} (h : r ≠ 0) : (0 : Int) ≠ r.toNat := by
  intro hz
  apply h
  exact (toNat_eq_iff.mp hz.symm : r = 0#5)

/-! By the sources of the instruction: two registers, one, none. -/

theorem sources_two {d : Instr} {rs1 rs2 : Reg} {rd : Option Reg} {a b : Int} (hu : isRs1Used d = true)
    (hs : sourceRegs d = (a, b)) (h : (a = rs1.toNat ∧ b = rs2.toNat) ∨ (a = rs2.toNat ∧ b = rs1.toNat)) (r : Reg) :
    ((isRs1Used d || isRs2Used d) = true ∧ ((sourceRegs d).1 = r.toNat ∨ (sourceRegs d).2 = r.toNat)) ↔
      (Uses.mk (some rs1) (some rs2) rd).rs1 = some r ∨ (Uses.mk (some rs1) (some rs2) rd).rs2 = some r := by
  rw [hu, hs]
  obtain ⟨rfl, rfl⟩ | ⟨rfl, rfl⟩ := h
  · simp only [Bool.true_or, true_and, toNat_eq_iff, Option.some.injEq]
  · simp only [Bool.true_or, true_and, toNat_eq_iff, Option.some.injEq]
    exact or_comm

theorem sources_one {d : Instr} {rs1 : Reg} {rd : Option Reg} (hu : isRs1Used d = true)
    (hs : sourceRegs d = ((rs1.toNat : Int), 0)) (r : Reg) (hr : r ≠ 0) :
    ((isRs1Used d || isRs2Used d) = true ∧ ((sourceRegs d).1 = r.toNat ∨ (sourceRegs d).2 = r.toNat)) ↔
      (Uses.mk (some rs1) none rd).rs1 = some r ∨ (Uses.mk (some rs1) none rd).rs2 = some r := by
  rw [hu, hs]
  simp only [Bool.true_or, true_and, toNat_eq_iff, Option.some.injEq, zero_ne_toNat hr, or_false, reduceCtorEq]

theorem sources_none {d : Instr} {rd : Option Reg} (h1 : isRs1Used d = false) (h2 : isRs2Used d = false) (r : Reg) :
    ((isRs1Used d || isRs2Used d) = true ∧ ((sourceRegs d).1 = r.toNat ∨ (sourceRegs d).2 = r.toNat)) ↔
      (Uses.mk none none rd).rs1 = some r ∨ (Uses.mk none none rd).rs2 = some r := by
  rw [h1, h2]
  simp only [Bool.or_self, Bool.false_eq_true, false_and, reduceCtorEq, or_self]

/-- The instructions that read `a2` and write `a1`. -/
theorem ofInstr_imm {d : Instr} {rd rs1 : Reg} (hd : getDestReg d = d.a1.reg) (hu : isRs1Used d = true)
    (hs : sourceRegs d = (d.a2.reg, 0)) (h : d.a1.reg = rd.toNat ∧ d.a2.reg = rs1.toNat) :
    (Uses.mk (some rs1) none (some rd)).OfInstr d :=
  ⟨hd.trans h.1, sources_one hu (by rw [hs, h.2])⟩

theorem ofInstr_of_isDecoded {d : Instr} {i : Inst} (h : IsDecoded d i) : (Occupant.inst i).uses.OfInstr d := by
  cases i with
  | op o rd rs1 rs2 =>
    obtain ⟨ho, hrd, hrs1, hrs2⟩ := h
    have hd : getDestReg d = d.a1.reg := by rw [getDestReg, ho]; cases o <;> rfl
    have hu : isRs1Used d = true := by rw [isRs1Used, ho]; cases o <;> rfl
    have hs : sourceRegs d = (d.a2.reg, d.a3.reg) := by rw [sourceRegs, ho]; cases o <;> rfl
    exact ⟨hd.trans hrd, fun r _ => sources_two hu hs (.inl ⟨hrs1, hrs2⟩) r⟩
  | opImm o rd rs1 imm =>
    obtain ⟨ho, hregs⟩ := h
    have hd : getDestReg d = d.a1.reg := by rw [getDestReg, ho]; cases o <;> rfl
    have hu : isRs1Used d = true := by rw [isRs1Used, ho]; cases o <;> rfl
    have hs : sourceRegs d = (d.a2.reg, 0) := by rw [sourceRegs, ho]; cases o <;> rfl
    exact ofInstr_imm hd hu hs hregs
  | shiftImm o rd rs1 shamt =>
    obtain ⟨ho, hregs⟩ := h
    have hd : getDestReg d = d.a1.reg := by rw [getDestReg, ho]; cases o <;> rfl
    have hu : isRs1Used d = true := by rw [isRs1Used, ho]; cases o <;> rfl
    have hs : sourceRegs d = (d.a2.reg, 0) := by rw [sourceRegs, ho]; cases o <;> rfl
    exact ofInstr_imm hd hu hs hregs
  | load o rd rs1 imm =>
    obtain ⟨ho, hregs⟩ := h
    have hd : getDestReg d = d.a1.reg := by rw [getDestReg, ho]; cases o <;> rfl
    have hu : isRs1Used d = true := by rw [isRs1Used, ho]; cases o <;> rfl
    have hs : sourceRegs d = (d.a2.reg, 0) := by rw [sourceRegs, ho]; cases o <;> rfl
    exact ofInstr_imm hd hu hs hregs
  | jalr rd rs1 imm =>
    obtain ⟨ho, hregs⟩ := h
    have hd : getDestReg d = d.a1.reg := by rw [getDestReg, ho]
    have hu : isRs1Used d = true := by rw [isRs1Used, ho]
    have hs : sourceRegs d = (d.a2.reg, 0) := by rw [sourceRegs, ho]
    exact ofInstr_imm hd hu hs hregs
  | store o rs1 rs2 imm =>
    obtain ⟨ho, hrs2, hrs1⟩ := h
    have hd : getDestReg d = 0 := by rw [getDestReg, ho]; cases o <;> rfl
    have hu : isRs1Used d = true := by rw [isRs1Used, ho]; cases o <;> rfl
    have hs : sourceRegs d = (d.a1.reg, d.a2.reg) := by rw [sourceRegs, ho]; cases o <;> rfl
    exact ⟨hd, fun r _ => sources_two hu hs (.inr ⟨hrs2, hrs1⟩) r⟩
  | branch o rs1 rs2 offset =>
    obtain ⟨ho, hrs1, hrs2⟩ := h
    have hd : getDestReg d = 0 := by rw [getDestReg, ho]; cases o <;> rfl
    have hu : isRs1Used d = true := by rw [isRs1Used, ho]; cases o <;> rfl
    have hs : sourceRegs d = (d.a1.reg, d.a2.reg) := by rw [sourceRegs, ho]; cases o <;> rfl
    exact ⟨hd, fun r _ => sources_two hu hs (.inl ⟨hrs1, hrs2⟩) r⟩
  | lui rd imm | auipc rd imm | jal rd offset =>
    obtain ⟨ho, hrd⟩ := h
    have hd : getDestReg d = d.a1.reg := by rw [getDestReg, ho]
    have h1 : isRs1Used d = false := by rw [isRs1Used, ho]
    have h2 : isRs2Used d = false := by rw [isRs2Used, ho]
    exact ⟨hd.trans hrd, fun r _ => sources_none h1 h2 r⟩

theorem ofInstr_of_hcf {d : Instr} (h : d.op = .HCF) : Occupant.hcf.uses.OfInstr d := by
  have hd : getDestReg d = 0 := by rw [getDestReg, h]
  have h1 : isRs1Used d = false := by rw [isRs1Used, h]
  have h2 : isRs2Used d = false := by rw [isRs2Used, h]
  exact ⟨hd, fun r _ => sources_none h1 h2 r⟩

/-- One dependence test of `hazard_check`, whose second operand is 0 for a null pointer. -/
theorem checkRAW_iff {u v : Uses} {d : Instr} (hu : u.OfInstr d) {destReg : Int}
    (hv : destReg = v.rd.elim 0 fun r => (r.toNat : Int)) :
    ((isRs1Used d && checkRAW destReg d) || (isRs2Used d && checkRAW destReg d)) = true ↔ Depends u v := by
  rw [← Bool.and_or_distrib_right, Bool.and_eq_true, hv]
  rcases hrd : v.rd with _ | r
  · refine iff_of_false ?_ ?_
    · rintro ⟨-, hraw⟩
      exact Bool.false_ne_true hraw
    · rintro ⟨r, hr, -⟩
      exact nomatch hrd.symm.trans hr
  · have hdep : Depends u v ↔ r ≠ 0 ∧ (u.rs1 = some r ∨ u.rs2 = some r) := by
      constructor
      · rintro ⟨r', hr', h⟩
        obtain rfl : r = r' := Option.some.inj (hrd.symm.trans hr')
        exact h
      · exact fun h => ⟨r, hrd, h⟩
    rw [hdep, Option.elim_some]
    by_cases hz : r = 0
    · subst hz
      exact iff_of_false (fun h => Bool.false_ne_true h.2) (fun h => h.1 rfl)
    · have hraw : checkRAW r.toNat d = true ↔ (sourceRegs d).1 = r.toNat ∨ (sourceRegs d).2 = r.toNat := by
        unfold checkRAW
        rw [if_neg (zero_ne_toNat hz).symm]
        simp
      rw [hraw, hu.sources r hz]
      simp only [ne_eq, hz, not_false_eq_true, true_and]

/-- The register that the occupant writes, as `hazard_check` has it. -/
theorem destReg_of_isPacket {o : Occupant} {p : Option InstPacket} (h : o.IsPacket p) :
    (p.map fun p => getDestReg p.inst).getD 0 = o.uses.rd.elim 0 fun r => (r.toNat : Int) := by
  cases o with
  | bubble =>
    obtain rfl := h
    rfl
  | hcf =>
    obtain ⟨q, rfl, hq⟩ := h
    exact (ofInstr_of_hcf hq).rd
  | inst i =>
    obtain ⟨q, rfl, hq⟩ := h
    exact (ofInstr_of_isDecoded hq).rd

/-- `hazard_check` reports a stall of one of the three stages. -/
def reportsStall (r : Bool × Bool × Bool) : Bool := r.1 || r.2.1 || r.2.2

theorem reportsStall_hazardCheck_iff {id exe mem wb : Occupant} {ifPacket pId pExe pMem pWb : Option InstPacket}
    (hid : id.IsPacket pId) (hexe : exe.IsPacket pExe) (hmem : mem.IsPacket pMem) (hwb : wb.IsPacket pWb) :
    reportsStall (hazardCheck ifPacket pId pExe pMem pWb) = true ↔
      Depends id.uses exe.uses ∨ Depends id.uses mem.uses ∨ Depends id.uses wb.uses := by
  have hpacket : ∀ {q : InstPacket}, id.uses.OfInstr q.inst →
      (reportsStall (hazardCheck ifPacket (some q) pExe pMem pWb) = true ↔
        Depends id.uses exe.uses ∨ Depends id.uses mem.uses ∨ Depends id.uses wb.uses) := by
    intro q hq
    rw [← checkRAW_iff hq (destReg_of_isPacket hexe), ← checkRAW_iff hq (destReg_of_isPacket hmem),
      ← checkRAW_iff hq (destReg_of_isPacket hwb), ← Bool.or_eq_true, ← Bool.or_eq_true, ← Bool.or_assoc]
    unfold hazardCheck
    dsimp only
    split
    · next h => exact iff_of_true rfl h
    · next h => exact iff_of_false Bool.false_ne_true h
  cases id with
  | bubble =>
    obtain rfl := hid
    refine iff_of_false Bool.false_ne_true ?_
    rintro (⟨r, -, -, h | h⟩ | ⟨r, -, -, h | h⟩ | ⟨r, -, -, h | h⟩) <;> exact nomatch h
  | hcf =>
    obtain ⟨q, rfl, hq⟩ := hid
    exact hpacket (ofInstr_of_hcf hq)
  | inst i =>
    obtain ⟨q, rfl, hq⟩ := hid
    exact hpacket (ofInstr_of_isDecoded hq)

/-! ## The Chisel controller -/

/-- What the tables of the controller read off a word. -/
structure Uses.OfWord (u : Uses) (w : Word) : Prop where
  rs1 : u.rs1 = if useRs1 w then some (Chisel.rs1 w) else none
  rs2 : u.rs2 = if useRs2 w then some (Chisel.rs2 w) else none
  rd : u.rd = if useRd w then some (Chisel.rd w) else none

theorem ofWord_of_isWord {o : Occupant} {w : Word} (h : o.IsWord w) : o.uses.OfWord w := by
  cases o with
  | bubble =>
    obtain rfl := h
    exact ⟨rfl, rfl, rfl⟩
  | hcf =>
    have h1 : useRs1 w = false := by rw [useRs1, h]; rfl
    have h2 : useRs2 w = false := by rw [useRs2, h]; rfl
    have hd : useRd w = false := by rw [useRd, h]; rfl
    exact ⟨by rw [h1]; rfl, by rw [h2]; rfl, by rw [hd]; rfl⟩
  | inst i =>
    obtain rfl := h
    have h1 : useRs1 i.encode = i.readsRs1 := by
      rw [useRs1, opcode_encode]
      cases i <;> rfl
    have h2 : useRs2 i.encode = i.readsRs2 := by
      rw [useRs2, opcode_encode]
      cases i <;> rfl
    have hd : useRd i.encode = i.writesRd := by
      rw [useRd, opcode_encode]
      cases i <;> rfl
    refine ⟨?_, ?_, ?_⟩
    · rw [h1]
      by_cases hr : i.readsRs1 = true
      · rw [Occupant.uses, if_pos hr, if_pos hr, Chisel.rs1, i.rs1_encode hr]
      · rw [Occupant.uses, if_neg hr, if_neg hr]
    · rw [h2]
      by_cases hr : i.readsRs2 = true
      · rw [Occupant.uses, if_pos hr, if_pos hr, Chisel.rs2, i.rs2_encode hr]
      · rw [Occupant.uses, if_neg hr, if_neg hr]
    · rw [hd]
      by_cases hr : i.writesRd = true
      · rw [Occupant.uses, if_pos hr, if_pos hr, Chisel.rd, i.rd_encode hr]
      · rw [Occupant.uses, if_neg hr, if_neg hr]

theorem overlap_iff {u v : Uses} {w w' : Word} (hu : u.OfWord w) (hv : v.OfWord w') :
    overlap w w' = true ↔ Depends u v := by
  unfold overlap Depends
  rw [hu.rs1, hu.rs2, hv.rd]
  by_cases hd : useRd w' = true
  · by_cases h1 : useRs1 w = true <;> by_cases h2 : useRs2 w = true <;>
      simp [hd, h1, h2] <;> grind
  · simp [hd]

/-- **The two hazard detections agree.** For every four occupants, `hazard_check` on the packets reports a stall
exactly when the controller asserts one of its three data hazard stalls on the words. -/
theorem hazardCheck_iff_stallDH (id exe mem wb : Occupant) (ifPacket pId pExe pMem pWb : Option InstPacket)
    (s : Chisel.State) (hid : id.IsPacket pId ∧ id.IsWord s.id.inst) (hexe : exe.IsPacket pExe ∧ exe.IsWord s.exe.inst)
    (hmem : mem.IsPacket pMem ∧ mem.IsWord s.mem.inst) (hwb : wb.IsPacket pWb ∧ wb.IsWord s.wb.inst) :
    reportsStall (hazardCheck ifPacket pId pExe pMem pWb) = true ↔ s.stallDH = true := by
  rw [reportsStall_hazardCheck_iff hid.1 hexe.1 hmem.1 hwb.1, State.stallDH, Bool.or_eq_true, Bool.or_eq_true,
    overlap_iff (ofWord_of_isWord hid.2) (ofWord_of_isWord hexe.2),
    overlap_iff (ofWord_of_isWord hid.2) (ofWord_of_isWord hmem.2),
    overlap_iff (ofWord_of_isWord hid.2) (ofWord_of_isWord hwb.2), or_assoc]

/-- `SW x5, 0(x6)` behind `LW x6, 0(x7)`, with bubbles in MEM and WB. -/
theorem hazardCheck_iff_stallDH_store :
    let sw : Instr := { op := .SW, a1 := { reg := 5 }, a2 := { reg := 6 } }
    let lw : Instr := { op := .LW, a1 := { reg := 6 }, a2 := { reg := 7 } }
    let s : Chisel.State := { id := ⟨4, (Inst.store .SW 6 5 0).encode⟩, exe := { inst := (Inst.load .LW 6 7 0).encode } }
    reportsStall (hazardCheck none (some ⟨sw, 4, false⟩) (some ⟨lw, 0, false⟩) none none) = true ↔ s.stallDH = true :=
  hazardCheck_iff_stallDH (.inst (.store .SW 6 5 0)) (.inst (.load .LW 6 7 0)) .bubble .bubble none _ _ none none _
    ⟨⟨_, rfl, rfl, rfl, rfl⟩, rfl⟩ ⟨⟨_, rfl, rfl, rfl, rfl⟩, rfl⟩ ⟨rfl, rfl⟩ ⟨rfl, rfl⟩

end SocModel.Timing
