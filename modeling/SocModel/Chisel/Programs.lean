import SocModel.Chisel.Execute
import SocModel.Chisel.LoadStore
import SocModel.Chisel.Pace
import SocModel.Lib.Rv32iMachine

/-!
# The chip runs RV32I programs

* `Loaded` : a program in the instruction memory, `Fits` : the states in which the chip does an instruction as it is
  defined;
* `Matches` : the serial machine's state and that of RV32I, `matches_next` : an instruction keeps it;
* `chip_runs` : programs that come to the end.
-/

namespace SocModel.Chisel

open Lib Opcode
open Rv32i (Inst Machine Program Slot)

/-! ## Bytes -/

theorem toNat_append_byte {n : Nat} (x : BitVec n) (b : BitVec 8) : (x ++ b).toNat = b.toNat + 256 * x.toNat := by
  have hb := b.isLt
  rw [BitVec.toNat_append, ← Nat.shiftLeft_add_eq_or_of_lt hb, Nat.shiftLeft_eq]
  omega

theorem extractLsb'_byte (v : Word) (k : Nat) : v.extractLsb' (8 * k) 8 = BitVec.ofNat 8 (v.toNat / 256 ^ k) := by
  apply BitVec.eq_of_toNat_eq
  rw [BitVec.extractLsb'_toNat, BitVec.toNat_ofNat, Nat.shiftRight_eq_div_pow, Nat.pow_mul]

/-- The address rounded down to a word. -/
theorem toNat_and_not_three (a : Addr) : (a &&& ~~~3).toNat = a.toNat / 4 * 4 := by
  have hshift : a &&& ~~~(3 : Addr) = a >>> 2 <<< 2 := by
    ext k hk
    rw [BitVec.getElem_and, BitVec.getElem_not, BitVec.getElem_shiftLeft]
    interval_cases k <;> simp
  have hlt := a.isLt
  rw [hshift, BitVec.toNat_shiftLeft, BitVec.toNat_ushiftRight, Nat.shiftRight_eq_div_pow, Nat.shiftLeft_eq]
  omega

/-- The bytes of the data memory are those of the store. -/
def SameBytes (memory : Bytes) (mem : Store) : Prop := ∀ a : Addr, memory a = mem a.toNat

section

variable {memory : Bytes} {mem : Store} (h : SameBytes memory mem) {a : Addr}

include h

theorem SameBytes.add {k : Nat} (hk : a.toNat + k < 2 ^ 15) : memory (a + BitVec.ofNat 15 k) = mem (a.toNat + k) := by
  rw [h, BitVec.toNat_add, BitVec.toNat_ofNat]
  congr 1
  omega

theorem SameBytes.load_two (hk : a.toNat + 1 < 2 ^ 15) :
    memory (a + 1) ++ memory a = BitVec.ofNat 16 (load mem a.toNat 2) := by
  have h1 : memory (a + 1) = mem (a.toNat + 1) := h.add (k := 1) hk
  have hlt : load mem a.toNat 2 < 2 ^ (8 + 8) := load_lt mem a.toNat 2
  apply BitVec.eq_of_toNat_eq
  rw [BitVec.toNat_ofNat, Nat.mod_eq_of_lt hlt, toNat_append_byte, h1, h a]
  rfl

theorem SameBytes.loadu_two (hk : a.toNat + 1 < 2 ^ 15) :
    0#16 ++ memory (a + 1) ++ memory a = BitVec.ofNat 32 (load mem a.toNat 2) := by
  have h1 : memory (a + 1) = mem (a.toNat + 1) := h.add (k := 1) hk
  have hlt : load mem a.toNat 2 < 2 ^ (16 + 8 + 8) := (load_lt mem a.toNat 2).trans (by decide)
  apply BitVec.eq_of_toNat_eq
  rw [BitVec.toNat_ofNat, Nat.mod_eq_of_lt hlt, toNat_append_byte, toNat_append_byte, h1, h a]
  rfl

theorem SameBytes.load_four (hk : a.toNat + 3 < 2 ^ 15) :
    memory (a + 3) ++ memory (a + 2) ++ memory (a + 1) ++ memory a = BitVec.ofNat 32 (load mem a.toNat 4) := by
  have h1 : memory (a + 1) = mem (a.toNat + 1) := h.add (k := 1) (by omega)
  have h2 : memory (a + 2) = mem (a.toNat + 2) := h.add (k := 2) (by omega)
  have h3 : memory (a + 3) = mem (a.toNat + 3) := h.add (k := 3) hk
  have hlt : load mem a.toNat 4 < 2 ^ (8 + 8 + 8 + 8) := load_lt mem a.toNat 4
  apply BitVec.eq_of_toNat_eq
  rw [BitVec.toNat_ofNat, Nat.mod_eq_of_lt hlt, toNat_append_byte, toNat_append_byte, toNat_append_byte, h1, h2, h3, h a]
  rfl

end

/-! ## Accesses -/

def loadOp : Rv32i.Load → MemOp
  | .LB => .LB
  | .LH => .LH
  | .LW => .LW
  | .LBU => .LBU
  | .LHU => .LHU

def storeOp : Rv32i.Store → MemOp
  | .SB => .SB
  | .SH => .SH
  | .SW => .SW

/-- The bytes at the address rounded down to a word are those at the address, for `LBU` and `LHU`. -/
def UnsignedExact (mem : Store) (r : Nat) : Rv32i.Load → Prop
  | .LBU => mem (r / 4 * 4) = mem r
  | .LHU => mem (r / 4 * 4) = mem r ∧ mem (r / 4 * 4 + 1) = mem (r + 1)
  | _ => True

instance (mem : Store) (r : Nat) : (o : Rv32i.Load) → Decidable (UnsignedExact mem r o)
  | .LBU => inferInstanceAs (Decidable (_ = _))
  | .LHU => inferInstanceAs (Decidable (_ ∧ _))
  | .LB | .LH | .LW => isTrue trivial

section

variable {memory : Bytes} {mem : Store} (h : SameBytes memory mem) {a : Addr}

include h

/-- A load in range, aligned, finds its value. -/
theorem SameBytes.readData (o : Rv32i.Load) (ha : a.toNat % o.size = 0) (hu : UnsignedExact mem a.toNat o) :
    Chisel.readData memory (0#1 ++ o.funct3) a = o.extend (load mem a.toNat o.size) := by
  have hf : 0#1 ++ o.funct3 = 0#1 ++ (loadOp o).funct3 := by cases o <;> rfl
  have hlt := a.isLt
  have halign : (⟨loadOp o, a, 0⟩ : Access).Aligned := by cases o <;> exact ha
  have hround := toNat_and_not_three a
  have hexact : AccessExact memory ⟨loadOp o, a, 0⟩ := by
    cases o with
    | LBU =>
      show memory (a &&& ~~~3) = memory a
      rw [h, h, hround]
      exact hu
    | LHU =>
      show memory (a &&& ~~~3) = memory a ∧ memory ((a &&& ~~~3) + 1) = memory (a + 1)
      have ha : a.toNat % 2 = 0 := ha
      have h1 : memory (a + 1) = mem (a.toNat + 1) := h.add (k := 1) (by omega)
      have h2 : memory ((a &&& ~~~3) + 1) = mem ((a &&& ~~~3).toNat + 1) := h.add (k := 1) (by omega)
      rw [h1, h2, h, h, hround]
      exact hu
    | LB | LH | LW => trivial
  rw [hf, (readData_iff halign (by cases o <;> rfl) memory).mpr hexact]
  cases o with
  | LB =>
    show (memory a).signExtend 32 = (BitVec.ofNat 8 ((mem a.toNat).toNat + 256 * 0)).signExtend 32
    rw [h, Nat.mul_zero, Nat.add_zero, BitVec.ofNat_toNat, BitVec.setWidth_eq]
  | LBU =>
    show 0#24 ++ memory a = BitVec.ofNat 32 ((mem a.toNat).toNat + 256 * 0)
    apply BitVec.eq_of_toNat_eq
    rw [toNat_append_byte, h, BitVec.toNat_ofNat]
    have := (mem a.toNat).isLt
    simp
    omega
  | LH =>
    have ha : a.toNat % 2 = 0 := ha
    exact congrArg (BitVec.signExtend 32) (h.load_two (a := a) (by omega))
  | LHU =>
    have ha : a.toNat % 2 = 0 := ha
    exact h.loadu_two (a := a) (by omega)
  | LW =>
    have ha : a.toNat % 4 = 0 := ha
    exact h.load_four (a := a) (by omega)

/-- A store in range, aligned, writes its bytes. -/
theorem SameBytes.storeBytes (o : Rv32i.Store) (ha : a.toNat % o.size = 0) (data : Word) :
    SameBytes (Chisel.storeBytes memory (0#1 ++ o.funct3) a data) (store mem a.toNat o.size data.toNat) := by
  have hf : 0#1 ++ o.funct3 = 0#1 ++ (storeOp o).funct3 := by cases o <;> rfl
  have hlt := a.isLt
  have halign : (⟨storeOp o, a, data⟩ : Access).Aligned := by cases o <;> exact ha
  have hsize : (storeOp o).size = o.size := by cases o <;> rfl
  have hstore : (storeOp o).isStore = true := by cases o <;> rfl
  have hend : a.toNat + o.size ≤ 2 ^ 15 := by cases o <;> simp only [Rv32i.Store.size] at ha ⊢ <;> omega
  have heffect := storeBytes_eq halign hstore memory
  intro x
  rw [hf, heffect]
  have hx := x.isLt
  unfold Access.effect store
  simp only [hstore, hsize, true_and]
  have hsub : (x - a).toNat < o.size ↔ a.toNat ≤ x.toNat ∧ x.toNat < a.toNat + o.size := by
    rw [BitVec.toNat_sub]
    omega
  by_cases hin : (x - a).toNat < o.size
  · rw [if_pos hin, if_pos (hsub.mp hin), extractLsb'_byte]
    congr 3
    have := (hsub.mp hin).1
    rw [BitVec.toNat_sub]
    omega
  · rw [if_neg hin, if_neg (fun hc => hin (hsub.mpr hc)), h]

end

/-! ## Instructions -/

/-- The instruction at `pc` with what it reads, in EXE. -/
def Serial.wires (program : Bytes) (s : Serial) : State := (s.operands program).wires

/-- The states in which the chip does the instruction as it is defined: an access is aligned and in range, and what `LBU`
and `LHU` find at the address rounded down to a word is what is at the address; a link is an address of the memory, and
the target of `JALR` is even. -/
def Fits (m : Machine) : Inst → Prop
  | i@(.load o ..) => (i.output m).toNat < 2 ^ 15 ∧ (i.output m).toNat % o.size = 0 ∧
      UnsignedExact m.mem (i.output m).toNat o
  | i@(.store o ..) => (i.output m).toNat < 2 ^ 15 ∧ (i.output m).toNat % o.size = 0
  | .jal .. => m.pc.toNat + 4 < 2 ^ 15
  | i@(.jalr ..) => m.pc.toNat + 4 < 2 ^ 15 ∧ (i.x m + i.imm).toNat % 2 = 0
  | _ => True

instance (m : Machine) : (i : Inst) → Decidable (Fits m i)
  | .load .. => inferInstanceAs (Decidable (_ ∧ _))
  | .store .. => inferInstanceAs (Decidable (_ ∧ _))
  | .jal .. => inferInstanceAs (Decidable (_ < _))
  | .jalr .. => inferInstanceAs (Decidable (_ ∧ _))
  | .op .. | .opImm .. | .shiftImm .. | .lui .. | .auipc .. | .branch .. => isTrue trivial

/-- What WB writes. -/
def RegWB.wdata (w : RegWB) : Word :=
  match wWBSel w.inst with
  | .pcPlus4 => w.pcPlus4.setWidth 32
  | .aluOut => w.aluOut
  | .ldData => w.ldData

theorem writeBack_of_useRd {w : RegWB} (h : useRd w.inst = true) (regs : BitVec 5 → Word) (r : BitVec 5) :
    Chisel.writeBack w regs r = if r = 0 then 0 else if r = rd w.inst then w.wdata else regs r := by
  unfold Chisel.writeBack
  rw [h, Bool.true_and]
  by_cases hr : r = 0
  · rw [if_pos hr, if_pos hr]
  · rw [if_neg hr, if_neg hr]
    by_cases hd : r = rd w.inst
    · rw [if_pos hd, if_pos (beq_iff_eq.mpr hd)]
      rfl
    · rw [if_neg hd, if_neg (mt beq_iff_eq.mp hd)]

/-- The two machines are in the same state. -/
structure Matches (s : Serial) (m : Machine) : Prop where
  pc : s.pc = m.pc.setWidth 15
  regs : s.regs = m.regs
  memory : SameBytes s.memory m.mem

section

variable {program : Bytes} {s : Serial} {m : Machine} {i : Inst} (h : Matches s m) (hpc : m.pc.toNat < 2 ^ 15)
  (hinst : instMem program (m.pc.setWidth 15) = i.encode)

include h hinst

theorem Matches.inst : s.inst program = i.encode := by
  unfold Serial.inst
  rw [h.pc, hinst]

theorem Matches.rs1 (hr : i.readsRs1 = true) : (s.wires program).exe.rs1 = i.x m := by
  show s.regs (Chisel.rs1 (s.inst program)) = _
  rw [h.inst hinst, h.regs, show Chisel.rs1 i.encode = i.fields.rs1 from i.rs1_encode hr]
  rfl

theorem Matches.rs2 (hr : i.readsRs2 = true) : (s.wires program).exe.rs2 = i.y m := by
  show s.regs (Chisel.rs2 (s.inst program)) = _
  rw [h.inst hinst, h.regs, show Chisel.rs2 i.encode = i.fields.rs2 from i.rs2_encode hr]
  rfl

include hpc

theorem Matches.output (hf : Fits m i) : (s.wires program).exeAluOut = i.output m := by
  have hw : (s.wires program).exe.inst = i.encode := h.inst hinst
  have himm : (s.wires program).exe.imm = immGen (dImmSel i.encode) i.encode :=
    congrArg (fun w => immGen (dImmSel w) w) hw
  have hwide : (s.wires program).exe.pc.setWidth 32 = m.pc := by
    show s.pc.setWidth 32 = m.pc
    rw [h.pc]
    apply BitVec.eq_of_toNat_eq
    rw [BitVec.toNat_setWidth, BitVec.toNat_setWidth]
    omega
  have hcongr : i.result m.pc (s.wires program).exe.rs1 (s.wires program).exe.rs2 = i.output m :=
    Inst.result_congr (h.rs1 hinst) (h.rs2 hinst)
  by_cases hj : i.opcode = Rv32i.Opcode.JALR
  · obtain ⟨rd, rs1, imm, rfl⟩ : ∃ rd rs1 imm, i = .jalr rd rs1 imm := by
      cases i with
      | jalr => exact ⟨_, _, _, rfl⟩
      | _ => exact absurd hj (by simp only [Inst.opcode]; decide)
    -- the stage leaves bit 0 of the target as it is
    have heven : (Inst.jalr rd rs1 imm).output m = (Inst.jalr rd rs1 imm).x m + (Inst.jalr rd rs1 imm).imm :=
      Rv32i.and_not_one_of_even hf.2
    rw [State.exeAluOut, aluSrc1_encode hw, aluSrc2_encode hw himm, hw, eALUSel, opcode_encode, heven, ← h.rs1 hinst rfl]
    rfl
  · rw [exeAluOut_encode hw himm hj, hwide, hcongr]

theorem Matches.next_pc (hf : Fits m i) : (s.next program).pc = (i.exec m).pc.setWidth 15 := by
  have hw : (s.wires program).exe.inst = i.encode := h.inst hinst
  have htaken : (s.wires program).branchTaken = true ↔ i.taken (i.x m) (i.y m) :=
    (branchTaken_encode hw).trans (Inst.taken_congr (h.rs1 hinst) (h.rs2 hinst))
  have hen : i.taken (i.x m) (i.y m) → eEn (s.wires program).exe.inst = true := by
    rw [hw, eEn, opcode_encode]
    cases i with
    | branch | jal | jalr => exact fun _ => rfl
    | _ => exact False.elim
  have htarget : (s.wires program).exeTargetPc = (i.output m).setWidth 15 := by
    rw [State.exeTargetPc, h.output hpc hinst hf]
    rfl
  show (s.wires program).succPc = _
  rw [succPc_eq, htarget]
  unfold Inst.exec
  by_cases ht : i.taken (i.x m) (i.y m)
  · rw [if_pos ⟨hen ht, htaken.mpr ht⟩, if_pos ht]
  · rw [if_neg (fun hc => ht (htaken.mp hc.2)), if_neg ht, BitVec.setWidth_add _ _ (by decide), ← h.pc]
    rfl

omit hpc hinst in
/-- WB writes the register that the instruction names. -/
theorem Matches.writeBack (h0 : m.regs 0 = 0) {w : RegWB} (hw : w.inst = i.encode)
    (hv : i.writesRd = true → w.wdata = i.value m) : Chisel.writeBack w s.regs = (i.exec m).regs := by
  have hu : useRd w.inst = i.writesRd := by
    rw [hw, useRd, opcode_encode]
    cases i <;> rfl
  unfold Inst.exec
  dsimp only
  rw [h.regs]
  by_cases hwr : i.writesRd = true
  · have hrd : rd w.inst = i.fields.rd := by
      rw [hw]
      exact i.rd_encode hwr
    rw [if_pos hwr, ← hv hwr, ← hrd]
    funext r
    rw [writeBack_of_useRd (hu.trans hwr)]
    unfold Rv32i.setReg
    by_cases hr : r = 0
    · subst hr
      rw [if_pos rfl, ← h0]
      split
      · rfl
      · next hne => exact (Function.update_of_ne (Ne.symm hne) _ _).symm
    · rw [if_neg hr]
      by_cases hd : r = rd w.inst
      · subst hd
        rw [if_pos rfl, if_neg hr, Function.update_self]
      · rw [if_neg hd]
        split
        · rfl
        · exact (Function.update_of_ne hd _ _).symm
  · rw [if_neg hwr]
    exact writeBack_of_not_useRd (hu.trans (Bool.eq_false_iff.mpr hwr)) h0

theorem Matches.next_regs (h0 : m.regs 0 = 0) (hf : Fits m i) : (s.next program).regs = (i.exec m).regs := by
  have hw : (s.result program).inst = i.encode := h.inst hinst
  have hout : (s.result program).aluOut = i.output m := h.output hpc hinst hf
  refine h.writeBack h0 hw fun hwr => ?_
  unfold RegWB.wdata
  simp only [RegMEM.toWb, hw]
  rw [wWBSel, opcode_encode]
  cases i with
  | store | branch => exact absurd hwr Bool.false_ne_true
  | load o rd rs1 imm =>
    obtain ⟨hlt, hal, hu⟩ := hf
    have haddr : (s.result program).addr.toNat = ((Inst.load o rd rs1 imm).output m).toNat := by
      rw [RegMEM.addr, hout, BitVec.extractLsb'_toNat, Nat.shiftRight_zero, Nat.mod_eq_of_lt hlt]
    have hlen : (s.result program).length = 0#1 ++ o.funct3 := by
      rw [RegMEM.length, hw, funct3_encode _ rfl]
      rfl
    show (s.result program).load s.memory = o.extend (load m.mem _ o.size)
    rw [RegMEM.load, hlen, ← haddr]
    rw [← haddr] at hal hu
    exact h.memory.readData o hal hu
  | jal | jalr =>
    have hlt : m.pc.toNat + 4 < 2 ^ 15 := by
      first
        | exact hf
        | exact hf.1
    show (s.pc + 4).setWidth 32 = m.pc + 4
    rw [h.pc]
    apply BitVec.eq_of_toNat_eq
    rw [BitVec.toNat_setWidth, BitVec.toNat_add, BitVec.toNat_add, BitVec.toNat_setWidth]
    simp
    omega
  | op | opImm | shiftImm | lui | auipc => exact hout

theorem Matches.next_memory (hf : Fits m i) : SameBytes (s.next program).memory (i.exec m).mem := by
  have hw : (s.result program).inst = i.encode := h.inst hinst
  have hout : (s.result program).aluOut = i.output m := h.output hpc hinst hf
  show SameBytes ((s.result program).store s.memory) _
  unfold RegMEM.store
  rw [hw, opcode_encode]
  cases i with
  | store o rs1 rs2 imm =>
    obtain ⟨hlt, hal⟩ := hf
    have haddr : (s.result program).addr.toNat = ((Inst.store o rs1 rs2 imm).output m).toNat := by
      rw [RegMEM.addr, hout, BitVec.extractLsb'_toNat, Nat.shiftRight_zero, Nat.mod_eq_of_lt hlt]
    have hlen : (s.result program).length = 0#1 ++ o.funct3 := by
      rw [RegMEM.length, hw, funct3_encode _ rfl]
      rfl
    have hdata : (s.result program).dmWdata = (Inst.store o rs1 rs2 imm).y m := h.rs2 hinst rfl
    rw [if_pos (show (Inst.store o rs1 rs2 imm).opcode = STORE from rfl), hlen, hdata]
    show SameBytes _ (store m.mem ((Inst.store o rs1 rs2 imm).output m).toNat o.size _)
    rw [← haddr] at hal ⊢
    exact h.memory.storeBytes o hal _
  | _ => exact h.memory

/-- **One instruction.** -/
theorem Matches.next (h0 : m.regs 0 = 0) (hf : Fits m i) : Matches (s.next program) (i.exec m) :=
  ⟨h.next_pc hpc hinst hf, h.next_regs hpc hinst h0 hf, h.next_memory hpc hinst hf⟩

end

/-! ## Programs -/

/-- The program is in the instruction memory: the words of its instructions, and `HCF` where it ends. -/
def Loaded (program : Bytes) (p : Program Inst) : Prop := ∀ pc slot, p pc = some slot → pc.toNat < 2 ^ 15 ∧
  match slot with
  | .inst i => instMem program (pc.setWidth 15) = i.encode
  | .halt => opcode (instMem program (pc.setWidth 15)) = HCF

/-- A jump away from the straight line with a link register other than `x0`, directly behind a load or store. -/
def LinkBehindAccess (m : Machine) (i i' : Inst) : Prop :=
  (i.opcode = Rv32i.Opcode.LOAD ∨ i.opcode = Rv32i.Opcode.STORE) ∧
    (i'.opcode = Rv32i.Opcode.JAL ∨ i'.opcode = Rv32i.Opcode.JALR) ∧ i'.fields.rd ≠ 0 ∧
    (i'.exec (i.exec m)).pc ≠ (i.exec m).pc + 4

instance (m : Machine) (i i' : Inst) : Decidable (LinkBehindAccess m i i') := by
  unfold LinkBehindAccess
  infer_instance

/-- The instruction behind `i` is no such jump. -/
def NoLinkBehind (p : Program Inst) (m : Machine) (i : Inst) : Prop :=
  (i.exec m).allows p fun _ i' => ¬ LinkBehindAccess m i i'

instance (p : Program Inst) (m : Machine) (i : Inst) : Decidable (NoLinkBehind p m i) := by
  unfold NoLinkBehind
  infer_instance

section

variable {p : Program Inst} {program data : Bytes} {mem : Store} {k : Nat} {m : Machine}

/-- A list of instructions is loaded if its words are there, and `HCF` behind them. -/
theorem loaded_ofList {is : List Inst} (hlen : 4 * is.length < 2 ^ 15)
    (hwords : ∀ j (hj : j < is.length), instMem program (BitVec.ofNat 15 (4 * j)) = is[j].encode)
    (hend : opcode (instMem program (BitVec.ofNat 15 (4 * is.length))) = HCF) : Loaded program (Program.ofList is) := by
  intro pc slot hslot
  unfold Program.ofList at hslot
  split at hslot
  · next hpc =>
    obtain ⟨hmod, hle⟩ := hpc
    have haddr : pc.setWidth 15 = BitVec.ofNat 15 (4 * (pc.toNat / 4)) := by
      apply BitVec.eq_of_toNat_eq
      rw [BitVec.toNat_setWidth, BitVec.toNat_ofNat]
      omega
    refine ⟨by omega, ?_⟩
    rw [haddr]
    rcases Nat.lt_or_eq_of_le hle with hlt | heq
    · rw [List.getElem?_eq_getElem hlt] at hslot
      obtain rfl := Option.some.inj hslot
      exact hwords _ hlt
    · rw [List.getElem?_eq_none (by omega)] at hslot
      obtain rfl := Option.some.inj hslot
      rw [heq]
      exact hend
  · cases hslot

theorem matches_after (hload : Loaded program p) (hdata : SameBytes data mem) (hfit : Machine.Throughout p mem k Fits)
    (h : Machine.after p mem k = some m) : Matches (Serial.after program data k) m := by
  refine Machine.after_sim (R := fun m s => Matches s m) (Serial.after program data) ⟨rfl, rfl, hdata⟩ ?_ h
  intro j hj m i hm hi hmatch
  obtain ⟨hpc, hinst⟩ := hload m.pc _ hi
  rw [Serial.after_succ]
  exact hmatch.next hpc hinst (Machine.zero_of_after hm) (hfit j hj m i hm hi)

theorem opcode_ne_hcf (i : Inst) : opcode i.encode ≠ HCF := by
  rw [opcode_encode]
  cases i <;> simp only [Inst.opcode] <;> decide

/-- The instruction of the serial machine in a run. -/
theorem inst_after (hload : Loaded program p) (hdata : SameBytes data mem) (hfit : Machine.Throughout p mem k Fits)
    (h : Machine.after p mem k = some m) {i : Inst} (hi : p m.pc = some (.inst i)) :
    (Serial.after program data k).inst program = i.encode :=
  (matches_after hload hdata hfit h).inst (hload m.pc _ hi).2

/-- The serial machine's run has no such jump either. -/
theorem not_linkBehindAccess (hload : Loaded program p) (hdata : SameBytes data mem) (hfit : Machine.Throughout p mem k Fits)
    (hlink : Machine.Throughout p mem (k - 1) (NoLinkBehind p)) (h : Machine.after p mem k = some m) {j : Nat} (hj : j + 1 < k) :
    ¬ Serial.linkBehindAccess program data j := by
  rintro ⟨hacc, hwr, hen, hpc⟩
  obtain ⟨m1, i, hm1, hi⟩ := Machine.exists_after_of_lt h (Nat.lt_of_succ_lt hj)
  obtain ⟨m2, i', hm2, hi'⟩ := Machine.exists_after_of_lt h hj
  obtain ⟨m1', i1, hm1', hi1, rfl⟩ := Machine.after_succ_eq_some.mp hm2
  obtain rfl := Option.some.inj (hm1.symm.trans hm1')
  obtain rfl : i = i1 := by
    have := hi.symm.trans hi1
    simpa using this
  have hm3 : Machine.after p mem (j + 2) = some (i'.exec (i.exec m1)) :=
    Machine.after_succ_eq_some.mpr ⟨_, i', hm2, hi', rfl⟩
  have h2 := matches_after hload hdata (hfit.of_le (by omega : j + 1 ≤ k)) hm2
  have h3 := matches_after hload hdata (hfit.of_le (by omega : j + 2 ≤ k)) hm3
  rw [inst_after hload hdata (hfit.of_le (by omega : j ≤ k)) hm1 hi] at hacc
  rw [inst_after hload hdata (hfit.of_le (by omega : j + 1 ≤ k)) hm2 hi'] at hwr hen
  obtain ⟨hu, hrd⟩ := Bool.and_eq_true_iff.mp hwr
  have hop : i'.opcode = Rv32i.Opcode.JAL ∨ i'.opcode = Rv32i.Opcode.JALR := by
    rcases eEn_eq_true_iff.mp hen with ho | ho | ho
    · rw [useRd, ho] at hu
      exact absurd hu (by decide)
    · exact .inr ((opcode_encode i').symm.trans ho)
    · exact .inl ((opcode_encode i').symm.trans ho)
  have hrd' : rd i'.encode = i'.fields.rd := by
    refine i'.rd_encode ?_
    cases i' with
    | store | branch => exact absurd hop (by simp only [Inst.opcode]; decide)
    | _ => rfl
  refine Machine.allows_eq_true_iff.mp (hlink j (by omega) m1 i hm1 hi) i' hi' ⟨?_, hop, ?_, fun heq => hpc ?_⟩
  · unfold isAccess at hacc
    rw [opcode_encode, Bool.or_eq_true, beq_iff_eq, beq_iff_eq] at hacc
    exact hacc
  · rw [hrd'] at hrd
    simpa using hrd
  · rw [h3.pc, h2.pc, heq, BitVec.setWidth_add _ _ (by decide)]
    rfl

/-- The chip comes to the end, with what the serial machine has there. -/
theorem halts_of_throughout {memLatency : Nat} (hL : 3 ≤ memLatency) (hload : Loaded program p) (hdata : SameBytes data mem)
    (hrun : Machine.after p mem k = some m) (hend : p m.pc = some .halt) (hfit : Machine.Throughout p mem k Fits)
    (hlink : Machine.Throughout p mem (k - 1) (NoLinkBehind p)) :
    ∃ n ≤ pace memLatency * (k + 4) + 4, Arrives program data memLatency n ∧
      (Top.after program data memLatency n).dm.memory = (Serial.after program data k).memory ∧
      ∀ c, (Top.after program data memLatency (n + c)).cpu.regs = (Serial.after program data k).regs := by
  have hcf : opcode ((Serial.after program data k).inst program) = HCF := by
    unfold Serial.inst
    rw [(matches_after hload hdata hfit hrun).pc]
    exact (hload m.pc _ hend).2
  have hfirst : ∀ j < k, opcode ((Serial.after program data j).inst program) ≠ HCF := by
    intro j hj
    obtain ⟨m', i, hm, hi⟩ := Machine.exists_after_of_lt hrun hj
    rw [inst_after hload hdata (hfit.of_le hj.le) hm hi]
    exact opcode_ne_hcf i
  exact chip_halts hL hfirst hcf fun j hj => not_linkBehindAccess hload hdata hfit hlink hrun hj

/-- **The chip runs the program.** Let the program be in the instruction memory and come to its end after `k` instructions,
which the chip does as they are defined, with no linking jump erased behind an access. From latency 3 on the chip has
`HCF` in WB within the cycles of its pace, and the registers and the data memory are those of the machine of RV32I. -/
theorem chip_runs (p : Program Inst) (program data : Bytes) (mem : Store) (memLatency : Nat) (hL : 3 ≤ memLatency)
    (hload : Loaded program p) (hdata : SameBytes data mem) (k : Nat) (m : Machine)
    (hrun : Machine.after p mem k = some m) (hend : p m.pc = some .halt) (hfit : Machine.Throughout p mem k Fits)
    (hlink : Machine.Throughout p mem (k - 1) (NoLinkBehind p)) :
    ∃ n ≤ pace memLatency * (k + 4) + 4, Arrives program data memLatency n ∧
      SameBytes (Top.after program data memLatency n).dm.memory m.mem ∧
      ∀ c, (Top.after program data memLatency (n + c)).cpu.regs = m.regs := by
  have hmatch := matches_after hload hdata hfit hrun
  obtain ⟨n, hn, harr, hmem, hregs⟩ := halts_of_throughout hL hload hdata hrun hend hfit hlink
  exact ⟨n, hn, harr, hmem ▸ hmatch.memory, fun c => (hregs c).trans hmatch.regs⟩

end

/-- The instructions of `storeAndLoad`. -/
def storeAndLoadInsts : List Inst :=
  [.opImm .ADDI 1 0 5, .store .SW 0 1 0, .load .LW 2 0 0, .op .ADD 3 2 1]

theorem loaded_storeAndLoad : Loaded storeAndLoad (Program.ofList storeAndLoadInsts) :=
  loaded_ofList (by decide) (by decide +kernel) (by decide +kernel)

theorem chip_runs_storeAndLoad :
    ∃ m : Machine, m.regs 3 = 10 ∧ ∃ n ≤ pace 3 * (4 + 4) + 4, Arrives storeAndLoad (fun _ => 0) 3 n ∧
      SameBytes (Top.after storeAndLoad (fun _ => 0) 3 n).dm.memory m.mem ∧
      ∀ c, (Top.after storeAndLoad (fun _ => 0) 3 (n + c)).cpu.regs = m.regs :=
  ⟨_, by decide +kernel, chip_runs (Program.ofList storeAndLoadInsts) storeAndLoad (fun _ => 0) (fun _ => 0) 3
    (Nat.le_refl 3) loaded_storeAndLoad (fun _ => rfl) 4
    (((Machine.after (Program.ofList storeAndLoadInsts) (fun _ => 0) 4).getD (Machine.start fun _ => 0)))
    rfl (by decide +kernel) (by decide +kernel) (by decide +kernel)⟩

end SocModel.Chisel
