import SocModel.Chisel.DataMem
import SocModel.Chisel.Path

/-!
# The chip without its pipeline

The instructions of the chip, each one done before the next is fetched, by the same ALU, comparator, immediate
generator and data memory: what the pipelined chip is compared with.

* `Serial.next` : one instruction, `Serial.after` : the state after a number of them;
* `RegEXE.Agrees`, `RegMEM.Agrees` : stage registers that differ in what their instruction does not use;
* `RegEXE.Agrees.succPc`, `RegEXE.Agrees.toMem`, `RegMEM.Agrees.store`, `RegMEM.Agrees.writeBack` : what they lead to
  is the same.
-/

namespace SocModel.Chisel

open Opcode

/-! ## The machine -/

/-- The next instruction's address, the registers and the data memory. -/
structure Serial where
  pc : Addr
  regs : BitVec 5 → Word
  memory : Bytes

/-- The wires of EXE. -/
def RegEXE.wires (e : RegEXE) : State := { exe := e }

namespace RegMEM

def length (x : RegMEM) : BitVec 4 := 0#1 ++ funct3 x.inst

def addr (x : RegMEM) : Addr := x.aluOut.extractLsb' 0 15

/-- What a load returns. -/
def load (x : RegMEM) (memory : Bytes) : Word := readData memory x.length x.addr

/-- The data memory behind the instruction. -/
def store (x : RegMEM) (memory : Bytes) : Bytes :=
  if opcode x.inst = STORE then storeBytes memory x.length x.addr x.dmWdata else memory

end RegMEM

namespace Serial

variable (program : Bytes) (m : Serial)

def inst : Word := instMem program m.pc

/-- The instruction with its operands. -/
def operands : RegEXE where
  pc := m.pc
  inst := m.inst program
  imm := immGen (dImmSel (m.inst program)) (m.inst program)
  rs1 := m.regs (rs1 (m.inst program))
  rs2 := m.regs (rs2 (m.inst program))

/-- The instruction with its result. -/
def result : RegMEM := (m.operands program).wires.toMem

def next : Serial where
  pc := (m.operands program).wires.succPc
  regs := writeBack ((m.result program).toWb ((m.result program).load m.memory)) m.regs
  memory := (m.result program).store m.memory

def start (data : Bytes) : Serial := ⟨0, fun _ => 0, data⟩

/-- The state after `k` instructions. -/
def after (data : Bytes) (k : Nat) : Serial := (next program)^[k] (start data)

theorem after_succ (data : Bytes) (k : Nat) : after program data (k + 1) = (after program data k).next program :=
  Function.iterate_succ_apply' _ _ _

theorem regs_zero (data : Bytes) (k : Nat) : (after program data k).regs 0 = 0 := by
  cases k with
  | zero => rfl
  | succ k =>
    rw [after_succ]
    rfl

end Serial

/-! ## What an instruction uses -/

/-- The same instruction with the same operands, as far as it reads them. -/
structure RegEXE.Agrees (e f : RegEXE) : Prop where
  pc : e.pc = f.pc
  inst : e.inst = f.inst
  imm : e.imm = f.imm
  rs1 : readsRs1 f.inst → e.rs1 = f.rs1
  rs2 : readsRs2 f.inst → e.rs2 = f.rs2

/-- The ALU's output is a value to write, an address or a target. -/
def usesAlu (i : Word) : Prop := opcode i ∈ [LOAD, STORE, BRANCH, JALR, JAL, OP_IMM, OP, AUIPC, LUI]

/-- The same instruction with the same result, as far as something comes of it. -/
structure RegMEM.Agrees (x y : RegMEM) : Prop where
  pc : x.pc = y.pc
  inst : x.inst = y.inst
  aluOut : usesAlu y.inst → x.aluOut = y.aluOut
  dmWdata : opcode y.inst = STORE → x.dmWdata = y.dmWdata

theorem usesAlu_of_useRd {i : Word} (h : useRd i = true) : usesAlu i := by
  unfold useRd at h
  unfold usesAlu
  by_contra hn
  simp only [List.mem_cons, List.not_mem_nil, or_false, not_or] at hn
  simp [muxLookup, hn] at h

section Agrees

variable {e f : RegEXE} (h : e.Agrees f)

include h

theorem RegEXE.Agrees.exeAluOut (hu : usesAlu f.inst) : e.wires.exeAluOut = f.wires.exeAluOut := by
  obtain ⟨hpc, hinst, himm, h1, h2⟩ := h
  unfold usesAlu at hu
  unfold readsRs1 at h1
  unfold readsRs2 at h2
  simp only [State.exeAluOut, State.aluSrc1, State.aluSrc2, RegEXE.wires, hpc, hinst, himm]
  congr 1
  · unfold eASel
    simp only [List.mem_cons, List.not_mem_nil, or_false] at hu h1
    rcases hu with hu | hu | hu | hu | hu | hu | hu | hu | hu <;> simp only [hu, true_or, or_true, forall_const] at h1 ⊢
    all_goals first
      | rfl
      | rw [h1]
  · unfold eBSel
    simp only [List.mem_cons, List.not_mem_nil, or_false] at hu h2
    rcases hu with hu | hu | hu | hu | hu | hu | hu | hu | hu <;> simp only [hu, true_or, or_true, forall_const] at h2 ⊢
    all_goals first
      | rfl
      | rw [h2]

theorem RegEXE.Agrees.branchTaken (hb : opcode f.inst = BRANCH) : e.wires.branchTaken = f.wires.branchTaken := by
  have h1 : e.rs1 = f.rs1 := h.rs1 (by simp [readsRs1, hb])
  have h2 : e.rs2 = f.rs2 := h.rs2 (by simp [readsRs2, hb])
  simp only [State.branchTaken, RegEXE.wires, h.inst, h1, h2]

theorem RegEXE.Agrees.succPc : e.wires.succPc = f.wires.succPc := by
  have hinst : e.wires.exe.inst = f.wires.exe.inst := h.inst
  have hpc : e.wires.exe.pc = f.wires.exe.pc := h.pc
  unfold State.succPc
  rw [hinst, hpc]
  have hout (hu : usesAlu f.inst) : e.wires.exeTargetPc = f.wires.exeTargetPc := by
    unfold State.exeTargetPc
    rw [h.exeAluOut hu]
  by_cases hb : opcode f.wires.exe.inst = BRANCH
  · rw [h.branchTaken hb, hout (by simp [usesAlu, show opcode f.inst = BRANCH from hb])]
  · by_cases hj : opcode f.wires.exe.inst = JAL ∨ opcode f.wires.exe.inst = JALR
    · rw [hout (by rcases hj with hj | hj <;> simp [usesAlu, show opcode f.inst = _ from hj])]
      rcases hj with hj | hj <;> simp [hj]
    · obtain ⟨hj, hr⟩ := not_or.mp hj
      rw [if_neg (by simp [hb, hj, hr]), if_neg (by simp [hb, hj, hr])]

theorem RegEXE.Agrees.toMem : e.wires.toMem.Agrees f.wires.toMem where
  pc := h.pc
  inst := h.inst
  aluOut := h.exeAluOut
  dmWdata hs := h.rs2 (by simp [readsRs2, show opcode f.inst = STORE from hs])

end Agrees

section Agrees

variable {x y : RegMEM} (h : x.Agrees y)

include h

theorem RegMEM.Agrees.addr (hu : usesAlu y.inst) : x.addr = y.addr ∧ x.length = y.length := by
  unfold RegMEM.addr RegMEM.length
  rw [h.aluOut hu, h.inst]
  exact ⟨rfl, rfl⟩

theorem RegMEM.Agrees.store (memory : Bytes) : x.store memory = y.store memory := by
  unfold RegMEM.store
  rw [h.inst]
  by_cases hs : opcode y.inst = STORE
  · obtain ⟨ha, hl⟩ := h.addr (by simp [usesAlu, hs])
    rw [if_pos hs, if_pos hs, ha, hl, h.dmWdata hs]
  · rw [if_neg hs, if_neg hs]

theorem RegMEM.Agrees.load (hl : opcode y.inst = LOAD) (memory : Bytes) : x.load memory = y.load memory := by
  obtain ⟨ha, hlen⟩ := h.addr (by simp [usesAlu, hl])
  unfold RegMEM.load
  rw [ha, hlen]

/-- WB writes the same, whatever the data memory drives for an instruction that is no load. -/
theorem RegMEM.Agrees.writeBack {v w : Word} (hv : opcode y.inst = LOAD → v = w) (regs : BitVec 5 → Word) :
    Chisel.writeBack (x.toWb v) regs = Chisel.writeBack (y.toWb w) regs := by
  by_cases hu : useRd y.inst = true
  · have hld : wWBSel y.inst = .ldData → v = w := by
      intro hsel
      apply hv
      by_contra hne
      simp only [wWBSel, muxLookup, if_neg hne] at hsel
      split_ifs at hsel
    funext r
    unfold Chisel.writeBack
    simp only [RegMEM.toWb, h.inst, h.pc, h.aluOut (usesAlu_of_useRd hu)]
    rcases hsel : wWBSel y.inst with _ | _ | _
    · rfl
    · rfl
    · obtain rfl := hld hsel
      rfl
  · funext r
    unfold Chisel.writeBack
    simp only [RegMEM.toWb, h.inst, hu, Bool.false_and, Bool.false_eq_true, if_false]

end Agrees

/-! ## Instructions without an effect on the data -/

/-- The registers and the data memory are the same. -/
structure Serial.SameData (m n : Serial) : Prop where
  regs : m.regs = n.regs
  memory : m.memory = n.memory

/-- The address behind `k` instructions, as the path of the pipeline has it. -/
def Serial.visit (program data : Bytes) (k : Nat) : Visit where
  pc := (after program data k).pc
  inst := (after program data k).inst program
  next := (after program data (k + 1)).pc

/-- The instruction writes no register but `x0`, and is no store. -/
theorem Serial.sameData_next {program : Bytes} {m : Serial} (h0 : m.regs 0 = 0)
    (hr : useRd (m.inst program) = false ∨ rd (m.inst program) = 0) (hs : opcode (m.inst program) ≠ STORE) :
    (m.next program).SameData m where
  regs := by
    rcases hr with hr | hr
    · exact writeBack_of_not_useRd hr h0
    · funext r
      rcases eq_or_ne r 0 with rfl | hne
      · exact h0.symm
      · refine writeBack_of_ne _ hne ?_
        rintro ⟨-, he⟩
        exact hne (he.trans hr)
  memory := if_neg hs

end SocModel.Chisel
