import SocModel.Chisel.Datapath
import SocModel.Lib.Machine

/-!
# The pipelined CPU

`PiplinedCPU.scala`: the five stage registers, the wires between them, and one clock cycle. What the data
memory answers in a cycle is an input. Beside the registers the state keeps three logs, of the instructions
that entered EXE, MEM and WB, and the log of the register file's writes.

* `State.stallFront`, `State.flush`, `State.issues` : the wires of a cycle, `State.cycle` : the registers after it;
* `step` : a cycle of a machine that `HCF` has not frozen.
-/

namespace SocModel.Chisel

open Lib

/-- An instruction and its address. -/
structure Entry where
  pc : Addr
  inst : Word
  deriving DecidableEq, Repr

structure RegEXE where
  pc : Addr := 0
  inst : Word := 0
  imm : Word := 0
  rs1 : Word := 0
  rs2 : Word := 0
  deriving DecidableEq, Repr

structure RegMEM where
  pc : Addr := 0
  inst : Word := 0
  aluOut : Word := 0
  dmWdata : Word := 0
  deriving DecidableEq, Repr

structure RegWB where
  pcPlus4 : Addr := 0
  inst : Word := 0
  aluOut : Word := 0
  ldData : Word := 0
  deriving DecidableEq, Repr

/-- A write into the register file. -/
structure RegWrite where
  inst : Word
  waddr : BitVec 5
  wdata : Word
  deriving DecidableEq, Repr

structure State where
  ifPc : Addr := 0
  id : Entry := ⟨0, 0⟩
  exe : RegEXE := {}
  mem : RegMEM := {}
  wb : RegWB := {}
  regs : BitVec 5 → Word := fun _ => 0
  /-- The instructions that entered EXE, MEM and WB, bubbles left out. -/
  exeLog : List Entry := []
  memLog : List Entry := []
  wbLog : List Entry := []
  writes : List RegWrite := []

/-- What the data memory drives in a cycle. -/
structure Input where
  dmValid : Bool
  dmRdata : Word
  deriving DecidableEq, Repr

/-- `InstMem`: the little-endian word at an address. -/
def instMem (memory : Addr → BitVec 8) (raddr : Addr) : Word :=
  memory (raddr + 3) ++ memory (raddr + 2) ++ memory (raddr + 1) ++ memory raddr

/-! ## The wires of a cycle -/

namespace State

variable (s : State)

def aluSrc1 : Word :=
  muxLookup (eASel s.exe.inst) s.exe.rs1 [(0, s.exe.rs1), (1, s.exe.pc.setWidth 32), (2, 0)]

def aluSrc2 : Word := muxLookup (eBSel s.exe.inst) s.exe.rs2 [(0, s.exe.rs2), (1, s.exe.imm)]

def exeAluOut : Word := alu (eALUSel s.exe.inst) s.aluSrc1 s.aluSrc2

def exeTargetPc : Addr := s.exeAluOut.extractLsb' 0 15

def branchTaken : Bool :=
  eBranchTaken s.exe.inst (brEq s.exe.rs1 s.exe.rs2) (brLT (eBrUn s.exe.inst) s.exe.rs1 s.exe.rs2)

/-- `Predict_Miss`, which is `Flush_BH`. -/
def flush : Bool := eEn s.exe.inst && s.branchTaken && s.id.pc != s.exeTargetPc

def hcf : Bool := opcode s.wb.inst == Opcode.HCF

/-- `Stall_EXE_ID_DH || Stall_MEM_ID_DH || Stall_WB_ID_DH`. -/
def stallDH : Bool :=
  overlap s.id.inst s.exe.inst || overlap s.id.inst s.mem.inst || overlap s.id.inst s.wb.inst

def stallMA (dmValid : Bool) : Bool :=
  !dmValid && (opcode s.mem.inst == Opcode.LOAD || opcode s.mem.inst == Opcode.STORE)

/-- `stage_IF.io.Stall` and `stage_ID.io.Stall`. -/
def stallFront (dmValid : Bool) : Bool := (s.hcf || s.stallDH || s.stallMA dmValid) && !s.flush

def wbWdata : Word :=
  match wWBSel s.wb.inst with
  | .pcPlus4 => s.wb.pcPlus4.setWidth 32
  | .aluOut => s.wb.aluOut
  | .ldData => s.wb.ldData

/-! ## The registers after a cycle -/

def nextIf (inp : Input) : Addr :=
  if s.stallFront inp.dmValid then s.ifPc else if s.flush then s.exeTargetPc else s.ifPc + 4

def nextId (memory : Addr → BitVec 8) (inp : Input) : Entry :=
  if s.flush then ⟨0, 0⟩
  else if s.stallFront inp.dmValid then s.id
  else ⟨s.ifPc, instMem memory s.ifPc⟩

/-- The instruction in ID with its operands. -/
def decoded : RegEXE where
  pc := s.id.pc
  inst := s.id.inst
  imm := immGen (dImmSel s.id.inst) s.id.inst
  rs1 := s.regs (rs1 s.id.inst)
  rs2 := s.regs (rs2 s.id.inst)

/-- Whether EXE takes the instruction in ID. -/
def issues (dmValid : Bool) : Bool := !s.flush && !s.stallMA dmValid && !(s.hcf || s.stallDH)

def nextExe (inp : Input) : RegEXE :=
  if s.flush then {}
  else if s.stallMA inp.dmValid then s.exe
  else if s.hcf || s.stallDH then {}
  else s.decoded

def nextMem (inp : Input) : RegMEM :=
  if s.hcf || s.stallMA inp.dmValid then s.mem
  else { pc := s.exe.pc, inst := s.exe.inst, aluOut := s.exeAluOut, dmWdata := s.exe.rs2 }

def nextWb (inp : Input) : RegWB :=
  if s.hcf then s.wb
  else if s.stallMA inp.dmValid then {}
  else { pcPlus4 := s.mem.pc + 4, inst := s.mem.inst, aluOut := s.mem.aluOut, ldData := inp.dmRdata }

/-- `RegFile`: the write of WB; the last connection keeps register 0 at zero. -/
def nextRegs : BitVec 5 → Word := fun r =>
  if r = 0 then 0 else if useRd s.wb.inst && r == rd s.wb.inst then s.wbWdata else s.regs r

end State

/-- What a stage register took, unless it took a bubble. -/
def took (took : Bool) (pc : Addr) (inst : Word) : List Entry := if took && inst != 0 then [⟨pc, inst⟩] else []

/-- One clock cycle. -/
def cycle (memory : Addr → BitVec 8) (s : State) (inp : Input) : State where
  ifPc := s.nextIf inp
  id := s.nextId memory inp
  exe := s.nextExe inp
  mem := s.nextMem inp
  wb := s.nextWb inp
  regs := s.nextRegs
  exeLog := s.exeLog ++ took (s.issues inp.dmValid) s.id.pc s.id.inst
  memLog := s.memLog ++ took (!(s.hcf || s.stallMA inp.dmValid)) s.exe.pc s.exe.inst
  wbLog := s.wbLog ++ took (!(s.hcf || s.stallMA inp.dmValid)) s.mem.pc s.mem.inst
  writes := s.writes ++ if useRd s.wb.inst then [⟨s.wb.inst, rd s.wb.inst, s.wbWdata⟩] else []

/-! ## What the front takes on -/

section

variable (memory : Addr → BitVec 8) {s : State} {inp : Input}

theorem front_of_flush (inp : Input) (hf : s.flush = true) :
    s.nextIf inp = s.exeTargetPc ∧ s.nextId memory inp = ⟨0, 0⟩ ∧ s.nextExe inp = {} := by
  simp [State.nextIf, State.nextId, State.nextExe, State.stallFront, hf]

/-- MEM waits: nothing moves in front of it. -/
theorem front_of_wait (hf : s.flush = false) (hma : s.stallMA inp.dmValid = true) :
    s.nextIf inp = s.ifPc ∧ s.nextId memory inp = s.id ∧ s.nextExe inp = s.exe := by
  simp [State.nextIf, State.nextId, State.nextExe, State.stallFront, hf, hma]

/-- The instruction in ID waits for a register: EXE takes a bubble. -/
theorem front_of_hazard (hf : s.flush = false) (hma : s.stallMA inp.dmValid = false) (hdh : s.stallDH = true) :
    s.nextIf inp = s.ifPc ∧ s.nextId memory inp = s.id ∧ s.nextExe inp = {} := by
  simp [State.nextIf, State.nextId, State.nextExe, State.stallFront, hf, hma, hdh]

theorem issues_iff {dmValid : Bool} : s.issues dmValid = true ↔
    (s.flush = false ∧ s.stallMA dmValid = false) ∧ s.hcf = false ∧ s.stallDH = false := by
  simp [State.issues]

/-- EXE takes what is in ID, and ID the next fetch. -/
theorem front_of_issues (hi : s.issues inp.dmValid = true) :
    s.nextIf inp = s.ifPc + 4 ∧ s.nextId memory inp = ⟨s.ifPc, instMem memory s.ifPc⟩ ∧ s.nextExe inp = s.decoded := by
  obtain ⟨⟨hf, hma⟩, hh, hdh⟩ := issues_iff.mp hi
  simp [State.nextIf, State.nextId, State.nextExe, State.stallFront, hf, hma, hh, hdh]

/-- When MEM moves on, EXE takes the instruction in ID or a bubble. -/
theorem took_nextExe (hma : s.stallMA inp.dmValid = false) :
    took true (s.nextExe inp).pc (s.nextExe inp).inst = took (s.issues inp.dmValid) s.id.pc s.id.inst := by
  rcases hi : s.issues inp.dmValid with _ | _
  · have hexe : s.nextExe inp = {} := by
      rcases hf : s.flush with _ | _
      · have hstall : (s.hcf || s.stallDH) = true := by
          rw [State.issues, hf, hma, Bool.not_false, Bool.true_and, Bool.true_and, Bool.not_eq_false'] at hi
          exact hi
        simp [State.nextExe, hf, hma, hstall]
      · exact (front_of_flush (fun _ => 0) inp hf).2.2
    rw [hexe]
    rfl
  · rw [(front_of_issues (fun _ => 0) hi).2.2]
    rfl

end

/-- The state after reset. -/
def reset : State := {}

/-- A cycle of a machine in which `HCF` has not reached WB. -/
def step (memory : Addr → BitVec 8) (s : State) (inp : Input) : Outcome Empty State :=
  if s.hcf then .blocked else .next (cycle memory s inp)

end SocModel.Chisel
