import SocModel.Lib.Recycling
import SocModel.Stage5.Cpu

/-!
# The pipeline stages of the 5-stage model

`PipelineUtils.hh` and the `step` functions of `IFStage.cc`, `IDStage.cc`, `EXEStage.cc` and `MEMStage.cc`. A stage reads
the packets behind it through pointers that it keeps itself, so what it reads is what the object holds now: `Heap`.
A step takes the packet at the stage's input and what `isStalled` reports of its output; it returns the stage and
whether the packet is popped and pushed on.

* `hazardCheck`, `isMemPacket`, `MemAccess.check` : what the stages decide with;
* `IFStage.step`, `IDStage.step`, `EXEStage.step`, `MEMStage.step` : the source's functions;
* `IFStage.pointers_step`, `IDStage.pointers_step`, `EXEStage.pointers_step` : the pointers a step leaves.
-/

namespace SocModel.Stage5

open Lib

/-- What the `InstPacket` objects hold; no function of the code reads a pointer's `serial`. -/
abbrev Heap := Nat → InstPacket

/-! ## Hazards -/

def getDestReg (i : Instr) : Int :=
  match i.op with
  | .ADD | .ADDI | .AND | .ANDI | .OR | .ORI | .XOR | .XORI | .SUB | .SLL | .SLLI | .SRL | .SRLI | .SRA | .SRAI
  | .SLT | .SLTI | .SLTU | .SLTIU | .LB | .LH | .LW | .LBU | .LHU | .LUI | .AUIPC | .JAL | .JALR => i.a1.reg
  | _ => 0

def isRs1Used (i : Instr) : Bool :=
  match i.op with
  | .ADD | .SUB | .AND | .OR | .XOR | .SLT | .SLTU | .SLL | .SRL | .SRA | .BEQ | .BNE | .BLT | .BGE | .BLTU | .BGEU
  | .SW | .SB | .SH | .ADDI | .ANDI | .ORI | .XORI | .SLTI | .SLTIU | .SLLI | .SRLI | .SRAI
  | .LW | .LH | .LHU | .LB | .LBU | .JALR => true
  | _ => false

def isRs2Used (i : Instr) : Bool :=
  match i.op with
  | .ADD | .SUB | .AND | .OR | .XOR | .SLT | .SLTU | .SLL | .SRL | .SRA | .BEQ | .BNE | .BLT | .BGE | .BLTU | .BGEU
  | .SW | .SB | .SH => true
  | _ => false

/-- The registers `checkRAW` compares, 0 where the instruction has none. -/
def sourceRegs (i : Instr) : Int × Int :=
  match i.op with
  | .ADD | .AND | .OR | .XOR | .SUB | .SLL | .SLT | .SLTU | .SRL | .SRA => (i.a2.reg, i.a3.reg)
  | .ADDI | .ANDI | .ORI | .XORI | .SLTI | .SLTIU | .SLLI | .SRLI | .SRAI
  | .LB | .LH | .LW | .LBU | .LHU | .JALR => (i.a2.reg, 0)
  | .SB | .SH | .SW => (i.a1.reg, i.a2.reg)
  | .BEQ | .BNE | .BLT | .BGE | .BLTU | .BGEU => (i.a1.reg, i.a2.reg)
  | _ => (0, 0)

def checkRAW (rd : Int) (i : Instr) : Bool :=
  if rd = 0 then false else (sourceRegs i).1 == rd || (sourceRegs i).2 == rd

/-- `hazard_check`; of the packets only the one in ID and those behind it matter. -/
def hazardCheck (_ifPacket idPacket exePacket memPacket wbPacket : Option InstPacket) : Bool × Bool × Bool :=
  let destReg (p : Option InstPacket) : Int := (p.map fun p => getDestReg p.inst).getD 0
  let dependsOn (i : Instr) (rd : Int) : Bool := (isRs1Used i && checkRAW rd i) || (isRs2Used i && checkRAW rd i)
  match idPacket with
  | none => (false, false, false)
  | some p =>
    if dependsOn p.inst (destReg exePacket) || dependsOn p.inst (destReg memPacket) || dependsOn p.inst (destReg wbPacket)
    then (true, true, true) else (false, false, false)

/-- `id_instr` reads the register that `i` writes: `depends_on_EXE` and its siblings. -/
def dependsOn (idInstr i : Instr) : Bool :=
  (isRs1Used idInstr && checkRAW (getDestReg i) idInstr) || (isRs2Used idInstr && checkRAW (getDestReg i) idInstr)

/-- `is_MemPacket`. -/
def isMemPacket (p : Option InstPacket) : Bool := p.any fun p => p.inst.op.isMem

/-- `memory_access_time`. -/
def memoryAccessTime : Nat := 1000

/-- `last_mem_access_pc`, whose first value -1 compares as an unsigned number, and `mem_access_count`. -/
structure MemAccess where
  lastMemAccessPc : Word := -1
  memAccessCount : Nat := 0

/-- The memory stall, which every stage decides for itself with its own counter. -/
def MemAccess.check (a : MemAccess) (p : Option InstPacket) : MemAccess × Bool :=
  match p with
  | none => (a, false)
  | some p =>
    if !isMemPacket (some p) then (a, false)
    else if a.lastMemAccessPc ≠ p.pc then (⟨p.pc, 1⟩, true)
    else if a.memAccessCount < memoryAccessTime then ({ a with memAccessCount := a.memAccessCount + 1 }, true)
    else (a, false)

/-! ## The stages -/

structure IFStage where
  access : MemAccess := {}
  idInstPacket : Option Ptr := none
  exeInstPacket : Option Ptr := none
  memInstPacket : Option Ptr := none
  wbInstPacket : Option Ptr := none

namespace IFStage

/-- `instPacketHandler`, after the push. -/
def instPacketHandler (f : IFStage) (p : Ptr) : IFStage :=
  { f with wbInstPacket := f.memInstPacket, memInstPacket := f.exeInstPacket, exeInstPacket := f.idInstPacket,
           idInstPacket := some p }

def step (heap : Heap) (p : Ptr) (isStalled : Bool) (f : IFStage) : IFStage × Bool :=
  let (ifHazard, idHazard, exeHazard) := hazardCheck (some (p.deref heap)) (f.idInstPacket.map (·.deref heap))
    (f.exeInstPacket.map (·.deref heap)) (f.memInstPacket.map (·.deref heap)) (f.wbInstPacket.map (·.deref heap))
  let hazard := ifHazard || idHazard || exeHazard
  let (access, stallMa) := f.access.check (f.memInstPacket.map (·.deref heap))
  let controlHazard := (f.exeInstPacket.map (·.deref heap)).any (·.isTakenBranch)
  let f := { f with access }
  if isStalled then (f, false)
  else if !hazard && !stallMa && !controlHazard then (f.instPacketHandler p, true)
  else if !stallMa then
    ({ f with wbInstPacket := f.memInstPacket, memInstPacket := f.exeInstPacket, exeInstPacket := none }, false)
  else (f, false)

/-- The pointers that are not null, the oldest first. -/
def pointers (f : IFStage) : List Ptr :=
  f.wbInstPacket.toList ++ f.memInstPacket.toList ++ f.exeInstPacket.toList ++ f.idInstPacket.toList

end IFStage

structure IDStage where
  access : MemAccess := {}
  exeInstPacket : Option Ptr := none
  memInstPacket : Option Ptr := none
  wbInstPacket : Option Ptr := none

namespace IDStage

def instPacketHandler (d : IDStage) (p : Ptr) : IDStage :=
  { d with wbInstPacket := d.memInstPacket, memInstPacket := d.exeInstPacket, exeInstPacket := some p }

def step (heap : Heap) (p : Ptr) (isStalled : Bool) (d : IDStage) : IDStage × Bool :=
  let (_, idHazard, exeHazard) := hazardCheck none (some (p.deref heap))
    (d.exeInstPacket.map (·.deref heap)) (d.memInstPacket.map (·.deref heap)) (d.wbInstPacket.map (·.deref heap))
  let hazard := idHazard || exeHazard
  let controlHazard := (d.exeInstPacket.map (·.deref heap)).any (·.isTakenBranch)
  let (access, stallMa) := d.access.check (d.memInstPacket.map (·.deref heap))
  let d := { d with access }
  if isStalled then (d, false)
  else if !hazard && !stallMa then (d.instPacketHandler p, true)
  else if !stallMa && (controlHazard || hazard) then
    ({ d with wbInstPacket := d.memInstPacket, memInstPacket := d.exeInstPacket, exeInstPacket := none }, false)
  else (d, false)

def pointers (d : IDStage) : List Ptr :=
  d.wbInstPacket.toList ++ d.memInstPacket.toList ++ d.exeInstPacket.toList

end IDStage

structure EXEStage where
  access : MemAccess := {}
  memInstPacket : Option Ptr := none
  wbInstPacket : Option Ptr := none

namespace EXEStage

def instPacketHandler (x : EXEStage) (p : Ptr) : EXEStage :=
  { x with wbInstPacket := x.memInstPacket, memInstPacket := some p }

def step (heap : Heap) (p : Ptr) (isStalled : Bool) (x : EXEStage) : EXEStage × Bool :=
  let (access, stallMa) := x.access.check (x.memInstPacket.map (·.deref heap))
  let x := { x with access }
  if isStalled then (x, false)
  else if !stallMa then (x.instPacketHandler p, true)
  else (x, false)

/-- The pointer that decides the memory stall; `wbInstPacket` is only printed. -/
def pointers (x : EXEStage) : List Ptr := x.memInstPacket.toList

end EXEStage

/-- The stage's `WBInstPacket` is only printed. -/
structure MEMStage where
  access : MemAccess := {}
  wbInstPacket : Option Ptr := none

namespace MEMStage

def instPacketHandler (m : MEMStage) (p : Ptr) : MEMStage := { m with wbInstPacket := some p }

/-- The memory stall is that of the packet at the input itself. -/
def step (heap : Heap) (p : Ptr) (isStalled : Bool) (m : MEMStage) : MEMStage × Bool :=
  let (access, stallMa) := m.access.check (some (p.deref heap))
  let m := { m with access }
  if isStalled then (m, false)
  else if !stallMa then (m.instPacketHandler p, true)
  else (m, false)

end MEMStage

/-! ## What the stages decide -/

/-- No hazard: the packet in ID depends on none of those in front of it. -/
theorem hazardCheck_of_independent {ifPacket exePacket memPacket wbPacket : Option InstPacket} {p : InstPacket}
    (he : ∀ q ∈ exePacket, dependsOn p.inst q.inst = false) (hm : ∀ q ∈ memPacket, dependsOn p.inst q.inst = false)
    (hw : ∀ q ∈ wbPacket, dependsOn p.inst q.inst = false) :
    hazardCheck ifPacket (some p) exePacket memPacket wbPacket = (false, false, false) := by
  have hno : ∀ o : Option InstPacket, (∀ q ∈ o, dependsOn p.inst q.inst = false) →
      (isRs1Used p.inst && checkRAW ((o.map fun q => getDestReg q.inst).getD 0) p.inst ||
        isRs2Used p.inst && checkRAW ((o.map fun q => getDestReg q.inst).getD 0) p.inst) = false := by
    rintro (_ | q) hq
    · simp [checkRAW]
    · exact hq q rfl
  unfold hazardCheck
  dsimp only
  refine if_neg ?_
  rw [hno _ he, hno _ hm, hno _ hw]
  decide

theorem MemAccess.check_of_not_mem {a : MemAccess} {o : Option InstPacket} (h : ∀ p ∈ o, p.inst.op.isMem = false) :
    a.check o = (a, false) := by
  rcases o with _ | p
  · rfl
  · unfold MemAccess.check isMemPacket
    simp [h p rfl]

/-! A stage with a free output and nothing in its way sends its packet on. -/

section

variable {heap : Heap} {p : Ptr}

theorem MEMStage.step_of_free {m : MEMStage} (hm : (p.deref heap).inst.op.isMem = false) :
    m.step heap p false = (m.instPacketHandler p, true) := by
  unfold step
  rw [MemAccess.check_of_not_mem (by simpa using hm)]
  rfl

theorem EXEStage.step_of_free {x : EXEStage} (hm : ∀ q ∈ x.memInstPacket, (q.deref heap).inst.op.isMem = false) :
    x.step heap p false = (x.instPacketHandler p, true) := by
  unfold step
  rw [MemAccess.check_of_not_mem (by simpa using hm)]
  rfl

theorem IDStage.step_of_free {d : IDStage}
    (he : ∀ q ∈ d.exeInstPacket, dependsOn (p.deref heap).inst (q.deref heap).inst = false)
    (hm : ∀ q ∈ d.memInstPacket, dependsOn (p.deref heap).inst (q.deref heap).inst = false)
    (hw : ∀ q ∈ d.wbInstPacket, dependsOn (p.deref heap).inst (q.deref heap).inst = false)
    (hmem : ∀ q ∈ d.memInstPacket, (q.deref heap).inst.op.isMem = false) :
    d.step heap p false = (d.instPacketHandler p, true) := by
  unfold step
  rw [hazardCheck_of_independent (by simpa using he) (by simpa using hm) (by simpa using hw),
    MemAccess.check_of_not_mem (by simpa using hmem)]
  rfl

theorem IFStage.step_of_free {f : IFStage}
    (he : ∀ i ∈ f.idInstPacket, ∀ q ∈ f.exeInstPacket, dependsOn (i.deref heap).inst (q.deref heap).inst = false)
    (hm : ∀ i ∈ f.idInstPacket, ∀ q ∈ f.memInstPacket, dependsOn (i.deref heap).inst (q.deref heap).inst = false)
    (hw : ∀ i ∈ f.idInstPacket, ∀ q ∈ f.wbInstPacket, dependsOn (i.deref heap).inst (q.deref heap).inst = false)
    (hmem : ∀ q ∈ f.memInstPacket, (q.deref heap).inst.op.isMem = false)
    (ht : ∀ q ∈ f.exeInstPacket, (q.deref heap).isTakenBranch = false) :
    f.step heap p false = (f.instPacketHandler p, true) := by
  have hhaz : hazardCheck (some (p.deref heap)) (f.idInstPacket.map (·.deref heap))
      (f.exeInstPacket.map (·.deref heap)) (f.memInstPacket.map (·.deref heap))
      (f.wbInstPacket.map (·.deref heap)) = (false, false, false) := by
    rcases hi : f.idInstPacket with _ | i
    · rfl
    · exact hazardCheck_of_independent (by simpa using he i hi) (by simpa using hm i hi) (by simpa using hw i hi)
  have htaken : (f.exeInstPacket.map (·.deref heap)).any (·.isTakenBranch) = false := by
    rcases hx : f.exeInstPacket with _ | q
    · rfl
    · exact ht q hx
  unfold step
  rw [hhaz, htaken, MemAccess.check_of_not_mem (by simpa using hmem)]
  rfl

end

/-! ## What a step leaves -/

section

variable {heap : Heap} {p : Ptr} {isStalled go : Bool}

theorem IFStage.pointers_instPacketHandler (f : IFStage) : (f.instPacketHandler p).pointers <:+ f.pointers ++ [p] := by
  refine ⟨f.wbInstPacket.toList, ?_⟩
  simp [pointers, instPacketHandler]

/-- The pointers are a window on the packets the stage has sent on: a step drops the oldest, and adds the packet it
sends on. -/
theorem IFStage.pointers_step {f f' : IFStage} (h : f.step heap p isStalled = (f', go)) :
    f'.pointers <:+ f.pointers ++ if go then [p] else [] := by
  unfold step at h
  dsimp only at h
  split at h
  · cases h
    simp [pointers]
  · split at h
    · cases h
      exact IFStage.pointers_instPacketHandler _
    · split at h
      · cases h
        exact ⟨f.wbInstPacket.toList, by simp [pointers]⟩
      · cases h
        simp [pointers]

theorem IDStage.pointers_instPacketHandler (d : IDStage) : (d.instPacketHandler p).pointers <:+ d.pointers ++ [p] := by
  refine ⟨d.wbInstPacket.toList, ?_⟩
  simp [pointers, instPacketHandler]

theorem IDStage.pointers_step {d d' : IDStage} (h : d.step heap p isStalled = (d', go)) :
    d'.pointers <:+ d.pointers ++ if go then [p] else [] := by
  unfold step at h
  dsimp only at h
  split at h
  · cases h
    simp [pointers]
  · split at h
    · cases h
      exact IDStage.pointers_instPacketHandler _
    · split at h
      · cases h
        exact ⟨d.wbInstPacket.toList, by simp [pointers]⟩
      · cases h
        simp [pointers]

theorem EXEStage.pointers_step {x x' : EXEStage} (h : x.step heap p isStalled = (x', go)) :
    x'.pointers <:+ x.pointers ++ if go then [p] else [] := by
  unfold step at h
  dsimp only at h
  split at h
  · cases h
    simp [pointers]
  · split at h
    · cases h
      exact ⟨x.memInstPacket.toList, by simp [pointers, instPacketHandler]⟩
    · cases h
      simp [pointers]

end

end SocModel.Stage5
