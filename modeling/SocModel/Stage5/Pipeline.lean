import Mathlib.Logic.Function.Basic
import SocModel.Stage5.Stages

/-!
# The 5-stage timing model

`SOCTop.hh`, `SOC.cc`, `WBStage.hh` and the `step` functions of the stages as one machine: the functional CPU sends an
`InstPacket` for every instruction over the port `sIF-m` to `soc-s`, the stages pass it on through the pipe registers,
and WBStage gives it back to the recycle container.

The environment chooses the order of the simulators' steps, the port's answer to a push (`accepts`), when a packet is at
the port's other end (`isPopValid`), what `isStalled` reports, and which free object the container hands out. A pipe
register takes every push that is made when no stall is reported, and shows it at its output after the next `sync`.

* `Pipeline.step`, `Pipeline.init` : the machine;
* `Pipeline.inFlight` : the packets between the CPU and WBStage, the oldest first;
* `Pipeline.line` : the line of recycled objects that the packets form, `step_cases` : what a step does to it.
-/

namespace SocModel.Stage5

open Lib

/-- A pipe register: the packets at its output, and the ones pushed since the last `sync`. -/
structure PipeRegister where
  shown : List Ptr := []
  pushed : List Ptr := []

namespace PipeRegister

def push (r : PipeRegister) (p : Ptr) : PipeRegister := { r with pushed := r.pushed ++ [p] }

def pop (r : PipeRegister) : PipeRegister := { r with shown := r.shown.tail }

def sync (r : PipeRegister) : PipeRegister := ⟨r.shown ++ r.pushed, []⟩

/-- The packets it holds, the oldest first. -/
def held (r : PipeRegister) : List Ptr := r.shown ++ r.pushed

@[simp] theorem held_push (r : PipeRegister) (p : Ptr) : (r.push p).held = r.held ++ [p] := by
  simp [push, held]

@[simp] theorem held_sync (r : PipeRegister) : r.sync.held = r.held := by
  simp [sync, held]

theorem held_eq_cons {r : PipeRegister} {p : Ptr} {ps : List Ptr} (h : r.shown = p :: ps) :
    r.held = p :: r.pop.held := by
  simp [pop, held, h]

end PipeRegister

structure Pipeline where
  cpu : State
  heap : Heap
  /-- The objects the recycle container has handed out and not got back. -/
  acquired : List Nat
  /-- The CPU's `pendingInstPacket`, as a pointer. -/
  pendingInstPacket : Option Ptr
  /-- From `sIF-m` to `soc-s`. -/
  port : List Ptr
  ifStage : IFStage
  prIF2ID : PipeRegister
  idStage : IDStage
  prID2EXE : PipeRegister
  exeStage : EXEStage
  prEXE2MEM : PipeRegister
  memStage : MEMStage
  prMEM2WB : PipeRegister
  /-- The pointers WBStage recycled, in order. -/
  recycled : List Ptr
  /-- What these packets held when they were recycled. -/
  retired : List InstPacket
  /-- What `processInstr` executed, in order: the instruction, its `pc`, and whether it jumped. -/
  executed : List InstPacket

inductive StageAct where
  | exec (accepts : Bool) (object : Nat)
  | retry (accepts : Bool)
  | stepIF (isPopValid isStalled : Bool)
  | stepID (isStalled : Bool)
  | stepEXE (isStalled : Bool)
  | stepMEM (isStalled : Bool)
  | stepWB
  | sync
  deriving DecidableEq, Repr

namespace Pipeline

/-- The packet of the instruction `i` that the CPU has executed, in the object acquired for it. `isTakenBranch` compares
the CPU's new `pc`. -/
def issue (s : Pipeline) (accepts : Bool) (object : Nat) (i : Instr) (cpu : State) : Pipeline :=
  let p : Ptr := ⟨object, s.executed.length⟩
  let packet : InstPacket := ⟨i, s.cpu.pc, cpu.pc != s.cpu.pc + 4⟩
  { s with
    cpu
    heap := Function.update s.heap object packet
    acquired := s.acquired ++ [object]
    executed := s.executed ++ [packet]
    port := if accepts then s.port ++ [p] else s.port
    pendingInstPacket := if accepts then s.pendingInstPacket else some p }

def execOneInstr (accepts : Bool) (object : Nat) (s : Pipeline) : Outcome Fault Pipeline :=
  if object ∈ s.acquired then .blocked
  else (Stage5.step s.cpu (.exec accepts)).bind fun cpu =>
    (Outcome.ofExcept (fetchInstr s.cpu)).bind fun i => .next (s.issue accepts object i cpu)

def retrySendInstPacket (accepts : Bool) (s : Pipeline) : Outcome Fault Pipeline :=
  (Stage5.step s.cpu (.retry accepts)).bind fun cpu =>
    .next { s with cpu, port := s.port ++ s.pendingInstPacket.toList, pendingInstPacket := none }

def stepIF (isStalled : Bool) (s : Pipeline) : Outcome Fault Pipeline :=
  match s.port with
  | [] => .blocked
  | p :: port =>
    match s.ifStage.step s.heap p isStalled with
    | (ifStage, true) => .next { s with ifStage, port, prIF2ID := s.prIF2ID.push p }
    | (ifStage, false) => .next { s with ifStage }

def stepID (isStalled : Bool) (s : Pipeline) : Pipeline :=
  match s.prIF2ID.shown with
  | [] => s
  | p :: _ =>
    match s.idStage.step s.heap p isStalled with
    | (idStage, true) => { s with idStage, prIF2ID := s.prIF2ID.pop, prID2EXE := s.prID2EXE.push p }
    | (idStage, false) => { s with idStage }

def stepEXE (isStalled : Bool) (s : Pipeline) : Pipeline :=
  match s.prID2EXE.shown with
  | [] => s
  | p :: _ =>
    match s.exeStage.step s.heap p isStalled with
    | (exeStage, true) => { s with exeStage, prID2EXE := s.prID2EXE.pop, prEXE2MEM := s.prEXE2MEM.push p }
    | (exeStage, false) => { s with exeStage }

def stepMEM (isStalled : Bool) (s : Pipeline) : Pipeline :=
  match s.prEXE2MEM.shown with
  | [] => s
  | p :: _ =>
    match s.memStage.step s.heap p isStalled with
    | (memStage, true) => { s with memStage, prEXE2MEM := s.prEXE2MEM.pop, prMEM2WB := s.prMEM2WB.push p }
    | (memStage, false) => { s with memStage }

def stepWB (s : Pipeline) : Pipeline :=
  match s.prMEM2WB.shown with
  | [] => s
  | p :: _ =>
    { s with
      prMEM2WB := s.prMEM2WB.pop
      acquired := s.acquired.erase p.object
      recycled := s.recycled ++ [p]
      retired := s.retired ++ [p.deref s.heap] }

/-- `runSyncPipeRegister`. -/
def sync (s : Pipeline) : Pipeline :=
  { s with prIF2ID := s.prIF2ID.sync, prID2EXE := s.prID2EXE.sync, prEXE2MEM := s.prEXE2MEM.sync,
           prMEM2WB := s.prMEM2WB.sync }

def step (s : Pipeline) : StageAct → Outcome Fault Pipeline
  | .exec accepts object => s.execOneInstr accepts object
  | .retry accepts => s.retrySendInstPacket accepts
  | .stepIF isPopValid isStalled => if isPopValid then s.stepIF isStalled else .next s
  | .stepID isStalled => .next (s.stepID isStalled)
  | .stepEXE isStalled => .next (s.stepEXE isStalled)
  | .stepMEM isStalled => .next (s.stepMEM isStalled)
  | .stepWB => .next s.stepWB
  | .sync => .next s.sync

theorem exec_eq_next {s t : Pipeline} {accepts : Bool} {object : Nat} (h : s.step (.exec accepts object) = .next t) :
    ∃ i cpu, object ∉ s.acquired ∧ Stage5.step s.cpu (.exec accepts) = .next cpu ∧ fetchInstr s.cpu = .ok i ∧
      t = s.issue accepts object i cpu := by
  simp only [step, execOneInstr] at h
  split at h
  · cases h
  · next ho =>
    obtain ⟨cpu, hcpu, h⟩ := Outcome.bind_eq_next.mp h
    obtain ⟨i, hi, h⟩ := Outcome.bind_eq_next.mp h
    exact ⟨i, cpu, ho, hcpu, Outcome.ofExcept_eq_next.mp hi, (Outcome.next.inj h).symm⟩

theorem retry_eq_next {s t : Pipeline} {accepts : Bool} (h : s.step (.retry accepts) = .next t) :
    ∃ cpu, Stage5.step s.cpu (.retry accepts) = .next cpu ∧
      t = { s with cpu, port := s.port ++ s.pendingInstPacket.toList, pendingInstPacket := none } := by
  obtain ⟨cpu, hcpu, h⟩ := Outcome.bind_eq_next.mp h
  exact ⟨cpu, hcpu, (Outcome.next.inj h).symm⟩

theorem stepIF_eq_next {s t : Pipeline} {isPopValid isStalled : Bool}
    (h : s.step (.stepIF isPopValid isStalled) = .next t) : s.stepIF isStalled = .next t ∨ t = s := by
  cases isPopValid with
  | false => exact .inr (Outcome.next.inj h).symm
  | true => exact .inl h

/-- The state at the start of a run of the program `imem` over the data memory `dmem`. -/
def init (imem : Imem) (dmem : BaseMemory) : Pipeline where
  cpu := Stage5.init imem dmem
  heap := fun _ => ⟨{}, 0, false⟩
  acquired := []
  pendingInstPacket := none
  port := []
  ifStage := {}
  prIF2ID := {}
  idStage := {}
  prID2EXE := {}
  exeStage := {}
  prEXE2MEM := {}
  memStage := {}
  prMEM2WB := {}
  recycled := []
  retired := []
  executed := []

/-! ## The packets in the pipeline -/

/-- The packets past EXE, the oldest first. -/
def pastEXE (s : Pipeline) : List Ptr := s.prMEM2WB.held ++ s.prEXE2MEM.held

def pastID (s : Pipeline) : List Ptr := s.pastEXE ++ s.prID2EXE.held

def pastIF (s : Pipeline) : List Ptr := s.pastID ++ s.prIF2ID.held

/-- The packets between the CPU and WBStage, the oldest first. -/
def inFlight (s : Pipeline) : List Ptr := s.pastIF ++ s.port ++ s.pendingInstPacket.toList

/-- The line of recycled objects the packets form. -/
def line (s : Pipeline) : Line InstPacket :=
  ⟨s.heap, s.acquired, s.inFlight, s.recycled, s.retired, s.executed⟩

end Pipeline

/-- A step that moves packets along, if any: it neither makes nor ends one, and leaves the CPU alone. -/
structure Moves (s t : Pipeline) : Prop where
  line : t.line = s.line
  cpu : t.cpu = s.cpu
  pending : t.pendingInstPacket = s.pendingInstPacket

theorem Moves.refl (s : Pipeline) : Moves s s := ⟨rfl, rfl, rfl⟩

section

variable {s t : Pipeline} {isStalled : Bool}

/-- Equal packets in flight, and nothing else touched. -/
theorem Moves.of_inFlight (h : t.inFlight = s.inFlight)
    (hs : (t.cpu, t.heap, t.acquired, t.pendingInstPacket, t.recycled, t.retired, t.executed) =
      (s.cpu, s.heap, s.acquired, s.pendingInstPacket, s.recycled, s.retired, s.executed)) : Moves s t := by
  simp only [Prod.mk.injEq] at hs
  obtain ⟨h1, h2, h3, h4, h5, h6, h7⟩ := hs
  refine ⟨?_, h1, h4⟩
  unfold Pipeline.line
  rw [h, h2, h3, h5, h6, h7]

theorem moves_stepIF (h : s.stepIF isStalled = .next t) : Moves s t := by
  unfold Pipeline.stepIF at h
  split at h
  · cases h
  · next p port hp =>
    split at h <;> cases h
    · refine .of_inFlight ?_ rfl
      simp [Pipeline.inFlight, Pipeline.pastIF, Pipeline.pastID, Pipeline.pastEXE, hp]
    · exact .of_inFlight rfl rfl

theorem moves_stepID : Moves s (s.stepID isStalled) := by
  unfold Pipeline.stepID
  split
  · exact .refl s
  · next p ps hp =>
    split
    · refine .of_inFlight ?_ rfl
      simp [Pipeline.inFlight, Pipeline.pastIF, Pipeline.pastID, Pipeline.pastEXE, PipeRegister.held_eq_cons hp]
    · exact .of_inFlight rfl rfl

theorem moves_stepEXE : Moves s (s.stepEXE isStalled) := by
  unfold Pipeline.stepEXE
  split
  · exact .refl s
  · next p ps hp =>
    split
    · refine .of_inFlight ?_ rfl
      simp [Pipeline.inFlight, Pipeline.pastIF, Pipeline.pastID, Pipeline.pastEXE, PipeRegister.held_eq_cons hp]
    · exact .of_inFlight rfl rfl

theorem moves_stepMEM : Moves s (s.stepMEM isStalled) := by
  unfold Pipeline.stepMEM
  split
  · exact .refl s
  · next p ps hp =>
    split
    · refine .of_inFlight ?_ rfl
      simp [Pipeline.inFlight, Pipeline.pastIF, Pipeline.pastID, Pipeline.pastEXE, PipeRegister.held_eq_cons hp]
    · exact .of_inFlight rfl rfl

theorem moves_sync : Moves s s.sync := by
  refine .of_inFlight ?_ rfl
  simp [Pipeline.inFlight, Pipeline.pastIF, Pipeline.pastID, Pipeline.pastEXE, Pipeline.sync]

end

end SocModel.Stage5
