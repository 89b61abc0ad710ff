import SocModel.Isa.Exec
import SocModel.Lib.Machine
import SocModel.Mem.BaseMemory

/-!
# The functional CPU of the 5-stage model

`src/riscv/libs/CPU.cc`: it executes an instruction at once, loads and stores included, and sends an
`InstPacket` to the IF stage; a packet the port does not take waits in `pendingInstPacket` until
`retrySendInstPacket`. The actions say whether the port takes the packet.

* `processInstr`, `commitInstr`, `retrySendInstPacket` : the source's functions;
* `step`, `init` : the machine.
-/

namespace SocModel.Stage5

open Lib

/-- `InstPacket`, without the text of the instruction. -/
structure InstPacket where
  inst : Instr
  pc : Word
  isTakenBranch : Bool
  deriving DecidableEq, Repr

structure State where
  imem : Imem
  rf : Regfile
  pc : Word
  instCnt : Nat
  dmem : BaseMemory
  pendingInstPacket : Option InstPacket
  /-- The scheduled `ExecOneInstrEvent`s. -/
  events : Nat
  /-- The packets the IF stage's port took, in order. -/
  sent : List InstPacket

/-- What a push of the packet that returned `true` leads to. -/
def State.send (s : State) (p : InstPacket) : State :=
  { s with sent := s.sent ++ [p], events := if p.inst.op = .HCF then s.events else s.events + 1 }

def commitInstr (accepts : Bool) (p : InstPacket) (s : State) : State :=
  if accepts then s.send p else { s with pendingInstPacket := some p }

/-- The end of `processInstr`: the packet carries the `isTakenBranch` it is given after the push. -/
def finish (accepts : Bool) (i : Instr) (pcNext : Word) (s : State) : State :=
  { commitInstr accepts ⟨i, s.pc, pcNext != s.pc + 4⟩ s with pc := pcNext }

def memRead (i : Instr) (op : InstrType) (addr : Word) (s : State) : Except Fault State := do
  let data ← s.dmem.memRead op addr
  let rf ← s.rf.write i.a1 data
  return { s with rf }

def memWrite (op : InstrType) (addr data : Word) (s : State) : Except Fault State := do
  let dmem ← s.dmem.memWrite op addr data
  return { s with dmem }

def processInstr (accepts : Bool) (i : Instr) (s : State) : Except Fault State := do
  let e ← execBase i s.pc s.rf
  let s := { s with instCnt := s.instCnt + 1 }
  match e with
  | .commit rf pcNext => return finish accepts i pcNext { s with rf }
  | .load addr => do
    let s ← memRead i i.op addr s
    return finish accepts i (s.pc + 4) s
  | .store addr data => do
    let s ← memWrite i.op addr data s
    return finish accepts i (s.pc + 4) s
  -- the switch of this CPU has no SIMD operations
  | .cfu _ _ => .error .assertion

def fetchInstr (s : State) : Except Fault Instr := s.imem.fetch (s.pc.toNat / 4)

def execOneInstr (accepts : Bool) (s : State) : Except Fault State := do
  let i ← fetchInstr s
  processInstr accepts i s

def retrySendInstPacket (accepts : Bool) (s : State) : Except Fault State :=
  match s.pendingInstPacket with
  | none => .ok s
  | some p => if accepts then .ok { s.send p with pendingInstPacket := none } else .error .assertion

/-- What can happen next, and whether the port of the IF stage takes the packet. -/
inductive Act where
  | exec (accepts : Bool)
  | retry (accepts : Bool)
  deriving DecidableEq, Repr

def step (s : State) : Act → Outcome Fault State
  | .exec accepts =>
    if s.events = 0 then .blocked
    else .ofExcept (execOneInstr accepts { s with events := s.events - 1 })
  | .retry accepts => .ofExcept (retrySendInstPacket accepts s)

/-- The state at the start of a run of the program `imem` over the data memory `dmem`. -/
def init (imem : Imem) (dmem : BaseMemory) : State where
  imem := imem
  rf := fun _ => 0
  pc := 0
  instCnt := 0
  dmem := dmem
  pendingInstPacket := none
  events := 1
  sent := []

end SocModel.Stage5
