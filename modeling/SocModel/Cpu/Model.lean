import Mathlib.Data.List.Basic
import SocModel.Bus.Packet
import SocModel.Isa.Exec
import SocModel.Lib.Machine
import SocModel.Lib.Outbox

/-!
# The bus-based CPU

`soc/libs/CPU.cc`. A `State` holds the fields of the class, what the simulator and the bus hold for it (the
scheduled `ExecOneInstrEvent`s, the requests that have not been answered), and a record of what happened:
the instructions executed with the request each built, the packets handed to the bus, the instructions
committed and the values of `pc`.

The environment decides, in the action, what the pipe register answers, when `masterPortRetry` is called,
which outstanding request is answered next and with which data.

* `processInstr`, `commitInstr`, `masterPortRetry`, the response handlers : the source's functions;
* `step` : the actions, `init` : the state after `CPU::init`.
-/

namespace SocModel.Cpu

open Lib Bus

/-- One call of `processInstr`: where, what, and the request packet it built. -/
structure Exec where
  pc : Word
  instr : Instr
  request : Option Packet
  deriving DecidableEq, Repr

/-- `CFUReqPacket`. -/
structure CfuReq where
  instr : Instr
  rs1 : Word
  rs2 : Word
  deriving DecidableEq, Repr

structure State where
  imem : Imem
  rf : Regfile
  pc : Word
  instCnt : Nat
  requestQueue : List Packet
  /-- The scheduled `ExecOneInstrEvent`s. -/
  events : Nat
  /-- The global transaction id counter. -/
  nextTid : Nat
  /-- The requests the bus and the custom function unit have not answered. -/
  loads : List (Burst ReadReq)
  stores : List (Burst WriteReq)
  cfus : List CfuReq
  execs : List Exec
  /-- The packets pushed into the register, in order. -/
  handed : List Packet
  commits : List Instr
  /-- The values of `pc`, the first one and one for each assignment. -/
  pcs : List Word

namespace State

/-- A push into the register that returned `true`. -/
def handOver (s : State) : Packet → State
  | .readReq p => { s with handed := s.handed ++ [.readReq p], loads := s.loads ++ [p] }
  | .writeReq p => { s with handed := s.handed ++ [.writeReq p], stores := s.stores ++ [p] }
  | p => { s with handed := s.handed ++ [p] }

/-- `if (!is_stalled && push(Pkt)) … else request_queue.push(Pkt)`. -/
def send (port : Port) (p : Packet) (s : State) : State :=
  if port.transfers then s.handOver p else { s with requestQueue := s.requestQueue ++ [p] }

def setPc (s : State) (pc : Word) : State := { s with pc, pcs := s.pcs ++ [pc] }

def logExec (s : State) (i : Instr) (request : Option Packet) : State :=
  { s with execs := s.execs ++ [⟨s.pc, i, request⟩] }

end State

/-! ## The functions of `CPU.cc` -/

def commitInstr (i : Instr) (s : State) : State :=
  { s with
    commits := s.commits ++ [i]
    events := if i.op = .HCF then s.events else s.events + 1 }

/-- `BusMemRead`; it always returns `false`. -/
def busMemRead (port : Port) (i : Instr) (op : InstrType) (addr : Word) (a1 : Operand) (s : State) :
    State :=
  let pkt := Packet.readReq (constructMemReadpktNonBurst i op addr a1 .cpu s.nextTid)
  ({ s with nextTid := s.nextTid + 1 }.logExec i (some pkt)).send port pkt

/-- `BusmemWrite`; it returns whether the register took the packet. -/
def busMemWrite (port : Port) (i : Instr) (op : InstrType) (addr data : Word) (s : State) :
    State × Bool :=
  let pkt := Packet.writeReq (constructMemWritepktNonBurst i op addr data .cpu s.nextTid)
  (({ s with nextTid := s.nextTid + 1 }.logExec i (some pkt)).send port pkt, port.transfers)

def cfuReq (i : Instr) (rs1 rs2 : Word) (s : State) : State :=
  { s.logExec i none with cfus := s.cfus ++ [⟨i, rs1, rs2⟩] }

/-- The switch of `processInstr`: the shared cases, `MUL` and the SIMD operations. -/
def execute (i : Instr) (pc : Word) (rf : Regfile) : Except Fault Effect :=
  if i.op.isCfu then do
    let x ← rf.read i.a2
    let y ← rf.read i.a3
    return .cfu x y
  else if i.op = .MUL then Effect.opRR (fun x y => .ok (x * y)) i pc rf
  else execBase i pc rf

/-- How `processInstr` goes on after its switch. -/
def complete (port : Port) (i : Instr) (s : State) : Effect → State
  | .commit rf pcNext => (commitInstr i ({ s with rf }.logExec i none)).setPc pcNext
  | .load addr => busMemRead port i i.op addr i.a1 s
  | .store addr data =>
    let r := busMemWrite port i i.op addr data s
    if r.2 then (commitInstr i r.1).setPc (s.pc + 4) else r.1
  | .cfu rs1 rs2 => cfuReq i rs1 rs2 s

def processInstr (port : Port) (i : Instr) (s : State) : Except Fault State := do
  let e ← execute i s.pc s.rf
  return complete port i { s with instCnt := s.instCnt + 1 } e

/-- `imem[pc / 4]`. -/
def fetchInstr (s : State) : Except Fault Instr := s.imem.fetch (s.pc.toNat / 4)

def execOneInstr (port : Port) (s : State) : Except Fault State := do
  let i ← fetchInstr s
  processInstr port i s

/-- The load path pops the queue after the push, the store path does not. -/
def masterPortRetry (port : Port) (s : State) : Except Fault State :=
  if port.stalled then .ok s
  else
    match s.requestQueue with
    | [] => .error .emptyQueue
    | .readReq p :: q =>
      .ok (if port.accepts then { s.handOver (.readReq p) with requestQueue := q } else s)
    | .writeReq p :: _ =>
      match p.payloads with
      | [] => .error .arrayIndex
      | realReq :: _ =>
        .ok (if port.accepts then commitInstr realReq.instr ((s.handOver (.writeReq p)).setPc (s.pc + 4))
          else s)
    | _ => .error .assertion

def memReadRespHandler (p : ReadResp) (s : State) : Except Fault State := do
  let rf ← s.rf.write p.a1 p.data
  return (commitInstr p.instr { s with rf }).setPc (s.pc + 4)

def memReadXBarRespHandler (p : Burst ReadResp) (s : State) : Except Fault State :=
  p.payloads.foldlM (fun s q => memReadRespHandler q s) s

def cfuRespHandler (i : Instr) (rd : Word) (s : State) : Except Fault State := do
  let rf ← s.rf.write i.a1 rd
  return (commitInstr i { s with rf }).setPc (s.pc + 4)

/-! ## Runs -/

/-- The response a slave builds for a read request when the beats read `data`. -/
def respondTo (p : Burst ReadReq) (data : ReadReq → Word) : Burst ReadResp :=
  constructMemReadRespPkt
    (p.payloads.map fun q => { tid := q.tid, instr := q.instr, op := q.op, data := data q, a1 := q.a1 })
    .dm .cpu p.tid

/-- What can happen next. `k` is the position of the outstanding request that is answered. -/
inductive Act where
  | exec (port : Port)
  | retry (port : Port)
  | readResp (k : Nat) (data : ReadReq → Word)
  | writeResp (k : Nat)
  | cfuResp (k : Nat) (rd : Word)

def step (s : State) : Act → Outcome Fault State
  | .exec port =>
    if s.events = 0 then .blocked else .ofExcept (execOneInstr port { s with events := s.events - 1 })
  | .retry port => .ofExcept (masterPortRetry port s)
  | .readResp k data =>
    match s.loads[k]? with
    | none => .blocked
    | some p =>
      .ofExcept (memReadXBarRespHandler (respondTo p data) { s with loads := s.loads.eraseIdx k })
  | .writeResp k =>
    match s.stores[k]? with
    | none => .blocked
    | some _ => .next { s with stores := s.stores.eraseIdx k }
  | .cfuResp k rd =>
    match s.cfus[k]? with
    | none => .blocked
    | some r => .ofExcept (cfuRespHandler r.instr rd { s with cfus := s.cfus.eraseIdx k })

/-- The state after `CPU::init` with the program `imem`. -/
def init (imem : Imem) : State where
  imem := imem
  rf := fun _ => 0
  pc := 0
  instCnt := 0
  requestQueue := []
  events := 1
  nextTid := 0
  loads := []
  stores := []
  cfus := []
  execs := []
  handed := []
  commits := []
  pcs := [0]

/-! ## What `execute` can come to -/

theorem execute_shape {i : Instr} {pc : Word} {rf : Regfile} {e : Effect}
    (h : execute i pc rf = .ok e) : e.Shape i rf := by
  unfold execute at h
  by_cases hc : i.op.isCfu = true
  · simp only [hc, if_true, Except.bind_eq_ok] at h
    obtain ⟨x, -, y, -, h⟩ := h
    exact Except.ok.inj h ▸ .cfu hc x y
  · by_cases hm : i.op = .MUL
    · rw [if_neg hc, if_pos hm] at h
      exact Effect.shape_opRR (by rw [hm]; rfl) h
    · rw [if_neg hc, if_neg hm] at h
      exact execBase_shape (by simpa using hc) hm h

theorem execute_within {P : Fault → Prop} {i : Instr} (h : i.Within P) (pc : Word) (rf : Regfile) :
    Faults P (execute i pc rf) := by
  unfold execute
  split
  · exact (rf.read_within h.a2).bind fun _ => (rf.read_within h.a3).bind fun _ => .ok _
  · split
    · exact Effect.opRR_faults h _ _ fun _ _ => .ok _
    · exact execBase_within h pc rf

theorem execute_faults (i : Instr) (pc : Word) (rf : Regfile) : Faults Fault.OfInstr (execute i pc rf) :=
  execute_within i.within_ofInstr pc rf

/-! ## What a step can do -/

section

variable {s t : State} {port : Port} {k : Nat} {data : ReadReq → Word} {rd : Word}

theorem step_exec (h : step s (.exec port) = .next t) :
    s.events ≠ 0 ∧ execOneInstr port { s with events := s.events - 1 } = .ok t := by
  simp only [step] at h
  split at h
  · cases h
  · next hev => exact ⟨hev, Outcome.ofExcept_eq_next.mp h⟩

theorem execOneInstr_eq_ok (h : execOneInstr port s = .ok t) :
    ∃ i e, fetchInstr s = .ok i ∧ execute i s.pc s.rf = .ok e ∧
      t = complete port i { s with instCnt := s.instCnt + 1 } e := by
  obtain ⟨i, hi, h⟩ := Except.bind_eq_ok.mp h
  obtain ⟨e, he, h⟩ := Except.bind_eq_ok.mp h
  exact ⟨i, e, hi, he, (Except.ok.inj h).symm⟩

theorem step_readResp (h : step s (.readResp k data) = .next t) : ∃ p, s.loads[k]? = some p ∧
    memReadXBarRespHandler (respondTo p data) { s with loads := s.loads.eraseIdx k } = .ok t := by
  simp only [step] at h
  split at h
  · cases h
  · next p hk => exact ⟨p, hk, Outcome.ofExcept_eq_next.mp h⟩

theorem step_writeResp (h : step s (.writeResp k) = .next t) : t = { s with stores := s.stores.eraseIdx k } := by
  simp only [step] at h
  split at h
  · cases h
  · exact (Outcome.next.inj h).symm

theorem step_cfuResp (h : step s (.cfuResp k rd) = .next t) : ∃ r, s.cfus[k]? = some r ∧
    cfuRespHandler r.instr rd { s with cfus := s.cfus.eraseIdx k } = .ok t := by
  simp only [step] at h
  split at h
  · cases h
  · next r hk => exact ⟨r, hk, Outcome.ofExcept_eq_next.mp h⟩

end

end SocModel.Cpu
