import Mathlib.Algebra.Group.Nat.Defs
import SocModel.Chisel.Hazard

/-!
# The data memory and the whole chip

`DataMem.scala` and `top.scala`. The data memory is a state machine: a request seen in `sIdle` is accepted, served in
`sRead` or `sWrite`, and answered when the counter reaches `memLatency - 1`, which every state tests.

* `DataMem.valid`, `DataMem.next` : the answer and the registers after a cycle;
* `Top.cycle` : a cycle of the CPU and its data memory, `Top.run` : a run from reset;
* `Serving` : the data memory works on the access of the instruction in MEM, `serving_cycle` : after every cycle.
-/

namespace SocModel.Chisel

open Opcode

/-! ## `RiscvDefs.scala`, `wide` -/

namespace Length

def Byte : BitVec 4 := 0b0000
def Half : BitVec 4 := 0b0001
def Word : BitVec 4 := 0b0010
def UByte : BitVec 4 := 0b0100
def UHalf : BitVec 4 := 0b0101

end Length

/-- A memory of bytes. -/
abbrev Bytes := Addr → BitVec 8

/-- `sIdle`, `sRead`, `sWrite`, `sWait`. -/
inductive MemState where
  | idle | read | write | wait
  deriving DecidableEq, Repr

/-- What the CPU drives. -/
structure MemReq where
  memR : Bool
  memW : Bool
  length : BitVec 4
  raddr : Addr
  waddr : Addr
  wdata : Word
  deriving DecidableEq, Repr

/-- The address registers have no reset value in the source; here they are 0. -/
structure DataMem where
  memory : Bytes
  dataReg : Word := 0
  state : MemState := .idle
  counter : Nat := 0
  readAddrReg : Addr := 0
  writeAddrReg : Addr := 0
  writeDataReg : Word := 0
  lengthReg : BitVec 4 := 0

/-- `alignedAddr`. -/
def alignedAddr (length : BitVec 4) (addr : Addr) : Addr :=
  muxLookup length (addr &&& ~~~3)
    [(Length.Byte, addr), (Length.Half, addr &&& ~~~1), (Length.Word, addr &&& ~~~3)]

/-- `readDataSInt`. -/
def readData (memory : Bytes) (length : BitVec 4) (addr : Addr) : Word :=
  let a := alignedAddr length addr
  muxLookup length 0
    [(Length.Byte, (memory a).signExtend 32), (Length.Half, (memory (a + 1) ++ memory a).signExtend 32),
      (Length.Word, memory (a + 3) ++ memory (a + 2) ++ memory (a + 1) ++ memory a),
      (Length.UByte, 0#24 ++ memory a), (Length.UHalf, 0#16 ++ memory (a + 1) ++ memory a)]

/-- `wd`. -/
def writeData (length : BitVec 4) (data : Word) : Word :=
  muxLookup length 0
    [(Length.Byte, (data.extractLsb' 0 8).setWidth 32), (Length.Half, (data.extractLsb' 0 16).setWidth 32),
      (Length.Word, data)]

/-- The memory after the write of `sWrite`. -/
def storeBytes (memory : Bytes) (length : BitVec 4) (addr : Addr) (data : Word) : Bytes :=
  let a := alignedAddr length addr
  let wd := writeData length data
  if length = Length.Byte then Function.update memory a (wd.extractLsb' 0 8)
  else if length = Length.Half then
    Function.update (Function.update memory a (wd.extractLsb' 0 8)) (a + 1) (wd.extractLsb' 8 8)
  else
    Function.update (Function.update (Function.update (Function.update memory a (wd.extractLsb' 0 8)) (a + 1)
      (wd.extractLsb' 8 8)) (a + 2) (wd.extractLsb' 16 8)) (a + 3) (wd.extractLsb' 24 8)

/-- `(n).bitLength`; `log2Ceil n` is that of `n - 1`. -/
def bitLength (n : Nat) : Nat := if n = 0 then 0 else n.log2 + 1

/-- `math.max(1, log2Ceil(memLatency))`. -/
def counterWidth (memLatency : Nat) : Nat := max 1 (bitLength (memLatency - 1))

namespace DataMem

variable (memLatency : Nat)

/-- `io.Valid`. -/
def valid (d : DataMem) : Bool := d.counter == memLatency - 1

/-- The end of a cycle outside of `sIdle`. -/
def tick (d : DataMem) : DataMem :=
  if d.counter = memLatency - 1 then { d with state := .idle, counter := 0 }
  else { d with state := .wait, counter := (d.counter + 1) % 2 ^ counterWidth memLatency }

/-- `sIdle` with a request or without. -/
def accept (req : MemReq) (d : DataMem) : DataMem :=
  if req.memR then { d with readAddrReg := req.raddr, lengthReg := req.length, counter := 1, state := .read }
  else if req.memW then
    { d with writeAddrReg := req.waddr, writeDataReg := req.wdata, lengthReg := req.length, counter := 1, state := .write }
  else { d with counter := 0 }

/-- The registers after a cycle. -/
def next (req : MemReq) (d : DataMem) : DataMem :=
  match d.state with
  | .idle => if d.counter = memLatency - 1 then { accept req d with state := .idle } else accept req d
  | .read => tick memLatency { d with dataReg := readData d.memory d.lengthReg d.readAddrReg }
  | .write => tick memLatency { d with memory := storeBytes d.memory d.lengthReg d.writeAddrReg d.writeDataReg }
  | .wait => tick memLatency d

end DataMem

/-! ## The chip -/

/-- A write into the data memory, and the instruction that asked for it. -/
structure Stored where
  entry : Entry
  length : BitVec 4
  addr : Addr
  data : Word
  deriving DecidableEq, Repr

/-- The CPU, its data memory, and the record of the memory's writes. -/
structure Top where
  cpu : State
  dm : DataMem
  stores : List Stored

namespace Top

/-- The wires from the CPU to the data memory. -/
def req (t : Top) : MemReq where
  memR := opcode t.cpu.mem.inst == LOAD
  memW := opcode t.cpu.mem.inst == STORE
  length := 0#1 ++ funct3 t.cpu.mem.inst
  raddr := t.cpu.mem.aluOut.extractLsb' 0 15
  waddr := t.cpu.mem.aluOut.extractLsb' 0 15
  wdata := t.cpu.mem.dmWdata

/-- The wires back. -/
def input (memLatency : Nat) (t : Top) : Input := ⟨t.dm.valid memLatency, t.dm.dataReg⟩

/-- The write the data memory does in this cycle. -/
def stored (t : Top) : List Stored :=
  if t.dm.state = .write then
    [⟨⟨t.cpu.mem.pc, t.cpu.mem.inst⟩, t.dm.lengthReg, t.dm.writeAddrReg, t.dm.writeDataReg⟩]
  else []

def cycle (memory : Bytes) (memLatency : Nat) (t : Top) : Top where
  cpu := Chisel.cycle memory t.cpu (t.input memLatency)
  dm := t.dm.next memLatency t.req
  stores := t.stores ++ t.stored

/-- After reset, with `data` in the data memory. -/
def start (data : Bytes) : Top := ⟨reset, { memory := data }, []⟩

/-- The state `n` cycles later. -/
def run (memory : Bytes) (memLatency : Nat) (t : Top) : Nat → Top
  | 0 => t
  | n + 1 => cycle memory memLatency (run memory memLatency t n)

theorem run_add (memory : Bytes) (memLatency : Nat) (t : Top) (n k : Nat) :
    run memory memLatency t (n + k) = run memory memLatency (run memory memLatency t n) k := by
  induction k with
  | zero => rfl
  | succ k ih => rw [← Nat.add_assoc, run, ih, run]

end Top

/-! ## The data memory and the access in MEM -/

/-- The state of the data memory fits the access in MEM. -/
def Serving (memLatency : Nat) (t : Top) : Prop :=
  match t.dm.state with
  | .idle => t.dm.counter = 0 ∨ t.dm.counter = 1 ∧ memLatency ≤ 1
  | .read => opcode t.cpu.mem.inst = LOAD
  | .write => opcode t.cpu.mem.inst = STORE ∧ t.dm.lengthReg = t.req.length ∧ t.dm.writeAddrReg = t.req.waddr ∧
      t.dm.writeDataReg = t.req.wdata
  | .wait => opcode t.cpu.mem.inst = LOAD ∨ opcode t.cpu.mem.inst = STORE

section

variable {memory data : Bytes} {memLatency : Nat} {t : Top}

/-- The instruction in MEM is a load or a store. -/
def Accesses (t : Top) : Prop := opcode t.cpu.mem.inst = LOAD ∨ opcode t.cpu.mem.inst = STORE

/-- MEM takes an instruction in the cycle. -/
def Moves (memLatency : Nat) (t : Top) : Prop :=
  (t.cpu.hcf || t.cpu.stallMA (t.input memLatency).dmValid) = false

theorem stallMA_eq (t : Top) : t.cpu.stallMA (t.input memLatency).dmValid =
    (!t.dm.valid memLatency && (opcode t.cpu.mem.inst == LOAD || opcode t.cpu.mem.inst == STORE)) := rfl

theorem Moves.counter (h : Moves memLatency t) (ha : Accesses t) : t.dm.counter = memLatency - 1 := by
  have hma := (Bool.or_eq_false_iff.mp h).2
  rw [stallMA_eq] at hma
  rcases ha with ha | ha <;> simpa [ha, DataMem.valid] using hma

theorem moves_of_not_accesses (hh : t.cpu.hcf = false) (ha : ¬ Accesses t) : Moves memLatency t := by
  have ha := not_or.mp ha
  unfold Moves
  rw [hh, stallMA_eq]
  simp [ha.1, ha.2]

theorem mem_cycle (h : ¬ Moves memLatency t) : (Top.cycle memory memLatency t).cpu.mem = t.cpu.mem :=
  nextMem_of_held (Bool.not_eq_false _ ▸ h)

theorem req_cycle (h : ¬ Moves memLatency t) : (Top.cycle memory memLatency t).req = t.req := by
  unfold Top.req
  rw [mem_cycle h]

theorem serving_start (memLatency : Nat) (data : Bytes) : Serving memLatency (Top.start data) := .inl rfl

/-- The end of a cycle outside of `sIdle`. -/
theorem serving_tick {d : DataMem} (hd : (Top.cycle memory memLatency t).dm = d.tick memLatency)
    (hc : d.counter = t.dm.counter) (ha : Accesses t) : Serving memLatency (Top.cycle memory memLatency t) := by
  unfold Serving
  rw [hd]
  unfold DataMem.tick
  by_cases hv : d.counter = memLatency - 1
  · rw [if_pos hv]
    exact .inl rfl
  · have hm : ¬ Moves memLatency t := fun hm => hv (hc.trans (hm.counter ha))
    rw [if_neg hv]
    show Accesses (Top.cycle memory memLatency t)
    unfold Accesses
    rw [mem_cycle hm]
    exact ha

theorem serving_cycle (h : Serving memLatency t) : Serving memLatency (Top.cycle memory memLatency t) := by
  have hdm : (Top.cycle memory memLatency t).dm = t.dm.next memLatency t.req := rfl
  unfold DataMem.next at hdm
  rcases hst : t.dm.state with _ | _ | _ | _ <;> rw [hst] at hdm <;> unfold Serving at h <;> rw [hst] at h
  · by_cases hv : t.dm.counter = memLatency - 1
    · simp only [hv, if_true] at hdm
      unfold Serving
      rw [hdm]
      show (t.dm.accept t.req).counter = 0 ∨ (t.dm.accept t.req).counter = 1 ∧ memLatency ≤ 1
      have hl : memLatency ≤ 1 := by
        rcases h with h | ⟨-, h⟩ <;> omega
      unfold DataMem.accept
      split
      · exact .inr ⟨rfl, hl⟩
      · split
        · exact .inr ⟨rfl, hl⟩
        · exact .inl rfl
    · simp only [hv, if_false] at hdm
      have hm : Accesses t → ¬ Moves memLatency t := fun ha hm => hv (hm.counter ha)
      unfold Serving
      rw [hdm]
      unfold DataMem.accept
      by_cases hr : opcode t.cpu.mem.inst = LOAD
      · rw [if_pos (show t.req.memR = true by simpa [Top.req] using hr)]
        show opcode (Top.cycle memory memLatency t).cpu.mem.inst = LOAD
        rw [mem_cycle (hm (.inl hr))]
        exact hr
      · rw [if_neg (show ¬ t.req.memR = true by simpa [Top.req] using hr)]
        by_cases hw : opcode t.cpu.mem.inst = STORE
        · rw [if_pos (show t.req.memW = true by simpa [Top.req] using hw)]
          refine ⟨?_, ?_⟩
          · rw [mem_cycle (hm (.inr hw))]
            exact hw
          · rw [req_cycle (hm (.inr hw))]
            exact ⟨rfl, rfl, rfl⟩
        · rw [if_neg (show ¬ t.req.memW = true by simpa [Top.req] using hw)]
          simp [hst]
  · exact serving_tick hdm rfl (.inl h)
  · exact serving_tick hdm rfl (.inr h.1)
  · exact serving_tick hdm rfl h

/-! ### The stores -/

/-- A write of the record. -/
def Stored.apply (memory : Bytes) (s : Stored) : Bytes := storeBytes memory s.length s.addr s.data

/-- The store in MEM leaves the data memory as it is. -/
def Harmless (t : Top) : Prop :=
  opcode t.cpu.mem.inst = STORE → storeBytes t.dm.memory t.req.length t.req.waddr t.req.wdata = t.dm.memory

@[simp] theorem memory_tick (d : DataMem) : (d.tick memLatency).memory = d.memory := by
  unfold DataMem.tick
  split <;> rfl

@[simp] theorem memory_accept (req : MemReq) (d : DataMem) : (d.accept req).memory = d.memory := by
  unfold DataMem.accept
  split
  · rfl
  · split <;> rfl

/-- What the record says of the data memory. -/
theorem memory_cycle (t : Top) :
    (Top.cycle memory memLatency t).dm.memory = t.stored.foldl Stored.apply t.dm.memory := by
  show (t.dm.next memLatency t.req).memory = _
  unfold DataMem.next Top.stored
  rcases hst : t.dm.state with _ | _ | _ | _
  · by_cases hv : t.dm.counter = memLatency - 1 <;> simp [hv]
  · simp
  · simp [Stored.apply]
  · simp

/-- A cycle leaves the data memory alone or does the store in MEM. -/
theorem memory_cycle_cases (memory : Bytes) (h : Serving memLatency t) :
    (Top.cycle memory memLatency t).dm.memory = t.dm.memory ∨ opcode t.cpu.mem.inst = STORE ∧
      (Top.cycle memory memLatency t).dm.memory =
        storeBytes t.dm.memory t.req.length t.req.waddr t.req.wdata := by
  rw [memory_cycle]
  unfold Top.stored
  by_cases hst : t.dm.state = .write
  · unfold Serving at h
    rw [hst] at h
    obtain ⟨hop, hl, ha, hd⟩ := h
    rw [if_pos hst, ← hl, ← ha, ← hd]
    exact .inr ⟨hop, rfl⟩
  · rw [if_neg hst]
    exact .inl rfl

end

end SocModel.Chisel
