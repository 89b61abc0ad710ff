import SocModel.Bus.Packet
import SocModel.Lib.Machine
import SocModel.Lib.Outbox
import SocModel.Lib.Tiling
import SocModel.Mem.BaseMemory
import SocModel.Sa.Pe

/-!
# The systolic array

`soc/include/SystolicArray.hh` and `soc/libs/SystolicArray.cc`. The module serves its control registers and its
SRAM, programs the DMA to load two matrices into the SRAM, polls DONE, unpacks them and multiplies them tile by
tile. A logged error ends a run, as a failed assertion does.

The state also holds the calls the simulator holds for the module: `events` in any order, and the calls of each
`ComputeTile` as a chain, each due a tick or more after the one before, in theirs.

* `readMmio`, `writeMmio`, `sramReadReqHandler`, `sramWriteReqHandler` : the accesses of others;
* `initializedTransaction`, `handleReadResponse`, `computeMatrix`, `launchNextTile` : a multiplication;
* `accept` : what `step` does with a packet it pops, `step` : the actions of a run.
-/

namespace SocModel.Sa

open Lib Bus

def SASIZE : Nat := 2

/-- The words of the SRAM. -/
def SA_SRAM_SIZE : Nat := 8000

/-- `SA_SRAM_SIZE * sizeof(uint32_t)`, as the handlers count it. -/
def memSize : Nat := SA_SRAM_SIZE * 4

/-- The rows and columns of `A_matrix`, `B_matrix` and `C_matrix`. -/
def MATRIX_SIZE : Nat := 64

structure BurstTracker where
  expected : Nat := 0
  rbeats : List ReadResp := []
  wbeats : List WriteResp := []

inductive Phase where
  | readMatA | readMatB | compute
  deriving DecidableEq, Repr

structure TileTask where
  rowBlk : Nat
  colBlk : Nat
  tileRows : Nat
  tileCols : Nat
  kBlk : Nat
  kCols : Nat
  deriving DecidableEq, Repr

/-- A call scheduled for a later tick. -/
inductive Event where
  | sramRead (p : ReadReq)
  | sramWrite (p : WriteReq)
  | readMmio (p : ReadReq)
  | writeMmio (p : WriteReq)
  | poll
  deriving DecidableEq, Repr

/-- A call scheduled by `ComputeTile`. -/
inductive TileEvent where
  | preload (cycle : Nat)
  | propagate (cycle : Nat)
  | flush (cycle : Nat)
  | deposit
  deriving DecidableEq, Repr

/-- The calls of one `ComputeTile` that are still scheduled, and the `pe`, `Result` and `emitRow` they share. -/
structure Chain where
  events : List TileEvent
  array : Array2

structure State where
  -- registers
  enabled : Bool
  done : Bool
  M : Word
  K : Word
  N : Word
  aAddr : Word
  bAddr : Word
  cAddr : Word
  aAddrDm : Word
  bAddrDm : Word
  cAddrDm : Word
  strideA : Word
  strideB : Word
  strideC : Word
  -- matrices and tiles
  aMatrix : Nat → Nat → Byte
  bMatrix : Nat → Nat → Byte
  cMatrix : Nat → Nat → BitVec 16
  tileQ : List TileTask
  tileResult : Nat → Nat → BitVec 16
  aTile : Nat → Nat → Byte
  bTile : Nat → Nat → Byte
  currentTile : TileTask
  -- SRAM, bursts, queues
  sram : Store
  pending : Nat → BurstTracker
  phase : Phase
  reqQ : List Packet
  respQ : List Packet
  -- the simulator
  events : List Event
  chains : List Chain
  nextTid : Nat
  -- records
  sentReqs : List Packet
  sentResps : List Packet

/-- The module after its construction; the members without an initial value are 0. -/
def init : State where
  enabled := false
  done := false
  M := 0
  K := 0
  N := 0
  aAddr := 0
  bAddr := 0
  cAddr := 0
  aAddrDm := 0
  bAddrDm := 0
  cAddrDm := 0
  strideA := 0
  strideB := 0
  strideC := 0
  aMatrix := fun _ _ => 0
  bMatrix := fun _ _ => 0
  cMatrix := fun _ _ => 0
  tileQ := []
  tileResult := fun _ _ => 0
  aTile := fun _ _ => 0
  bTile := fun _ _ => 0
  currentTile := ⟨0, 0, 0, 0, 0, 0⟩
  sram := fun _ => 0
  pending := fun _ => {}
  phase := .readMatA
  reqQ := []
  respQ := []
  events := []
  chains := []
  nextTid := 0
  sentReqs := []
  sentResps := []

namespace State

def schedule (s : State) (es : List Event) : State := { s with events := s.events ++ es }

/-- A request joins `req_Q_`; it takes the next transaction id. -/
def request (s : State) (pkt : Nat → Packet) : State :=
  { s with reqQ := s.reqQ ++ [pkt s.nextTid], nextTid := s.nextTid + 1 }

def respond (s : State) (pkt : Packet) : State := { s with respQ := s.respQ ++ [pkt] }

end State

/-! ## Control registers -/

/-- The registers the two switches select. -/
inductive Register where
  | enable | status | mataSize | matbSize | matcSize | aAddr | bAddr | cAddr | stride | aAddrDm | bAddrDm | cAddrDm
  deriving DecidableEq, Repr

/-- The switch on `getAddr() & 0x3F`. -/
def Register.ofAddr (addr : Word) : Option Register :=
  match (addr &&& 0x3F).toNat with
  | 0x0 => some .enable
  | 0x4 => some .status
  | 0x8 => some .mataSize
  | 0xC => some .matbSize
  | 0x10 => some .matcSize
  | 0x14 => some .aAddr
  | 0x18 => some .bAddr
  | 0x1C => some .cAddr
  | 0x20 => some .stride
  | 0x24 => some .aAddrDm
  | 0x28 => some .bAddrDm
  | 0x2C => some .cAddrDm
  | _ => none

def readRegister (s : State) : Register → Except Fault Word
  | .enable => .ok (if s.enabled then 1 else 0)
  | .status => .ok (if s.done then 1 else 0)
  | .mataSize => .ok ((s.M <<< 16) ||| s.K)
  | .matbSize => .ok ((s.K <<< 16) ||| s.N)
  | .matcSize => .ok ((s.M <<< 16) ||| s.N)
  | .aAddr => .ok s.aAddr
  | .bAddr => .ok s.bAddr
  | .cAddr => .ok s.cAddr
  | .stride => .ok
    ((s.strideA &&& 0xFF) ||| ((s.strideB &&& 0xFF) <<< 8) ||| ((s.strideC &&& 0xFF) <<< 16))
  -- the read switch has no case for the addresses in the data memory
  | _ => .error .assertion

def readMmio (p : ReadReq) (recycled : Nat) (s : State) : Except Fault State := do
  let data ← match Register.ofAddr p.addr with
    | some r => readRegister s r
    | none => .error .assertion
  let resp : ReadResp := { tid := p.tid, instr := p.instr, op := p.op, data, a1 := p.a1 }
  return s.respond (.readResp (constructMemReadRespPkt [resp] .sa p.caller recycled))

/-! ## Programming the DMA -/

/-- `PokeDMAReady`: the poll that is sent later. -/
def pokeDMAReady (s : State) : State := s.schedule [.poll]

/-- The marker of the poll's answer. -/
def pollMark : Word := 114154

/-- The poll event. -/
def poll (s : State) : State :=
  s.request fun tid => .readReq (constructMemReadpktNonBurst {} .LW 0xF014 { imm := pollMark } .sa tid)

def dmaWrite (addr data : Word) (s : State) : State :=
  s.request fun tid => .writeReq (constructMemWritepktNonBurst {} .SW addr data .sa tid)

def sizeCfg (stride tw th : Word) : Word := (stride <<< 24) ||| (stride <<< 16) ||| (tw <<< 8) ||| th

/-- The writes of SOURCE, DEST, SIZE_CFG and ENABLE, and the first poll. -/
def programDma (src dst cfg : Word) (s : State) : State :=
  pokeDMAReady (dmaWrite 0xF000 1 (dmaWrite 0xF00C cfg (dmaWrite 0xF008 dst (dmaWrite 0xF004 src s))))

def askDMAtoWrite_matA (s : State) : State :=
  programDma s.aAddrDm (s.aAddr + BitVec.ofNat 32 SA_MEMORY_BASE)
    (sizeCfg (s.strideA &&& 0xFF) ((s.K - 1) &&& 0xFF) ((s.M - 1) &&& 0xFF)) s

def askDMAtoWrite_matB (s : State) : State :=
  programDma s.bAddrDm (s.bAddr + BitVec.ofNat 32 SA_MEMORY_BASE)
    (sizeCfg (s.strideB &&& 0xFF) (s.K - 1) (s.M - 1)) s

def initializedTransaction (s : State) : Except Fault State :=
  let s := { s with done := false, enabled := true }
  if ¬ (s.aAddr.toNat % 4 = 0 ∧ s.bAddr.toNat % 4 = 0 ∧ s.cAddr.toNat % 4 = 0) then .error .assertion
  else if ¬ ((s.M * s.K).toInt ≤ 2048 ∧ (s.K * s.N).toInt ≤ 2048) then .error .assertion
  else .ok (askDMAtoWrite_matA { s with
    phase := .readMatA
    aMatrix := fun _ _ => 0
    bMatrix := fun _ _ => 0
    cMatrix := fun _ _ => 0 })

/-- The upper and lower size field of a size register. -/
def sizeHigh (data : Word) : Word := ((data >>> 16) &&& 0xFFF) + 1

def sizeLow (data : Word) : Word := (data &&& 0xFFF) + 1

def writeRegister (s : State) (data : Word) : Register → Except Fault State
  | .enable => if data.getLsbD 0 then initializedTransaction s else .ok s
  | .status => .ok { s with done := false }
  | .mataSize => .ok { s with M := sizeHigh data, K := sizeLow data }
  | .matbSize => .ok { s with K := sizeHigh data, N := sizeLow data }
  | .matcSize => .ok { s with M := sizeHigh data, N := sizeLow data }
  | .aAddr => .ok { s with aAddr := data }
  | .bAddr => .ok { s with bAddr := data }
  | .cAddr => .ok { s with cAddr := data }
  | .stride => .ok { s with
    strideA := data &&& 0xFF, strideB := (data >>> 8) &&& 0xFF, strideC := (data >>> 16) &&& 0xFF }
  | .aAddrDm => .ok { s with aAddrDm := data }
  | .bAddrDm => .ok { s with bAddrDm := data }
  | .cAddrDm => .ok { s with cAddrDm := data }

def writeMmio (p : WriteReq) (recycled : Nat) (s : State) : Except Fault State := do
  let s ← match Register.ofAddr p.addr with
    | some r => writeRegister s p.data r
    | none => .error .assertion
  let resp : WriteResp := { tid := p.tid, instr := p.instr }
  return s.respond (.writeResp (constructMemWriteRespPkt [resp] .sa p.caller recycled))

/-! ## SRAM -/

/-- The range check and the switch of `SRAMReadReqHandler`. -/
def sramRead (sram : Store) (op : InstrType) (addr : Word) : Except Fault Word :=
  if addr.toNat < SA_MEMORY_BASE ∨ SA_MEMORY_BASE + memSize ≤ addr.toNat then .error .memoryRange
  else if op.readWidth = 0 then .error .assertion
  else
    let offset := addr.toNat - SA_MEMORY_BASE
    if offset + op.readWidth ≤ memSize then .ok (op.extend (load sram offset op.readWidth))
    else .error .memoryRange

/-- The range checks and the switch of `SRAMWriteReqHandler`. -/
def sramWrite (sram : Store) (op : InstrType) (addr data : Word) : Except Fault Store :=
  if addr.toNat < SA_MEMORY_BASE ∨ SA_MEMORY_BASE + memSize ≤ addr.toNat then .error .memoryRange
  else if op.writeWidth = 0 then .error .assertion
  else
    let offset := addr.toNat - SA_MEMORY_BASE
    if offset + op.writeWidth ≤ memSize then .ok (store sram offset op.writeWidth data.toNat)
    else .error .memoryRange

/-- The response packet of a burst leaves its tracker for the queue once the last beat is in. -/
def State.collect (s : State) (tid : Nat) (tk : BurstTracker) (beats : Nat) (resp : Packet) : State :=
  if beats = tk.expected then { s with pending := Function.update s.pending tid {} }.respond resp
  else { s with pending := Function.update s.pending tid tk }

def sramReadReqHandler (p : ReadReq) (s : State) : Except Fault State := do
  let ret ← sramRead s.sram p.op p.addr
  let resp : ReadResp := { tid := p.tid, instr := p.instr, op := p.op, data := ret, a1 := p.a1 }
  let tk := s.pending p.tid
  let tk := { tk with rbeats := tk.rbeats ++ [resp] }
  let pkt := (constructMemReadRespPkt tk.rbeats .sa p.caller 0).setTID p.tid
  return s.collect p.tid tk tk.rbeats.length (.readResp pkt)

def sramWriteReqHandler (p : WriteReq) (s : State) : Except Fault State := do
  let sram ← sramWrite s.sram p.op p.addr p.data
  let resp : WriteResp := { tid := p.tid, instr := p.instr }
  let tk := s.pending p.tid
  let tk := { tk with wbeats := tk.wbeats ++ [resp] }
  let pkt := (constructMemWriteRespPkt tk.wbeats .sa p.caller 0).setTID p.tid
  return { s with sram }.collect p.tid tk tk.wbeats.length (.writeResp pkt)

/-! ## Multiplying -/

/-- The words of a row in the SRAM. -/
def rowWords (stride : Nat) : Nat := (stride + 3) / 4

/-- The word of the SRAM that holds element `(i, j)`. -/
def wordIdx (addr : Word) (stride i j : Nat) : Nat := addr.toNat / 4 + i * rowWords stride + j / 4

/-- The loops that unpack a matrix from the SRAM, for `stride` rows of `stride` elements. -/
def unpack (sram : Store) (addr : Word) (stride : Nat) (m : Nat → Nat → Byte) :
    Except Fault (Nat → Nat → Byte) :=
  if stride = 0 then .ok m
  else if MATRIX_SIZE < stride ∨ SA_SRAM_SIZE ≤ wordIdx addr stride (stride - 1) (stride - 1) then
    .error .arrayIndex
  else .ok fun i j =>
    if i < stride ∧ j < stride then
      BitVec.ofNat 8 (load sram (4 * wordIdx addr stride i j) 4 / 2 ^ (j % 4 * 8))
    else m i j

/-- `for (x = 0; x < stride; x += SASIZE)`. -/
def blockStarts (stride : Nat) : List Nat := starts SASIZE stride

/-- The loops of `ComputeMatrix`. -/
def tiles (strideA strideB : Nat) : List TileTask :=
  (blockStarts strideA).flatMap fun r =>
    (blockStarts strideB).flatMap fun c =>
      (blockStarts strideB).map fun k =>
        { rowBlk := r
          colBlk := c
          tileRows := min SASIZE (strideA - r)
          tileCols := min SASIZE (strideB - c)
          kBlk := k
          kCols := min SASIZE (strideB - k) }

/-- The sub-block of a matrix, padded with zeros. -/
def loadTile (m : Nat → Nat → Byte) (row col rows cols : Nat) : Except Fault (Nat → Nat → Byte) :=
  if row + rows ≤ MATRIX_SIZE ∧ col + cols ≤ MATRIX_SIZE then
    .ok fun i j => if i < rows ∧ j < cols then m (row + i) (col + j) else 0
  else .error .arrayIndex

def loadATile (s : State) (t : TileTask) : Except Fault (Nat → Nat → Byte) :=
  loadTile s.aMatrix t.rowBlk t.kBlk t.tileRows t.kCols

def loadBTile (s : State) (t : TileTask) : Except Fault (Nat → Nat → Byte) :=
  loadTile s.bMatrix t.kBlk t.colBlk t.kCols t.tileCols

/-- The events `ComputeTile` schedules. -/
def tileSchedule : List TileEvent :=
  (List.range SASIZE).map .preload ++ (List.range (SASIZE * 2 - 1)).map .propagate ++
    (List.range SASIZE).map .flush ++ [.deposit]

def computeTile (s : State) : State := { s with chains := s.chains ++ [⟨tileSchedule, .construct⟩] }

def launchNextTile (s : State) : Except Fault State :=
  match s.tileQ with
  | [] => .ok { s with done := true }
  | t :: q => do
    let aTile ← loadATile s t
    let bTile ← loadBTile s t
    return computeTile
      { s with currentTile := t, tileQ := q, tileResult := fun _ _ => 0, aTile, bTile }

/-- The next tile starts with its sub-blocks, or nothing is left. -/
theorem launchNextTile_cases {s t : State} (h : launchNextTile s = .ok t) :
    (s.tileQ = [] ∧ t = { s with done := true }) ∨
      ∃ task q aTile bTile, s.tileQ = task :: q ∧
        t = computeTile { s with currentTile := task, tileQ := q, tileResult := fun _ _ => 0, aTile, bTile } := by
  unfold launchNextTile at h
  split at h
  · next hq => exact .inl ⟨hq, (Except.ok.inj h).symm⟩
  · next task q hq =>
    cases ha : loadATile s task with
    | error e =>
      rw [ha] at h
      cases h
    | ok aTile =>
      cases hb : loadBTile s task with
      | error e =>
        rw [ha, hb] at h
        cases h
      | ok bTile =>
        rw [ha, hb] at h
        exact .inr ⟨task, q, aTile, bTile, hq, (Except.ok.inj h).symm⟩

def computeMatrix (s : State) : Except Fault State :=
  launchNextTile { s with tileQ := s.tileQ ++ tiles s.strideA.toNat s.strideB.toNat }

/-- The event that adds `Tile_Result` to `C_matrix`. -/
def deposit (s : State) : Except Fault State :=
  let t := s.currentTile
  if t.rowBlk + t.tileRows ≤ MATRIX_SIZE ∧ t.colBlk + t.tileCols ≤ MATRIX_SIZE then
    launchNextTile { s with
      cMatrix := fun i j =>
        if t.rowBlk ≤ i ∧ i < t.rowBlk + t.tileRows ∧ t.colBlk ≤ j ∧ j < t.colBlk + t.tileCols then
          s.cMatrix i j + s.tileResult (i - t.rowBlk) (j - t.colBlk)
        else s.cMatrix i j }
  else .error .arrayIndex

/-- The next call of chain `k`, of which `rest` remain; the deposit is the last one. -/
def runTile (ghost : Nat → Valid8) (k : Nat) (rest : List TileEvent) (array : Array2) (s : State) :
    TileEvent → Except Fault State
  | .preload c => .ok { s with chains := s.chains.set k ⟨rest, preloadWeight SASIZE s.bTile c array⟩ }
  | .propagate c => .ok { s with chains := s.chains.set k ⟨rest, propagateAndMac SASIZE s.aTile c array⟩ }
  | .flush c =>
    let array := flushAndEmit SASIZE ghost array
    .ok { s with
      chains := s.chains.set k ⟨rest, array⟩
      tileResult := if c = SASIZE - 1 then array.result else s.tileResult }
  | .deposit => deposit { s with chains := s.chains.eraseIdx k }

/-! ## Responses -/

/-- What `handleReadResponse` does when DONE reads 1. -/
def transferDone (s : State) : Except Fault State :=
  match s.phase with
  | .readMatA => .ok (askDMAtoWrite_matB { s with phase := .readMatB })
  | .readMatB => do
    let aMatrix ← unpack s.sram s.aAddr s.strideA.toNat s.aMatrix
    let bMatrix ← unpack s.sram s.bAddr s.strideB.toNat s.bMatrix
    computeMatrix { s with aMatrix, bMatrix, phase := .compute }
  | .compute => .ok s

/-- A transfer that has ended leads to the next phase. -/
theorem transferDone_cases {s t : State} (h : transferDone s = .ok t) :
    (s.phase = .readMatA ∧ t = askDMAtoWrite_matB { s with phase := .readMatB }) ∨
      (s.phase = .readMatB ∧ ∃ aMatrix bMatrix, unpack s.sram s.aAddr s.strideA.toNat s.aMatrix = .ok aMatrix ∧
        unpack s.sram s.bAddr s.strideB.toNat s.bMatrix = .ok bMatrix ∧
        computeMatrix { s with aMatrix, bMatrix, phase := .compute } = .ok t) ∨
      (s.phase = .compute ∧ t = s) := by
  unfold transferDone at h
  split at h
  · next hp => exact .inl ⟨hp, (Except.ok.inj h).symm⟩
  · next hp =>
    cases ha : unpack s.sram s.aAddr s.strideA.toNat s.aMatrix with
    | error e =>
      rw [ha] at h
      cases h
    | ok aMatrix =>
      cases hb : unpack s.sram s.bAddr s.strideB.toNat s.bMatrix with
      | error e =>
        rw [ha, hb] at h
        cases h
      | ok bMatrix =>
        rw [ha, hb] at h
        exact .inr (.inl ⟨hp, aMatrix, bMatrix, rfl, rfl, h⟩)
  · next hp => exact .inr (.inr ⟨hp, (Except.ok.inj h).symm⟩)

def handleReadResponse (p : Burst ReadResp) (s : State) : Except Fault State :=
  if p.srcIdx ≠ 1 then .error .assertion
  else
    match p.payloads with
    | [r] =>
      if r.a1.imm = pollMark then if r.data = 1 then transferDone s else .ok (pokeDMAReady s)
      else .error .assertion
    | _ => .error .assertion

/-- The answer to a poll ends a transfer or starts the next poll. -/
theorem handleReadResponse_cases {p : Burst ReadResp} {s t : State} (h : handleReadResponse p s = .ok t) :
    transferDone s = .ok t ∨ t = pokeDMAReady s := by
  unfold handleReadResponse at h
  split at h
  · cases h
  · split at h
    · split at h
      · split at h
        · exact .inl h
        · exact .inr (Except.ok.inj h).symm
      · cases h
    · cases h

/-! ## Packets and events -/

/-- The test of `step`, with the number of words where the handlers take the number of bytes. -/
def toSram (addr : Word) : Bool :=
  decide (SA_MEMORY_BASE ≤ addr.toNat ∧ addr.toNat < SA_MEMORY_BASE + SA_SRAM_SIZE)

def State.expect (s : State) (tid n : Nat) : State :=
  { s with pending := Function.update s.pending tid { s.pending tid with expected := n } }

def acceptRead (p : Burst ReadReq) (s : State) : Except Fault State :=
  if p.payloads.length ≠ p.burstSize then .error .assertion
  else
    match p.payloads with
    | [] => .error .arrayIndex
    | q :: _ =>
      if toSram q.addr then .ok ((s.expect p.tid p.payloads.length).schedule (p.payloads.map .sramRead))
      else if p.payloads.length = 1 then .ok ((s.expect p.tid 1).schedule [.readMmio q])
      else .error .assertion

def acceptWrite (p : Burst WriteReq) (s : State) : Except Fault State :=
  if p.payloads.length ≠ p.burstSize then .error .assertion
  else
    match p.payloads with
    | [] => .error .arrayIndex
    | q :: _ =>
      if toSram q.addr then .ok ((s.expect p.tid p.payloads.length).schedule (p.payloads.map .sramWrite))
      else if p.payloads.length = 1 then .ok ((s.expect p.tid 1).schedule [.writeMmio q])
      else .error .assertion

/-- What `step` does with a packet it pops. -/
def accept (s : State) : Packet → Except Fault State
  | .readReq p => acceptRead p s
  | .writeReq p => acceptWrite p s
  | .readResp p => handleReadResponse p s
  | .writeResp _ => .ok s

/-- `trySendPacket`: the head of each queue is popped whatever `push` returned. -/
def trySendPacket (req resp : Port) (s : State) : State :=
  let r := drainUnchecked req s.reqQ
  let q := drainUnchecked resp s.respQ
  { s with
    reqQ := r.1, sentReqs := s.sentReqs ++ r.2
    respQ := q.1, sentResps := s.sentResps ++ q.2 }

/-- A scheduled call; `recycled` is the id of the recycled response packet. -/
def runEvent (recycled : Nat) (s : State) : Event → Except Fault State
  | .sramRead p => sramReadReqHandler p s
  | .sramWrite p => sramWriteReqHandler p s
  | .readMmio p => readMmio p recycled s
  | .writeMmio p => writeMmio p recycled s
  | .poll => .ok (poll s)

inductive Act where
  | trySend (req resp : Port)
  | accept (p : Packet)
  | event (k recycled : Nat)
  /-- The next call of chain `k`; `ghost` is what lies in front of the rows. -/
  | tile (k : Nat) (ghost : Nat → Valid8)

def step (s : State) : Act → Outcome Fault State
  | .trySend req resp => .next (trySendPacket req resp s)
  | .accept p => .ofExcept (accept s p)
  | .event k recycled =>
    match s.events[k]? with
    | none => .blocked
    | some e => .ofExcept (runEvent recycled { s with events := s.events.eraseIdx k } e)
  | .tile k ghost =>
    match s.chains[k]? with
    | some ⟨e :: rest, array⟩ => .ofExcept (runTile ghost k rest array s e)
    | _ => .blocked

end SocModel.Sa
