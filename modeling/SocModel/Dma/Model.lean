import SocModel.Bus.Packet
import SocModel.Lib.Machine
import SocModel.Lib.Outbox
import SocModel.Mem.BaseMemory

/-!
# The DMA controller

`soc/libs/DMA.cc` and `soc/include/DMA.hh`. A transfer alternates between reading up to 256 words into
`bufferMemory`, one burst at a time, and writing a window of them back, all bursts in one call.

The state also holds what the simulator and the bus hold for the module: the scheduled calls and the bursts on
the bus. It records the bursts issued and the packets that left the two queues. An action gives the answers of
the pipe registers to the pushes it makes, numbered in order.

* `initializedTransaction`, `scheduleReadsForBuffer`, `scheduleWritesFromBuffer`, `handleReadResponse`,
  `handleWriteCompletion`, `writeChunkCalculation` and the rest : the source's functions;
* `busStep` : what the bus and the simulator do to a transfer, `step` : with the accesses of its registers.
-/

namespace SocModel.Dma

open Lib Bus

def BUFFER_CAPACITY : Nat := 256

inductive DmaState where
  | idle | reading | writing
  deriving DecidableEq, Repr

/-- A call scheduled for the next tick. -/
inductive Event where
  | reads | writes
  deriving DecidableEq, Repr

structure State where
  -- registers
  enabled : Bool
  done : Bool
  srcAddr : Word
  dstAddr : Word
  dmaSizeCfg : Word
  -- geometry
  trueWidth : Nat
  trueHeight : Nat
  sourceStride : Nat
  destStride : Nat
  totalElements : Nat
  -- tracking
  wordsToBuffer : Nat
  wordsTransferred : Nat
  totalWords : Nat
  bufferIndex : Nat
  pendingBusReadResponses : Int
  pendingBusWriteResponses : Int
  bufferMemory : Nat → Word
  currentState : DmaState
  reqQ : List Packet
  respQ : List Packet
  -- the simulator and the bus
  events : List Event
  nextTid : Nat
  outReads : List (Burst ReadReq)
  outWrites : List (Burst WriteReq)
  -- records
  issued : List Packet
  sentReqs : List Packet
  sentResps : List Packet

/-- The members have no initial values in the source; here they are 0. -/
def init : State where
  enabled := false
  done := false
  srcAddr := 0
  dstAddr := 0
  dmaSizeCfg := 0
  trueWidth := 0
  trueHeight := 0
  sourceStride := 0
  destStride := 0
  totalElements := 0
  wordsToBuffer := 0
  wordsTransferred := 0
  totalWords := 0
  bufferIndex := 0
  pendingBusReadResponses := 0
  pendingBusWriteResponses := 0
  bufferMemory := fun _ => 0
  currentState := .idle
  reqQ := []
  respQ := []
  events := []
  nextTid := 0
  outReads := []
  outWrites := []
  issued := []
  sentReqs := []
  sentResps := []

/-- `a - b` as a `size_t`. -/
def sizeSub (a b : Nat) : Nat := if b ≤ a then a - b else 2 ^ 64 - (b - a)

theorem sizeSub_of_le {a b : Nat} (h : b ≤ a) : sizeSub a b = a - b := if_pos h

namespace State

/-- A push into the request register that returned `true`. -/
def handOver (s : State) : Packet → State
  | .readReq p => { s with outReads := s.outReads ++ [p] }
  | .writeReq p => { s with outWrites := s.outWrites ++ [p] }
  | _ => s

/-- A burst is built: it takes the next transaction id. -/
def issue (s : State) (p : Packet) : State := { s with nextTid := s.nextTid + 1, issued := s.issued ++ [p] }

def schedule (s : State) (e : Event) : State := { s with events := s.events ++ [e] }

/-- `(true_width + 3) / 4`. -/
def wordsPerRow (s : State) : Nat := (s.trueWidth + 3) / 4

end State

/-! ## Words and bursts -/

/-- The address of word `g` of a region: row by row, four bytes a column. -/
def wordAddr (base : Word) (wordsPerRow stride g : Nat) : Word :=
  base + BitVec.ofNat 32 (g / wordsPerRow * stride) + BitVec.ofNat 32 (g % wordsPerRow * 4)

/-- The test of the last, partial word of a row, as both places of the source have it. -/
def isPartial (s : State) (g : Nat) : Bool :=
  g % s.wordsPerRow == s.wordsPerRow && s.trueWidth % 4 != 0

/-- The beats word `g` becomes in a write burst. -/
def subpackets (s : State) (g : Nat) : Nat := if isPartial s g ∧ s.trueWidth % 4 = 3 then 2 else 1

/-- The loop of `writeChunkCalculation` over `n` words from word `g` on. -/
def chunkLoop (s : State) : Nat → Nat → Nat → Nat → Nat → Nat
  | 0, _, _, _, maxValidWords => maxValidWords
  | n + 1, g, i, count, maxValidWords =>
    let count := count + subpackets s g
    if count > 4 then maxValidWords
    else chunkLoop s n (g + 1) (i + 1) count
      (if count = 1 ∨ count = 2 ∨ count = 4 then i + 1 else maxValidWords)

def writeChunkCalculation (s : State) (offset n : Nat) : Nat :=
  let maxValidWords := chunkLoop s n (s.wordsTransferred + offset) 0 0 0
  if maxValidWords = 0 then 1 else maxValidWords

def makeFullWritePacket (addr data : Word) : List WriteReq :=
  [{ caller := .dma, tid := 0, instr := {}, op := .SW, addr, data }]

def makePartialWritePackets (addr data : Word) : Nat → Except Fault (List WriteReq)
  | 3 => .ok
    [{ caller := .dma, tid := 0, instr := {}, op := .SH, addr, data := data &&& 0xFFFF },
      { caller := .dma, tid := 0, instr := {}, op := .SB, addr := addr + 2, data := (data >>> 16) &&& 0xFF }]
  | 2 => .ok [{ caller := .dma, tid := 0, instr := {}, op := .SH, addr, data := data &&& 0xFFFF }]
  | 1 => .ok [{ caller := .dma, tid := 0, instr := {}, op := .SB, addr, data := data &&& 0xFF }]
  | _ => .error .assertion

/-- The beats that write `bufferMemory[offset]`. -/
def writeRequestsForWord (s : State) (offset : Nat) : Except Fault (List WriteReq) :=
  let g := s.wordsTransferred + offset
  let addr := wordAddr s.dstAddr s.wordsPerRow s.destStride g
  if BUFFER_CAPACITY ≤ offset then .error .arrayIndex
  else if isPartial s g then makePartialWritePackets addr (s.bufferMemory offset) (s.trueWidth % 4)
  else .ok (makeFullWritePacket addr (s.bufferMemory offset))

/-- The beats of `n` words from `bufferMemory[offset]` on. -/
def createWriteRequestsForChunk (s : State) : Nat → Nat → Except Fault (List WriteReq)
  | _, 0 => .ok []
  | offset, n + 1 => do
    let reqs ← writeRequestsForWord s offset
    let rest ← createWriteRequestsForChunk s (offset + 1) n
    return reqs ++ rest

/-! ## The phases of a transfer -/

def transactionComplete (s : State) : State :=
  { s with currentState := .idle, done := true, enabled := false }

/-- A push of a write burst, or its place in the queue; only the queue is counted. -/
def pushOrQueueWrite (port : Port) (p : Burst WriteReq) (s : State) : State :=
  if port.transfers then s.handOver (.writeReq p)
  else
    { s with
      reqQ := s.reqQ ++ [.writeReq p]
      pendingBusWriteResponses := s.pendingBusWriteResponses + 1 }

/-- The loop of `scheduleWritesFromBuffer` from `offset` on; `k` counts the bursts. A burst has at least one word,
so `fuel` words need no more turns than that. -/
def writeLoop (ports : Nat → Port) : Nat → Nat → Nat → State → Except Fault State
  | 0, _, _, s => .ok s
  | fuel + 1, k, offset, s =>
    if offset < s.bufferIndex then do
      let chunk := writeChunkCalculation s offset (s.bufferIndex - offset)
      let reqs ← createWriteRequestsForChunk s offset chunk
      let pkt ← constructMemWritepktBurst .dma reqs s.nextTid
      writeLoop ports fuel (k + 1) (offset + chunk)
        (pushOrQueueWrite (ports k) pkt (s.issue (.writeReq pkt)))
    else .ok s

/-- `scheduleWritesFromBuffer` with a buffer that is not empty. -/
def issueWindow (ports : Nat → Port) (s : State) : Except Fault State := do
  let t ← writeLoop ports s.bufferIndex 0 0 { s with pendingBusWriteResponses := 0 }
  return { t with wordsTransferred := t.wordsTransferred + s.bufferIndex }

/-- The payloads of a read burst of `chunk` words. -/
def readRequests (s : State) (chunk : Nat) : List ReadReq :=
  (List.range chunk).map fun i =>
    { caller := .dma
      tid := 0
      instr := {}
      op := .LW
      addr := wordAddr s.srcAddr s.wordsPerRow s.sourceStride (s.wordsTransferred + s.bufferIndex + i)
      a1 := { imm := BitVec.ofNat 32 (s.bufferIndex + i) } }

/-- The words of the next read burst. -/
def readChunk (wordsToRead : Nat) : Nat := if min 4 wordsToRead = 3 then 2 else min 4 wordsToRead

def scheduleReadsForBuffer (ports : Nat → Port) (s : State) : Except Fault State :=
  let bufferSpace := sizeSub BUFFER_CAPACITY s.bufferIndex
  let wordsLeft := sizeSub s.totalWords s.wordsToBuffer
  let wordsToRead := min bufferSpace wordsLeft
  if wordsToRead = 0 then
    if s.wordsToBuffer ≥ s.totalWords then .ok (transactionComplete s)
    -- the buffer is full here, so `scheduleWritesFromBuffer` goes on to its loop
    else issueWindow ports { s with currentState := .writing }
  else do
    let pkt ← constructMemReadpktBurst .dma (readRequests s (readChunk wordsToRead)) s.nextTid
    let s := s.issue (.readReq pkt)
    let s := if (ports 0).transfers then s.handOver (.readReq pkt)
      else { s with reqQ := s.reqQ ++ [.readReq pkt] }
    return { s with pendingBusReadResponses := 1 }

def scheduleWritesFromBuffer (ports : Nat → Port) (s : State) : Except Fault State :=
  if s.bufferIndex = 0 then
    if s.wordsTransferred ≥ s.totalWords then .ok (transactionComplete s)
    else scheduleReadsForBuffer ports { s with currentState := .reading }
  else issueWindow ports s

/-- One beat of a read response into the buffer. -/
def storeResponse (s : State) (r : ReadResp) : Except Fault State :=
  if r.a1.imm.toNat < BUFFER_CAPACITY then
    .ok { s with bufferMemory := Function.update s.bufferMemory r.a1.imm.toNat r.data }
  else .error .assertion

def handleReadResponse (p : Burst ReadResp) (s : State) : Except Fault State := do
  let s ← p.payloads.foldlM storeResponse s
  let chunk := p.payloads.length
  let s := { s with
    pendingBusReadResponses := s.pendingBusReadResponses - 1
    bufferIndex := s.bufferIndex + chunk
    wordsToBuffer := s.wordsToBuffer + chunk }
  if sizeSub BUFFER_CAPACITY s.bufferIndex > 0 ∧ sizeSub s.totalWords s.wordsToBuffer > 0 then
    return s.schedule .reads
  else return { s with currentState := .writing }.schedule .writes

/-- `bufferMemory[i] = 0` below `n`. -/
def clearBuffer (buffer : Nat → Word) (n : Nat) : Nat → Word := fun i => if i < n then 0 else buffer i

def handleWriteCompletion (ports : Nat → Port) (s : State) : Except Fault State :=
  let s := { s with pendingBusWriteResponses := s.pendingBusWriteResponses - 1 }
  if s.pendingBusWriteResponses = 0 then
    let s := { s with bufferMemory := clearBuffer s.bufferMemory s.bufferIndex, bufferIndex := 0 }
    if s.wordsTransferred ≥ s.totalWords then .ok (transactionComplete s)
    else scheduleReadsForBuffer ports { s with currentState := .reading }
  else .ok s

/-! ## Registers -/

def startTransfer (ports : Nat → Port) (s : State) : Except Fault State :=
  if s.enabled = false ∨ s.done = true then .ok s
  else scheduleReadsForBuffer ports { s with currentState := .reading }

/-- A byte of `DMA_SIZE_CFG`. -/
def cfgByte (cfg : Word) (shift : Nat) : Nat := cfg.toNat / 2 ^ shift % 256

/-- The decoding of `DMA_SIZE_CFG`. -/
def decode (s : State) : State :=
  let w := cfgByte s.dmaSizeCfg 8 + 1
  let h := cfgByte s.dmaSizeCfg 0 + 1
  { s with
    done := false
    currentState := .idle
    trueWidth := w
    trueHeight := h
    sourceStride := cfgByte s.dmaSizeCfg 24
    destStride := cfgByte s.dmaSizeCfg 16
    totalElements := w * h
    totalWords := (w / 4 + if w % 4 ≠ 0 then 1 else 0) * h
    wordsTransferred := 0
    bufferIndex := 0
    wordsToBuffer := 0 }

def initializedTransaction (ports : Nat → Port) (s : State) : Except Fault State :=
  startTransfer ports (decode s)

/-- The assertion on who programs the DMA, and the queued response. -/
def respond (caller : Caller) (p : Packet) (s : State) : Except Fault State :=
  if caller = .cpu ∨ caller = .sa then .ok { s with respQ := s.respQ ++ [p] } else .error .assertion

def readRegister (s : State) (addr : Nat) : Except Fault Word :=
  match addr with
  | 0x0 => .ok (if s.enabled then 1 else 0)
  | 0x4 => .ok s.srcAddr
  | 0x8 => .ok s.dstAddr
  | 0xC => .ok s.dmaSizeCfg
  | 0x14 => .ok (if s.done then 1 else 0)
  | _ => .error .assertion

/-- `readMmio`; the response packet keeps the id of the recycled object, `recycled`. -/
def readMmio (p : ReadReq) (recycled : Nat) (s : State) : Except Fault State := do
  let data ← readRegister s (p.addr.toNat % 64)
  let resp : ReadResp := { tid := p.tid, instr := p.instr, op := p.op, data, a1 := p.a1 }
  respond p.caller (.readResp (constructMemReadRespPkt [resp] .dma p.caller recycled)) s

def writeRegister (ports : Nat → Port) (s : State) (addr : Nat) (data : Word) : Except Fault State :=
  match addr with
  | 0x0 =>
    if data.getLsbD 0 then initializedTransaction ports { s with enabled := true, done := false } else .ok s
  | 0x4 => .ok { s with srcAddr := data }
  | 0x8 => .ok { s with dstAddr := data }
  | 0xC => .ok { s with dmaSizeCfg := data }
  | 0x14 => .ok { s with done := false }
  | _ => .error .assertion

def writeMmio (ports : Nat → Port) (p : WriteReq) (recycled : Nat) (s : State) : Except Fault State := do
  let s ← writeRegister ports s (p.addr.toNat % 64) p.data
  let resp : WriteResp := { tid := p.tid, instr := p.instr }
  respond p.caller (.writeResp (constructMemWriteRespPkt [resp] .dma p.caller recycled)) s

/-- `trySendPacket`: one packet of each queue. -/
def trySendPacket (req resp : Port) (s : State) : State :=
  let r := drain req s.reqQ
  let q := drain resp s.respQ
  let s := r.2.foldl State.handOver s
  { s with
    reqQ := r.1, sentReqs := s.sentReqs ++ r.2
    respQ := q.1, sentResps := s.sentResps ++ q.2 }

/-! ## Runs -/

/-- The response of a memory that returns `data` for the beats of a read burst. -/
def respondTo (p : Burst ReadReq) (data : ReadReq → Word) : Burst ReadResp :=
  (constructMemReadRespPkt
    (p.payloads.map fun q => { tid := q.tid, instr := q.instr, op := q.op, data := data q, a1 := q.a1 })
    .dm .dma 0).setTID p.tid

/-- What the simulator and the bus do: call `trySendPacket`, run a scheduled call, answer a burst. -/
inductive BusAct where
  | trySend (req resp : Port)
  | event (k : Nat) (ports : Nat → Port)
  | readResp (k : Nat) (data : ReadReq → Word)
  | writeResp (k : Nat) (ports : Nat → Port)

def runEvent (ports : Nat → Port) (s : State) : Event → Except Fault State
  | .reads => scheduleReadsForBuffer ports s
  | .writes => scheduleWritesFromBuffer ports s

def busStep (s : State) : BusAct → Outcome Fault State
  | .trySend req resp => .next (trySendPacket req resp s)
  | .event k ports =>
    match s.events[k]? with
    | none => .blocked
    | some e => .ofExcept (runEvent ports { s with events := s.events.eraseIdx k } e)
  | .readResp k data =>
    match s.outReads[k]? with
    | none => .blocked
    | some p => .ofExcept (handleReadResponse (respondTo p data) { s with outReads := s.outReads.eraseIdx k })
  | .writeResp k ports =>
    match s.outWrites[k]? with
    | none => .blocked
    | some _ => .ofExcept (handleWriteCompletion ports { s with outWrites := s.outWrites.eraseIdx k })

/-- The actions on a transfer, and the accesses of the registers. -/
inductive Act where
  | bus (a : BusAct)
  | readMmio (p : ReadReq) (recycled : Nat)
  | writeMmio (ports : Nat → Port) (p : WriteReq) (recycled : Nat)

def step (s : State) : Act → Outcome Fault State
  | .bus a => busStep s a
  | .readMmio p recycled => .ofExcept (readMmio p recycled s)
  | .writeMmio ports p recycled => .ofExcept (writeMmio ports p recycled s)

end SocModel.Dma
