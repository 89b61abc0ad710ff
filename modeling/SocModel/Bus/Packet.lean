import Mathlib.Algebra.Group.Nat.Defs
import Mathlib.Data.Nat.Log
import SocModel.Isa.Instr

/-!
# The packets of the crossbar and the address map

`XBarPacket.hh` and `MMIOUtil.hh`: the payload of one beat, the burst packet that carries the beats, the
`Construct_*` functions, and the map from an address to the slave the crossbar routes a request to. The
transaction id a request takes from the global counter is an argument here.
-/

namespace SocModel.Bus

/-- The names the modules give themselves and each other as callers. -/
inductive Caller where
  | cpu | dm | dma | sa
  deriving DecidableEq, Repr, Inhabited

/-- `MMIOUTIL::getIndex`. -/
def getIndex : Caller → Nat
  | .cpu | .dm => 0
  | .dma => 1
  | .sa => 2

/-! ## Address map -/

def DMA_MMIO_BASE : Nat := 0xF000
def DMA_MMIO_END : Nat := 0xF03F
def SA_MMIO_BASE : Nat := 0x12000
def SA_MMIO_END : Nat := 0x120F0
def SA_MEMORY_BASE : Nat := 0x20000
def SA_MEMORY_END : Nat := 0x28000

/-- `MMIOUTIL::slaveIndex`: 1 the DMA, 2 the systolic array, 0 the data memory. -/
def slaveIndex (addr : Word) : Nat :=
  if DMA_MMIO_BASE ≤ addr.toNat ∧ addr.toNat ≤ DMA_MMIO_END then 1
  else if (SA_MMIO_BASE ≤ addr.toNat ∧ addr.toNat ≤ SA_MMIO_END) ∨
      (SA_MEMORY_BASE ≤ addr.toNat ∧ addr.toNat ≤ SA_MEMORY_END) then 2
  else 0

/-! ## Payloads and packets -/

/-- `XBarMemReadReqPayload`. -/
structure ReadReq where
  caller : Caller
  tid : Nat
  instr : Instr
  op : InstrType
  addr : Word
  a1 : Operand
  deriving DecidableEq, Repr

/-- `XBarMemWriteReqPayload`. -/
structure WriteReq where
  caller : Caller
  tid : Nat
  instr : Instr
  op : InstrType
  addr : Word
  data : Word
  deriving DecidableEq, Repr

/-- `XBarMemReadRespPayload`. -/
structure ReadResp where
  tid : Nat
  instr : Instr
  op : InstrType
  data : Word
  a1 : Operand
  deriving DecidableEq, Repr

/-- `XBarMemWriteRespPayload`. -/
structure WriteResp where
  tid : Nat
  instr : Instr
  deriving DecidableEq, Repr

/-- `XBarMemPacket`: the beats of one transaction. -/
structure Burst (β : Type) where
  burstLength : Int
  payloads : List β
  srcIdx : Nat
  dstIdx : Nat
  tid : Nat
  deriving DecidableEq, Repr

/-- `getBurstSize()`: `pow(2, burstLength)` as an `int`. -/
def Burst.burstSize {β : Type} (p : Burst β) : Nat :=
  if p.burstLength < 0 then 0 else 2 ^ p.burstLength.toNat

/-- A packet in a queue or on the crossbar. -/
inductive Packet where
  | readReq (p : Burst ReadReq)
  | writeReq (p : Burst WriteReq)
  | readResp (p : Burst ReadResp)
  | writeResp (p : Burst WriteResp)
  deriving DecidableEq, Repr

/-- `getAutoIncTID()`. -/
def Packet.tid : Packet → Nat
  | .readReq p => p.tid
  | .writeReq p => p.tid
  | .readResp p => p.tid
  | .writeResp p => p.tid

/-! ## Constructors -/

/-- The `switch (payload_size)` of the burst constructors. -/
def burstOfSize : Nat → Int
  | 4 => 2
  | 2 => 1
  | 1 => 0
  | _ => -1

/-- The burst mode of a response. -/
def respBurst (n : Nat) : Int := if n = 1 then 0 else Nat.clog 2 n

def constructMemReadpktNonBurst (i : Instr) (op : InstrType) (addr : Word) (a1 : Operand)
    (caller : Caller) (tid : Nat) : Burst ReadReq :=
  { burstLength := 0
    payloads := [{ caller, tid, instr := i, op, addr, a1 }]
    srcIdx := getIndex caller
    dstIdx := slaveIndex addr
    tid }

def constructMemWritepktNonBurst (i : Instr) (op : InstrType) (addr data : Word) (caller : Caller)
    (tid : Nat) : Burst WriteReq :=
  { burstLength := 0
    payloads := [{ caller, tid, instr := i, op, addr, data }]
    srcIdx := getIndex caller
    dstIdx := slaveIndex addr
    tid }

/-- The slave of a burst is the slave of its first beat; `payloads[0]` of no payload is a fault. -/
def constructMemReadpktBurst (src : Caller) (payloads : List ReadReq) (tid : Nat) :
    Except Fault (Burst ReadReq) :=
  match payloads with
  | [] => .error .arrayIndex
  | p :: _ => .ok
    { burstLength := burstOfSize payloads.length
      payloads := payloads.map fun q => { q with caller := src, tid }
      srcIdx := getIndex src
      dstIdx := slaveIndex p.addr
      tid }

def constructMemWritepktBurst (src : Caller) (payloads : List WriteReq) (tid : Nat) :
    Except Fault (Burst WriteReq) :=
  match payloads with
  | [] => .error .arrayIndex
  | p :: _ => .ok
    { burstLength := burstOfSize payloads.length
      payloads := payloads.map fun q => { q with caller := src, tid }
      srcIdx := getIndex src
      dstIdx := slaveIndex p.addr
      tid }

/-- The response packets keep the id of the recycled object they reuse: `tid` is that id, until the
caller's `setTID`. -/
def constructMemReadRespPkt (beats : List ReadResp) (src dst : Caller) (tid : Nat) : Burst ReadResp :=
  { burstLength := respBurst beats.length
    payloads := beats
    srcIdx := getIndex src
    dstIdx := getIndex dst
    tid }

def constructMemWriteRespPkt (beats : List WriteResp) (src dst : Caller) (tid : Nat) :
    Burst WriteResp :=
  { burstLength := respBurst beats.length
    payloads := beats
    srcIdx := getIndex src
    dstIdx := getIndex dst
    tid }

def Burst.setTID {β : Type} (p : Burst β) (tid : Nat) : Burst β := { p with tid }

end SocModel.Bus
