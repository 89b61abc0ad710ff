import SocModel.Bus.Packet
import SocModel.Lib.Machine
import SocModel.Lib.Outbox
import SocModel.Mem.BaseMemory

/-!
# The data memory on the bus

`soc/include/DataMemory.hh` and `soc/libs/DataMemory.cc`. `step` pops a request packet and schedules an event
for each beat, `lat` ticks later and one tick apart; a beat's handler accesses the memory, collects the response
in the tracker of its transaction id, and queues the response packet when the burst is complete.

The simulator's queue of scheduled events is part of the state. Which of the events of a tick runs first, and
whether it runs before `step`, is the environment's choice. Beside the fields the state records the packets
popped with their ticks, what each beat returned, and the response packets sent.

* `dmStep`, `memReadReqHandler`, `memWriteReqHandler`, `trySendResponse` : the source's functions;
* `step` : the actions of a run.
-/

namespace SocModel.DataMem

open Lib Bus

/-- `BurstTracker`. -/
structure Tracker where
  expected : Nat := 0
  rbeats : List ReadResp := []
  wbeats : List WriteResp := []
  deriving DecidableEq, Repr

/-- The request of one beat. -/
inductive Req where
  | read (p : ReadReq)
  | write (p : WriteReq)
  deriving DecidableEq, Repr

/-- A beat: the position of its packet among the packets popped, its index in the burst, the tick it is
scheduled for, the request. -/
structure Beat where
  pkt : Nat
  idx : Nat
  due : Nat
  req : Req
  deriving DecidableEq, Repr

/-- A beat and the value it returned, `none` for a write. -/
structure Served where
  beat : Beat
  data : Option Word
  deriving DecidableEq, Repr

inductive Event where
  | beat (b : Beat)
  | send
  deriving DecidableEq, Repr

structure State where
  base : BaseMemory
  pending : Nat → Option Tracker
  respQ : List Packet
  now : Nat
  /-- Whether `step` was called in this tick. -/
  stepped : Bool
  /-- The scheduled events with their ticks. -/
  events : List (Nat × Event)
  popped : List (Nat × Packet)
  served : List Served
  sent : List Packet

/-! ## The functions of the module -/

def trySendResponse (port : Port) (s : State) : State :=
  let r := drain port s.respQ
  { s with respQ := r.1, sent := s.sent ++ r.2 }

def State.schedule (s : State) (events : List (Nat × Event)) : State := { s with events := s.events ++ events }

/-- The beats of the packet at position `k`, popped at tick `now`. -/
def beatsOf (lat now k : Nat) (reqs : List Req) : List Beat :=
  reqs.zipIdx.map fun r => ⟨k, r.2, now + r.2 + lat, r.1⟩

/-- What `step` does with a popped request of the given beats. -/
def acceptBurst (lat : Nat) (pkt : Packet) (tid burstSize : Nat) (reqs : List Req) (s : State) :
    Except Fault State :=
  if reqs.length ≠ burstSize then .error .assertion
  else
    let tk := (s.pending tid).getD {}
    .ok ({ s with
          pending := Function.update s.pending tid (some { tk with expected := reqs.length })
          popped := s.popped ++ [(s.now, pkt)] }.schedule
      ((beatsOf lat s.now s.popped.length reqs).map (fun b : Beat => (b.due, Event.beat b)) ++
        [(s.now + burstSize + 1 + lat, Event.send)]))

/-- The requests a packet carries. -/
def Packet.reqs : Packet → List Req
  | .readReq p => p.payloads.map .read
  | .writeReq p => p.payloads.map .write
  | _ => []

def acceptPacket (lat : Nat) (pkt : Packet) (s : State) : Except Fault State :=
  match pkt with
  | .readReq p => acceptBurst lat pkt p.tid p.burstSize (p.payloads.map .read) s
  | .writeReq p => acceptBurst lat pkt p.tid p.burstSize (p.payloads.map .write) s
  -- neither cast succeeds: `burst_size` is still `-1`
  | _ => .ok ({ s with popped := s.popped ++ [(s.now, pkt)] }.schedule [(s.now + lat, Event.send)])

/-- `DataMemory::step` in a tick in which the slave port holds `pkt`. -/
def dmStep (lat : Nat) (port : Port) (pkt : Option Packet) (s : State) : Except Fault State :=
  let s := if s.respQ.isEmpty then s else trySendResponse port s
  match pkt with
  | none => .ok s
  | some pkt => acceptPacket lat pkt s

/-- The response packet of a burst leaves its tracker for the queue once the last beat is in. -/
def State.collect (s : State) (tid : Nat) (tk : Tracker) (beats : Nat) (resp : Packet) : State :=
  if beats = tk.expected then
    { s with pending := Function.update s.pending tid none, respQ := s.respQ ++ [resp] }
  else { s with pending := Function.update s.pending tid (some tk) }

/-- The new state and the value returned. -/
def memReadReqHandler (p : ReadReq) (s : State) : Except Fault (State × Word) := do
  let ret ← s.base.memRead p.op p.addr
  let resp : ReadResp := { tid := p.tid, instr := p.instr, op := p.op, data := ret, a1 := p.a1 }
  let tk := (s.pending p.tid).getD {}
  let tk := { tk with expected := max tk.expected 1, rbeats := tk.rbeats ++ [resp] }
  let pkt := (constructMemReadRespPkt tk.rbeats .dm p.caller 0).setTID p.tid
  return (s.collect p.tid tk tk.rbeats.length (.readResp pkt), ret)

def memWriteReqHandler (p : WriteReq) (s : State) : Except Fault State := do
  let base ← s.base.memWrite p.op p.addr p.data
  let resp : WriteResp := { tid := p.tid, instr := p.instr }
  let tk := (s.pending p.tid).getD {}
  let tk := { tk with expected := max tk.expected 1, wbeats := tk.wbeats ++ [resp] }
  let pkt := (constructMemWriteRespPkt tk.wbeats .dm p.caller 0).setTID p.tid
  return { s with base }.collect p.tid tk tk.wbeats.length (.writeResp pkt)

/-! ## Runs -/

def State.logServed (s : State) (b : Beat) (data : Option Word) : State :=
  { s with served := s.served ++ [⟨b, data⟩] }

/-- A scheduled event runs. -/
def process (port : Port) (e : Event) (s : State) : Except Fault State :=
  match e with
  | .send => .ok (trySendResponse port s)
  | .beat b =>
    match b.req with
    | .read p => do
      let (s, v) ← memReadReqHandler p s
      return s.logServed b (some v)
    | .write p => do
      let s ← memWriteReqHandler p s
      return s.logServed b none

inductive Act where
  /-- `step`, and the packet the slave port holds. -/
  | dmStep (port : Port) (pkt : Option Packet)
  /-- The scheduled event at position `k`, which is due. -/
  | event (k : Nat) (port : Port)
  /-- `masterPortRetry`. -/
  | retry (port : Port)
  /-- The next tick, when no event is due any more. -/
  | tick

def step (lat : Nat) (s : State) : Act → Outcome Fault State
  | .dmStep port pkt =>
    if s.stepped then .blocked else .ofExcept (dmStep lat port pkt { s with stepped := true })
  | .event k port =>
    match s.events[k]? with
    | none => .blocked
    | some (due, e) =>
      if due ≠ s.now then .blocked
      else .ofExcept (process port e { s with events := s.events.eraseIdx k })
  | .retry port => .next (trySendResponse port s)
  | .tick =>
    if s.events.any (·.1 ≤ s.now) then .blocked else .next { s with now := s.now + 1, stepped := false }

def init (base : BaseMemory) : State where
  base := base
  pending := fun _ => none
  respQ := []
  now := 0
  stepped := false
  events := []
  popped := []
  served := []
  sent := []

end SocModel.DataMem
