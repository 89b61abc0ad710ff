import SocModel.Sa.Load

/-!
# A multiplication and its DMA

The systolic array programs the DMA and polls it over the crossbar, which keeps the order of the requests of one
master to one slave, and of the responses. The DMA answers register accesses as in its own model; a transfer it was
enabled for is under way until it has copied its rectangle exactly, and then it is complete. Other masters poll
STATUS meanwhile.

* `access` : the DMA takes a request, `Sys.transferred` : a transfer completes, `step` : the actions of a run;
* `View` : what of a state matters to a multiplication;
* `view_trySend`, `view_status`, `view_statusRead` : what the rest of the system does leaves the view alone.
-/

namespace SocModel.Sa

open Lib Bus Dma

structure Sys where
  sa : State
  /-- The requests the DMA has not taken yet. -/
  wire : List Packet
  dma : Dma.State
  dm : Store

/-- A write of a register of the DMA; after ENABLE the transfer is under way. -/
def writeDma (d : Dma.State) (addr data : Word) : Except Fault Dma.State :=
  if addr.toNat % 64 = 0 then .ok (if data.getLsbD 0 then { d with enabled := true, done := false } else d)
  else Dma.writeRegister (fun _ => ⟨false, true⟩) d (addr.toNat % 64) data

/-- The DMA serves a request for its registers. -/
def access (recycled : Nat) (d : Dma.State) : Packet → Except Fault Dma.State
  | .readReq p =>
    match p.payloads with
    | [q] => Dma.readMmio q recycled d
    | _ => .error .assertion
  | .writeReq p =>
    match p.payloads with
    | [q] => do
      let d ← writeDma d q.addr q.data
      respond q.caller
        (.writeResp (constructMemWriteRespPkt [{ tid := q.tid, instr := q.instr }] .dma q.caller recycled)) d
    | _ => .error .assertion
  | _ => .error .assertion

/-- The rectangle is copied and DONE is set. -/
def Sys.transferred (s : Sys) : Sys :=
  let r := transfer (srcRect s.dma) (dstRect s.dma) s.dm s.sa.sram
  { s with sa := { s.sa with sram := r.2 }, dma := transactionComplete s.dma, dm := r.1 }

/-- A poll of STATUS. -/
def statusPoll (i : Instr) (op : InstrType) (a1 : Operand) (caller : Caller) (tid : Nat) : Burst ReadReq :=
  constructMemReadpktNonBurst i op 0x12004 a1 caller tid

inductive SysAct where
  | trySend (req resp : Port)
  | access (recycled : Nat)
  | transfer
  | deliver
  | status (i : Instr) (op : InstrType) (a1 : Operand) (caller : Caller) (tid : Nat)
  | event (k recycled : Nat)
  | tile (k : Nat) (ghost : Nat → Valid8)

/-- An action of the systolic array alone. -/
def Sys.onSa (s : Sys) (a : Act) : Outcome Fault Sys := (step s.sa a).bind fun sa => .next { s with sa }

def sysStep (s : Sys) : SysAct → Outcome Fault Sys
  | .trySend req resp => .next { s with
    sa := trySendPacket req resp s.sa
    wire := s.wire ++ (drainUnchecked req s.sa.reqQ).2 }
  | .access recycled =>
    match s.wire with
    | [] => .blocked
    | p :: ps => (Outcome.ofExcept (access recycled s.dma p)).bind fun dma => .next { s with dma, wire := ps }
  | .transfer => if s.dma.enabled then .next s.transferred else .blocked
  | .deliver =>
    match s.dma.respQ with
    | [] => .blocked
    | p :: ps => { s with dma := { s.dma with respQ := ps } }.onSa (.accept p)
  | .status i op a1 caller tid => s.onSa (.accept (.readReq (statusPoll i op a1 caller tid)))
  | .event k recycled => s.onSa (.event k recycled)
  | .tile k ghost => s.onSa (.tile k ghost)

/-- No request is lost in a register that reports no stall and refuses it. -/
def NoRefusal (s : Sys) : SysAct → Prop
  | .trySend req _ => ¬ (s.sa.reqQ ≠ [] ∧ req.refuses = true)
  | _ => True

/-! ## The view -/

structure View where
  config : Config
  work : Work
  phase : Phase
  sram : Store
  dm : Store
  /-- The requests on their way to the DMA. -/
  channel : List Packet
  dma : Dma.State
  /-- The polls that are scheduled. -/
  polls : Nat

def Sys.view (s : Sys) : View where
  config := s.sa.config
  work := s.sa.work
  phase := s.sa.phase
  sram := s.sa.sram
  dm := s.dm
  channel := s.wire ++ s.sa.reqQ
  dma := s.dma
  polls := s.sa.events.count .poll

/-- A read of STATUS is scheduled. -/
def StatusRead (e : Event) : Prop := ∃ q, e = .readMmio q ∧ Register.ofAddr q.addr = some .status

/-- Besides polls only reads of STATUS are scheduled. -/
def Quiet (s : Sys) : Prop := ∀ e ∈ s.sa.events, e = .poll ∨ StatusRead e

theorem view_trySend {s : Sys} {req resp : Port} (hc : NoRefusal s (.trySend req resp)) :
    Sys.view { s with
      sa := trySendPacket req resp s.sa
      wire := s.wire ++ (drainUnchecked req s.sa.reqQ).2 } = s.view := by
  have hq := (drainUnchecked_append req s.sa.reqQ).mpr hc
  have hchannel : (s.wire ++ (drainUnchecked req s.sa.reqQ).2) ++ (drainUnchecked req s.sa.reqQ).1 =
      s.wire ++ s.sa.reqQ := by rw [List.append_assoc, hq]
  exact congrArg (fun q => { s.view with channel := q }) hchannel

theorem status_addr : toSram 0x12004 = false ∧ Register.ofAddr 0x12004 = some .status := by
  decide

theorem accept_status (s : State) (i : Instr) (op : InstrType) (a1 : Operand) (caller : Caller) (tid : Nat) :
    accept s (.readReq (statusPoll i op a1 caller tid)) =
      .ok ((s.expect tid 1).schedule [.readMmio { caller, tid, instr := i, op, addr := 0x12004, a1 }]) := by
  simp [accept, acceptRead, statusPoll, constructMemReadpktNonBurst, Burst.burstSize,
    show toSram 73732#32 = false from status_addr.1]

/-- A poll of STATUS arrives. -/
theorem view_status {s : Sys} (hq : Quiet s) (i : Instr) (op : InstrType) (a1 : Operand) (caller : Caller)
    (tid : Nat) :
    ∃ t, sysStep s (.status i op a1 caller tid) = .next t ∧ t.view = s.view ∧ Quiet t := by
  refine ⟨_, by rw [sysStep, Sys.onSa, step, accept_status, Outcome.ofExcept_ok, Outcome.bind_next], ?_,
    fun e he => ?_⟩
  · have hcount : (s.sa.events ++ [Event.readMmio { caller, tid, instr := i, op, addr := 0x12004, a1 }]).count .poll =
        s.sa.events.count .poll := by
      rw [List.count_append, List.count_singleton]
      rfl
    exact congrArg (fun n => { s.view with polls := n }) hcount
  · rcases List.mem_append.mp he with he | he
    · exact hq e he
    · exact .inr ⟨_, List.mem_singleton.mp he, status_addr.2⟩

theorem readMmio_status {q : ReadReq} (h : Register.ofAddr q.addr = some .status) (recycled : Nat) (s : State) :
    ∃ p, readMmio q recycled s = .ok (s.respond p) := by
  unfold readMmio
  rw [h]
  exact ⟨_, rfl⟩

theorem count_eraseIdx {l : List Event} {k : Nat} {e : Event} (hk : l[k]? = some e) :
    l.count .poll = (l.eraseIdx k).count .poll + if e = .poll then 1 else 0 := by
  obtain ⟨hlt, rfl⟩ := List.getElem?_eq_some_iff.mp hk
  rw [← (List.getElem_cons_eraseIdx_perm hlt).count_eq, List.count_cons]
  simp only [beq_iff_eq]

/-- A scheduled read of STATUS is answered. -/
theorem view_statusRead {s : Sys} (hq : Quiet s) {k : Nat} {e : Event} (hk : s.sa.events[k]? = some e)
    (he : e ≠ .poll) (recycled : Nat) :
    ∃ t, sysStep s (.event k recycled) = .next t ∧ t.view = s.view ∧ Quiet t := by
  obtain rfl | ⟨q, rfl, hstatus⟩ := hq e (List.mem_of_getElem? hk)
  · exact absurd rfl he
  · obtain ⟨p, hp⟩ := readMmio_status hstatus recycled { s.sa with events := s.sa.events.eraseIdx k }
    have hcount := count_eraseIdx hk
    rw [if_neg he] at hcount
    refine ⟨{ s with sa := { s.sa with events := s.sa.events.eraseIdx k }.respond p }, ?_, ?_, fun e' he' => ?_⟩
    · simp only [sysStep, Sys.onSa, step, hk, runEvent, hp, Outcome.ofExcept_ok, Outcome.bind_next]
    · exact congrArg (fun n => { s.view with polls := n }) hcount.symm
    · exact hq e' (List.mem_of_mem_eraseIdx he')

end SocModel.Sa
