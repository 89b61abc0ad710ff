import SocModel.DataMem.Model
import SocModel.Dma.Model
import SocModel.Sa.Model

/-!
# The outbound queues of the three slaves

The systolic array, the DMA and the data memory each have a queue for responses, the first two also one for
requests. A run is any sequence of packets entering them and of calls of the three drain functions, from whatever
context, each with its own answers of the registers.

* `Sys.box` : a queue with the packets offered to it and the packets transferred out of it;
* `lossless_iff` : all five queues keep every packet in order exactly in the runs in which no drain of the systolic
  array meets a register that reports no stall and refuses the push.
-/

namespace SocModel.Soc

open Lib Bus

inductive Channel where
  | saReq | saResp | dmaReq | dmaResp | dmResp
  deriving DecidableEq, Repr

/-- The three modules, and the packets offered to each queue so far. -/
structure Sys where
  sa : Sa.State
  dma : Dma.State
  dm : DataMem.State
  offered : Channel → List Packet

namespace Sys

def queue (s : Sys) : Channel → List Packet
  | .saReq => s.sa.reqQ
  | .saResp => s.sa.respQ
  | .dmaReq => s.dma.reqQ
  | .dmaResp => s.dma.respQ
  | .dmResp => s.dm.respQ

/-- The packets transferred by a push that returned `true`. -/
def sent (s : Sys) : Channel → List Packet
  | .saReq => s.sa.sentReqs
  | .saResp => s.sa.sentResps
  | .dmaReq => s.dma.sentReqs
  | .dmaResp => s.dma.sentResps
  | .dmResp => s.dm.sent

def box (s : Sys) (c : Channel) : Outbox Packet := ⟨s.offered c, s.queue c, s.sent c⟩

/-- The modules as they are, with what they hold and have sent as the packets offered so far. -/
def observe (sa : Sa.State) (dma : Dma.State) (dm : DataMem.State) : Sys :=
  let s : Sys := ⟨sa, dma, dm, fun _ => []⟩
  { s with offered := fun c => s.sent c ++ s.queue c }

/-- A packet enters a queue. -/
def enqueue (s : Sys) (c : Channel) (p : Packet) : Sys :=
  let s := { s with offered := Function.update s.offered c (s.offered c ++ [p]) }
  match c with
  | .saReq => { s with sa := { s.sa with reqQ := s.sa.reqQ ++ [p] } }
  | .saResp => { s with sa := { s.sa with respQ := s.sa.respQ ++ [p] } }
  | .dmaReq => { s with dma := { s.dma with reqQ := s.dma.reqQ ++ [p] } }
  | .dmaResp => { s with dma := { s.dma with respQ := s.dma.respQ ++ [p] } }
  | .dmResp => { s with dm := { s.dm with respQ := s.dm.respQ ++ [p] } }

end Sys

/-- What happens to the queues. -/
inductive Act where
  | enqueue (c : Channel) (p : Packet)
  /-- The push-or-queue of a write burst in the issue loop of the DMA. -/
  | issue (port : Port) (p : Burst WriteReq)
  | saTrySend (req resp : Port)
  | dmaTrySend (req resp : Port)
  | dmTrySend (resp : Port)

def step (s : Sys) : Act → Outcome Fault Sys
  | .enqueue c p => .next (s.enqueue c p)
  | .issue port p => .next { s with
    dma := Dma.pushOrQueueWrite port p s.dma
    offered :=
      if port.transfers then s.offered
      else Function.update s.offered .dmaReq (s.offered .dmaReq ++ [.writeReq p]) }
  | .saTrySend req resp => .next { s with sa := Sa.trySendPacket req resp s.sa }
  | .dmaTrySend req resp => .next { s with dma := Dma.trySendPacket req resp s.dma }
  | .dmTrySend resp => .next { s with dm := DataMem.trySendResponse resp s.dm }

/-- No drain of the systolic array meets, with a packet to send, a register that reports no stall and refuses. -/
def NoRefusal (s : Sys) : Act → Prop
  | .saTrySend req resp =>
    ¬ (s.sa.reqQ ≠ [] ∧ req.refuses = true) ∧ ¬ (s.sa.respQ ≠ [] ∧ resp.refuses = true)
  | _ => True

/-- Every packet offered to a queue was transferred once or is still queued, in the order of the offers. -/
def Lossless (s : Sys) : Prop := ∀ c, (s.box c).Lossless

theorem lossless_observe (sa : Sa.State) (dma : Dma.State) (dm : DataMem.State) :
    Lossless (.observe sa dma dm) := by
  intro c
  cases c <;> rfl

/-! ## What each action does to a queue -/

theorem box_enqueue (s : Sys) (c c' : Channel) (p : Packet) :
    (s.enqueue c p).box c' = if c' = c then (s.box c).put p else s.box c' := by
  cases c <;> cases c' <;> simp [Sys.enqueue, Sys.box, Sys.queue, Sys.sent, Outbox.put]

theorem handOver_foldl (ps : List Packet) (d : Dma.State) :
    (ps.foldl Dma.State.handOver d).sentReqs = d.sentReqs ∧ (ps.foldl Dma.State.handOver d).sentResps = d.sentResps := by
  induction ps generalizing d with
  | nil => exact ⟨rfl, rfl⟩
  | cons p ps ih =>
    obtain ⟨h1, h2⟩ := ih (d.handOver p)
    cases p <;> exact ⟨h1, h2⟩

theorem box_dmaTrySend (s : Sys) (req resp : Port) (c : Channel) :
    ({ s with dma := Dma.trySendPacket req resp s.dma } : Sys).box c =
      match c with
      | .dmaReq => (s.box c).after (drain req (s.queue c))
      | .dmaResp => (s.box c).after (drain resp (s.queue c))
      | _ => s.box c := by
  obtain ⟨h1, h2⟩ := handOver_foldl (drain req s.dma.reqQ).2 s.dma
  cases c <;> simp [Sys.box, Sys.queue, Sys.sent, Outbox.after, Dma.trySendPacket, h1, h2]

theorem box_saTrySend (s : Sys) (req resp : Port) (c : Channel) :
    ({ s with sa := Sa.trySendPacket req resp s.sa } : Sys).box c =
      match c with
      | .saReq => (s.box c).after (drainUnchecked req (s.queue c))
      | .saResp => (s.box c).after (drainUnchecked resp (s.queue c))
      | _ => s.box c := by
  cases c <;> rfl

theorem box_dmTrySend (s : Sys) (resp : Port) (c : Channel) :
    ({ s with dm := DataMem.trySendResponse resp s.dm } : Sys).box c =
      match c with
      | .dmResp => (s.box c).after (drain resp (s.queue c))
      | _ => s.box c := by
  cases c <;> rfl

theorem step_issue (s : Sys) (port : Port) (p : Burst WriteReq) :
    ∃ t, step s (.issue port p) = .next t ∧
      ∀ c, t.box c = if c = .dmaReq ∧ port.transfers = false then (s.box c).put (.writeReq p) else s.box c := by
  refine ⟨_, rfl, fun c => ?_⟩
  cases hp : port.transfers <;> cases c <;>
    simp [hp, Dma.pushOrQueueWrite, Dma.State.handOver, Sys.box, Sys.queue, Sys.sent, Outbox.put]

/-! ## Runs -/

theorem lossless_step {s t : Sys} {a : Act} (h : Lossless s) (hc : NoRefusal s a) (hs : step s a = .next t) :
    Lossless t := by
  intro c
  cases a with
  | enqueue c' p =>
    obtain rfl := Outcome.next.inj hs
    rw [box_enqueue]
    split
    · exact Outbox.lossless_put (h c') p
    · exact h c
  | issue port p =>
    obtain ⟨t', ht, hbox⟩ := step_issue s port p
    obtain rfl := Outcome.next.inj (ht.symm.trans hs)
    rw [hbox]
    split
    · exact Outbox.lossless_put (h c) _
    · exact h c
  | saTrySend req resp =>
    obtain rfl := Outcome.next.inj hs
    rw [box_saTrySend]
    cases c with
    | saReq => exact (Outbox.lossless_drainUnchecked (h .saReq) req).mpr hc.1
    | saResp => exact (Outbox.lossless_drainUnchecked (h .saResp) resp).mpr hc.2
    | dmaReq | dmaResp | dmResp => exact h _
  | dmaTrySend req resp =>
    obtain rfl := Outcome.next.inj hs
    rw [box_dmaTrySend]
    cases c with
    | dmaReq => exact Outbox.lossless_drain (h .dmaReq) req
    | dmaResp => exact Outbox.lossless_drain (h .dmaResp) resp
    | saReq | saResp | dmResp => exact h _
  | dmTrySend resp =>
    obtain rfl := Outcome.next.inj hs
    rw [box_dmTrySend]
    cases c with
    | dmResp => exact Outbox.lossless_drain (h .dmResp) resp
    | saReq | saResp | dmaReq | dmaResp => exact h _

/-- A refused drain loses its packet at once. -/
theorem not_lossless_step {s t : Sys} {a : Act} (h : Lossless s) (hc : ¬ NoRefusal s a)
    (hs : step s a = .next t) : ¬ Lossless t := by
  intro ht
  cases a with
  | saTrySend req resp =>
    obtain rfl := Outcome.next.inj hs
    refine hc ⟨?_, ?_⟩
    · have := ht .saReq
      rw [box_saTrySend] at this
      exact (Outbox.lossless_drainUnchecked (h .saReq) req).mp this
    · have := ht .saResp
      rw [box_saTrySend] at this
      exact (Outbox.lossless_drainUnchecked (h .saResp) resp).mp this
  | enqueue | issue | dmaTrySend | dmTrySend => exact hc trivial

/-- **Main result.** For every state of the modules and every sequence of enqueues and drains: the five queues lose
nothing and keep their order if and only if no drain of the systolic array meets a refusing register. -/
theorem lossless_iff (sa : Sa.State) (dma : Dma.State) (dm : DataMem.State) (as : List Act) :
    Always step (fun _ => True) Lossless (.observe sa dma dm) as ↔ Along step NoRefusal (.observe sa dma dm) as := by
  refine always_iff_along (fun _ h => h) (fun _ _ _ h hc hs => lossless_step h hc hs) (fun s a e _ hs => ?_)
    (fun _ _ _ h hc hs => not_lossless_step h hc hs) as (lossless_observe sa dma dm)
  cases a <;> simp [step] at hs

/-- A response in the queue of the systolic array. -/
def waiting : Packet := .writeResp (constructMemWriteRespPkt [{ tid := 0, instr := {} }] .sa .cpu 0)

/-- The response is popped by the drain whose push returns `false`. -/
theorem lossless_refused : ¬ ∀ (sa : Sa.State) (dma : Dma.State) (dm : DataMem.State) (as : List Act),
    Always step (fun _ => True) Lossless (.observe sa dma dm) as := by
  intro h
  have hr := h Sa.init Dma.init (DataMem.init ⟨0, fun _ => 0⟩)
    [.enqueue .saResp waiting, .saTrySend ⟨true, false⟩ ⟨false, false⟩]
  exact absurd (hr.2.2 .saResp) (by decide +kernel)

end SocModel.Soc
