import SocModel.DataMem.Confined
import SocModel.Dma.Handover
import SocModel.Soc.CpuMemory

/-!
# The DMA controller and the data memory

A transfer of the DMA with the data memory that answers it, and the crossbar between them, which may deliver the requests
and the responses in any order. Everything else is the environment's choice too: what a register answers to a push, when a
call of the DMA runs, and the order of the events of a tick.

* `DmaMemory.step` : the actions, `DmaMemory.start` : the write of ENABLE;
* `Placed` : the words of a transfer are in the memory, the ones it reads apart from the ones it writes;
* `Carried` : every burst is in one place, and every answer is to a burst without one;
* `Carried.step` : every action keeps it, `Carried.ne_fault` : and none of them faults.
-/

namespace SocModel.Soc

open Lib Bus
open Dma (Transfer Streaming Asking Asks handed settled)

structure DmaMemory where
  dma : Dma.State
  /-- The requests on their way to the data memory. -/
  requests : List Packet
  dm : DataMem.State
  /-- The responses on their way to the DMA. -/
  responses : List Packet
  /-- The responses that have reached it. -/
  delivered : List Packet

namespace DmaMemory

/-- What can happen next. `call`: the scheduled call of the DMA at position `k`; `deliver`: the response at position `k`
reaches it; `dmStep`: a tick of the data memory, with the request at position `k` or none. -/
inductive Act where
  | trySend (req resp : Port)
  | call (k : Nat) (ports : Nat → Port)
  | deliver (k : Nat) (ports : Nat → Port)
  | dmStep (port : Port) (k : Option Nat)
  | event (k : Nat) (port : Port)
  | retry (port : Port)
  | tick

/-- `DMAController::step` with a response at the slave port. -/
def receive (ports : Nat → Port) (p : Packet) (s : Dma.State) : Except Fault Dma.State :=
  match p with
  | .readResp q => Dma.handleReadResponse q s
  | .writeResp _ => Dma.handleWriteCompletion ports s
  | _ => .error .assertion

/-- The burst that the response answers is not on the bus any more. -/
def settle (p : Packet) (s : Dma.State) : Dma.State :=
  match p with
  | .readResp q => { s with outReads := s.outReads.eraseIdx (s.outReads.findIdx (·.tid = q.tid)) }
  | .writeResp q => { s with outWrites := s.outWrites.eraseIdx (s.outWrites.findIdx (·.tid = q.tid)) }
  | _ => s

/-- A call of the DMA that finds `d`: the bursts it hands over enter the crossbar. -/
def onDma (s : DmaMemory) (d : Dma.State) (o : Outcome Fault Dma.State) : Outcome Fault DmaMemory :=
  o.bind fun dma => .next { s with dma, requests := s.requests ++ (handed d dma).filter (dstIdx · = getIndex .dm) }

/-- An action of the data memory; the responses it sends enter the crossbar. -/
def onDm (lat : Nat) (s : DmaMemory) (a : DataMem.Act) : Outcome Fault DmaMemory :=
  (DataMem.step lat s.dm a).bind fun dm =>
    .next { s with dm, responses := s.responses ++ dm.sent.drop s.dm.sent.length }

def step (lat : Nat) (s : DmaMemory) : Act → Outcome Fault DmaMemory
  | .trySend req resp => s.onDma s.dma (Dma.busStep s.dma (.trySend req resp))
  | .call k ports => s.onDma s.dma (Dma.busStep s.dma (.event k ports))
  | .deliver k ports =>
    match s.responses[k]? with
    | none => .blocked
    | some p => { s with responses := s.responses.eraseIdx k, delivered := s.delivered ++ [p] }.onDma (settle p s.dma)
      (.ofExcept (receive ports p (settle p s.dma)))
  | .dmStep port none => s.onDm lat (.dmStep port none)
  | .dmStep port (some k) =>
    match s.requests[k]? with
    | none => .blocked
    | some p => { s with requests := s.requests.eraseIdx k }.onDm lat (.dmStep port (some p))
  | .event k port => s.onDm lat (.event k port)
  | .retry port => s.onDm lat (.retry port)
  | .tick => s.onDm lat .tick

/-- ENABLE is written in the state `s`, beside a data memory with the bytes of `m`. -/
def start (ports : Nat → Port) (s : Dma.State) (m : BaseMemory) : Except Fault DmaMemory := do
  let d ← Dma.writeRegister ports s 0x0 1
  return ⟨d, (handed s d).filter (dstIdx · = getIndex .dm), DataMem.init m, [], []⟩

end DmaMemory

/-! ## The words of a transfer in the memory -/

/-- The words of the transfer are in the data memory `m`, which has `mem` where the transfer reads; it reads no byte that it
writes, and `v` has the bytes it writes. -/
structure Placed (m : BaseMemory) (v : Store) (mem : Word → Word) (r : Transfer) : Prop where
  read : ∀ g < r.words, m.memRead .LW (r.readAddr g) = .ok (mem (r.readAddr g))
  write : ∀ g < r.words, (r.writeAddr g).toNat + 4 ≤ m.size
  value : ∀ g < r.words, ∀ x ∈ range (r.writeAddr g).toNat 4, ∀ s : Store,
    store s (r.writeAddr g).toNat 4 (mem (r.readAddr g)).toNat x = v x
  apart : ∀ g < r.words, ∀ g' < r.words, Disjoint (range (r.readAddr g).toNat 4) (range (r.writeAddr g').toNat 4)
  slave : ∀ g < r.words, slaveIndex (r.readAddr g) = getIndex .dm ∧ slaveIndex (r.writeAddr g) = getIndex .dm

section

variable {m : BaseMemory} {v : Store} {mem : Word → Word} {r : Transfer} {p : Packet}

theorem Placed.dst (hm : Placed m v mem r) (h : Asks r mem p) : dstIdx p = getIndex .dm := by
  rcases h with ⟨-, -, ⟨g, hg, hd⟩, -⟩ | ⟨-, -, ⟨g, hg, hd⟩, -⟩
  · exact hd.trans (hm.slave g hg).1
  · exact hd.trans (hm.slave g hg).2

theorem Placed.agrees (hm : Placed m v mem r) (h : Asks r mem p) {q : DataMem.Req} (hq : q ∈ DataMem.Packet.reqs p) :
    q.Agrees v := by
  rcases h.req_cases hq with ⟨a, g, rfl, -⟩ | ⟨a, g, rfl, hg, hop, haddr, hdata⟩
  · trivial
  · dsimp only [DataMem.Req.Agrees]
    rw [hop, haddr, hdata]
    exact hm.value g hg

theorem Placed.inRange (hm : Placed m v mem r) (h : Asks r mem p) {q : DataMem.Req}
    (hq : q ∈ DataMem.Packet.reqs p) : InRange m.size q := by
  rcases h.req_cases hq with ⟨a, g, rfl, hg, hop, haddr⟩ | ⟨a, g, rfl, hg, hop, haddr, -⟩
  · dsimp only [InRange]
    rw [hop, haddr]
    exact (BaseMemory.memRead_eq_ok.mp (hm.read g hg)).1
  · dsimp only [InRange]
    rw [hop, haddr]
    exact hm.write g hg

end

/-! ## Where the bursts are -/

/-- The requests that left the DMA: those on their way, and those the data memory has popped. -/
def DmaMemory.left (s : DmaMemory) : List Packet := s.requests ++ s.dm.popped.map (·.2)

/-- Every burst of the transfer is queued, on its way or popped, under an id of its own; the ones that left are those without
an answer and those whose answer reached the DMA, and the other answers of the data memory are on their way. -/
structure Carried (lat : Nat) (m : BaseMemory) (mem : Word → Word) (r : Transfer) (n : Nat) (s : DmaMemory) : Prop where
  streaming : ∃ ph, Streaming mem r ph s.dma
  asking : Asking mem r n s.dma
  inv : DataMem.Inv lat m s.dm
  tracked : DataMem.Tracked s.dm
  places : (s.left ++ s.dma.reqQ).Perm (s.dma.issued.drop r.first)
  waits : (s.left.map Packet.tid).Perm ((Dma.onBus s.dma ++ s.delivered).map Packet.tid)
  onBus : ∀ p ∈ Dma.onBus s.dma, p ∈ s.dma.issued.drop r.first
  answers : s.dm.sent.Perm (s.responses ++ s.delivered)

section

variable {lat : Nat} {m : BaseMemory} {v : Store} {mem : Word → Word} {r : Transfer} {n : Nat} {s : DmaMemory}

theorem Asking.nodup {d : Dma.State} (h : Asking mem r n d) : ((d.issued.drop r.first).map Packet.tid).Nodup := by
  rw [h.tids]
  exact List.nodup_range'

/-- The id tells which burst it is. -/
theorem Asking.eq_of_tid {d : Dma.State} (h : Asking mem r n d) {p p' : Packet} (hp : p ∈ d.issued.drop r.first)
    (hp' : p' ∈ d.issued.drop r.first) (htid : p.tid = p'.tid) : p = p' :=
  List.inj_on_of_nodup_map (Asking.nodup h) hp hp' htid

theorem Asking.distinct {d : Dma.State} (h : Asking mem r n d) {requests : List Packet} {popped : List (Nat × Packet)}
    {queue : List Packet} (hp : (requests ++ popped.map (·.2) ++ queue).Perm (d.issued.drop r.first)) :
    DataMem.Distinct popped := by
  have hnodup := ((hp.map Packet.tid).nodup_iff).mpr (Asking.nodup h)
  simp only [List.map_append, List.map_map] at hnodup
  refine ⟨fun x hx => ⟨_, (h.asks x.2 (hp.subset ?_)).request⟩, ?_⟩
  · exact List.mem_append_left _ (List.mem_append_right _ (List.mem_map_of_mem hx))
  · exact hnodup.of_append_left.of_append_right

namespace Carried

theorem left_subset (h : Carried lat m mem r n s) : ∀ p ∈ s.left, p ∈ s.dma.issued.drop r.first :=
  fun _ hp => h.places.subset (List.mem_append_left _ hp)

theorem distinct (h : Carried lat m mem r n s) : DataMem.Distinct s.dm.popped := Asking.distinct h.asking h.places

theorem popped_asks (h : Carried lat m mem r n s) {k : Nat} {x : Nat × Packet} (hk : s.dm.popped[k]? = some x) :
    x.2 ∈ s.left ∧ Asks r mem x.2 := by
  have hmem : x.2 ∈ s.left := List.mem_append_right _ (List.mem_map_of_mem (List.mem_of_getElem? hk))
  exact ⟨hmem, h.asking.asks _ (h.left_subset _ hmem)⟩

/-! ## Calls of the DMA -/

/-- A call of the DMA; the answers on their way may change by the one that it takes. -/
theorem call (h : Carried lat m mem r n s) (hm : Placed m v mem r) {a : Dma.BusAct} {d : Dma.State}
    {responses delivered : List Packet} (hs : Dma.busStep s.dma a = .next d) (hc : Dma.Undisturbed mem s.dma (.bus a))
    (hw : ((Dma.onBus (settled s.dma a) ++ delivered).map Packet.tid).Perm ((Dma.onBus s.dma ++ s.delivered).map Packet.tid))
    (ha : (responses ++ delivered).Perm (s.responses ++ s.delivered)) :
    Carried lat m mem r n
      ⟨d, s.requests ++ (handed (settled s.dma a) d).filter (dstIdx · = getIndex .dm), s.dm, responses, delivered⟩ := by
  obtain ⟨ph, hst⟩ := h.streaming
  obtain ⟨ph', hmove, hat⟩ := hst.phase.move hs
  have hasks : ∀ p ∈ s.dma.reqQ, Asks r mem p := fun p hp =>
    h.asking.asks p (h.places.subset (List.mem_append_right _ hp))
  have hands := hmove.hands fun p hp => (hasks p hp).isRequest
  have hqueue : (settled s.dma a).reqQ = s.dma.reqQ := by cases a <;> rfl
  have hperm := hands.queue
  rw [hqueue] at hperm
  have hdrop : d.issued.drop r.first = s.dma.issued.drop r.first ++ Dma.newBursts s.dma a ph ph' := by
    rw [hmove.issued, List.drop_append_of_le_length h.asking.first]
  have hasking := h.asking.move hst hmove hat
  have hhanded : ∀ p ∈ handed (settled s.dma a) d, p ∈ d.issued.drop r.first := by
    intro p hp
    rw [hdrop]
    rcases List.mem_append.mp (hperm.subset (List.mem_append_left _ hp)) with hp | hp
    · exact List.mem_append_left _ (h.places.subset (List.mem_append_right _ hp))
    · exact List.mem_append_right _ hp
  have hfilter : (handed (settled s.dma a) d).filter (dstIdx · = getIndex .dm) = handed (settled s.dma a) d :=
    List.filter_eq_self.mpr fun p hp => decide_eq_true (hm.dst (hasking.asks p (hhanded p hp)))
  have hbus := hands.onBus
  rw [hfilter]
  refine ⟨⟨ph', hst.move hc hmove hat⟩, hasking, h.inv, h.tracked, ?_, ?_, ?_, h.answers.trans ha.symm⟩
  · have hplaces := h.places
    rw [hdrop]
    unfold DmaMemory.left at hplaces ⊢
    rw [List.perm_iff_count] at hperm hplaces ⊢
    intro p
    have h1 := hperm p
    have h2 := hplaces p
    simp only [List.count_append] at h1 h2 ⊢
    omega
  · have hwaits := h.waits
    have hbus := hbus.map Packet.tid
    unfold DmaMemory.left at hwaits ⊢
    rw [List.perm_iff_count] at hwaits hw hbus ⊢
    intro i
    have h1 := hwaits i
    have h2 := hw i
    have h3 := hbus i
    simp only [List.map_append, List.count_append] at h1 h2 h3 ⊢
    omega
  · intro p hp
    rcases List.mem_append.mp (hbus.subset hp) with hp | hp
    · rw [hdrop]
      exact List.mem_append_left _ (h.onBus p (Dma.onBus_settled_subset _ a p hp))
    · exact hhanded p hp

/-! ## Actions of the data memory -/

/-- An action of the data memory, which pops a request on its way or none. -/
theorem onDm (h : Carried lat m mem r n s) {requests : List Packet} {a : DataMem.Act} {dm : DataMem.State}
    (hs : DataMem.step lat s.dm a = .next dm) (hr : (requests ++ a.pops).Perm s.requests) :
    Carried lat m mem r n
      ⟨s.dma, requests, dm, s.responses ++ dm.sent.drop s.dm.sent.length, s.delivered⟩ := by
  obtain ⟨⟨new, hnew⟩, hpop⟩ := DataMem.step_records hs
  have hleft : (requests ++ dm.popped.map (·.2)).Perm s.left := by
    unfold DmaMemory.left
    rw [hpop, List.perm_iff_count]
    rw [List.perm_iff_count] at hr
    intro p
    have h1 := hr p
    simp only [List.count_append] at h1 ⊢
    omega
  have hplaces : (requests ++ dm.popped.map (·.2) ++ s.dma.reqQ).Perm (s.dma.issued.drop r.first) :=
    (hleft.append_right _).trans h.places
  refine ⟨h.streaming, h.asking, DataMem.inv_step h.inv hs,
    DataMem.tracked_step (fun _ => h.tracked) h.inv hs (Asking.distinct h.asking hplaces), hplaces,
    (hleft.map _).trans h.waits, h.onBus, ?_⟩
  have hans := h.answers
  rw [← hnew, List.drop_left]
  rw [List.perm_iff_count] at hans ⊢
  intro p
  have h1 := hans p
  simp only [List.count_append] at h1 ⊢
  omega

/-! ## Responses -/

/-- A response on its way answers a burst that waits for it. -/
theorem of_response (h : Carried lat m mem r n s) {p : Packet} (hp : p ∈ s.responses) :
    ∃ k x, s.dm.popped[k]? = some x ∧ DataMem.Answers s.dm.served k x.2 p ∧ x.2 ∈ Dma.onBus s.dma := by
  have hsent : p ∈ s.dm.sent := h.answers.symm.subset (List.mem_append_left _ hp)
  obtain ⟨k, x, hk, -, ha⟩ := h.tracked.of_mem (List.mem_append_left _ hsent)
  refine ⟨k, x, hk, ha, ?_⟩
  have hleft := (h.popped_asks hk).1
  have htid := h.waits.subset (List.mem_map_of_mem hleft)
  rw [List.map_append] at htid
  rcases List.mem_append.mp htid with hbus | hdel
  · obtain ⟨b, hb, hbt⟩ := List.mem_map.mp hbus
    exact Asking.eq_of_tid h.asking (h.onBus b hb) (h.left_subset _ hleft) hbt ▸ hb
  · -- an answer under this id that was delivered already would be a second one
    have hnodup := h.tracked.nodup h.distinct
    rw [List.map_append] at hnodup
    have hnodup := ((h.answers.map Packet.tid).nodup_iff).mp hnodup.of_append_left
    rw [List.map_append] at hnodup
    rw [← ha.tid_eq] at hdel
    exact (List.disjoint_of_nodup_append hnodup (List.mem_map_of_mem hp) hdel).elim

/-- A beat that was served is one of the transfer. -/
theorem served_asks (h : Carried lat m mem r n s) {x : DataMem.Served} (hx : x ∈ s.dm.served) :
    ∃ p, Asks r mem p ∧ x.beat.req ∈ DataMem.Packet.reqs p := by
  obtain ⟨y, hy, hreq⟩ := h.inv.served_req hx
  exact ⟨y.2, (h.popped_asks hy).2, List.mem_of_getElem? hreq⟩

theorem agrees (h : Carried lat m mem r n s) (hm : Placed m v mem r) :
    ∀ b ∈ s.dm.served.map (·.beat), b.req.Agrees v := by
  intro b hb
  obtain ⟨x, hx, rfl⟩ := List.mem_map.mp hb
  obtain ⟨p, hp, hreq⟩ := h.served_asks hx
  exact hm.agrees hp hreq

/-- The memory so far. -/
theorem confined (h : Carried lat m mem r n s) (hm : Placed m v mem r) :
    DataMem.Confined v (DataMem.written (s.dm.served.map (·.beat))) m s.dm.base :=
  DataMem.confined_of_execAll h.inv.ran (h.agrees hm)

/-- A byte that was written is one of a word of the destination, which was written whole. -/
theorem mem_written (h : Carried lat m mem r n s) {a : Nat} (ha : a ∈ DataMem.written (s.dm.served.map (·.beat))) :
    ∃ g < r.words, a ∈ range (r.writeAddr g).toNat 4 ∧
      range (r.writeAddr g).toNat 4 ⊆ DataMem.written (s.dm.served.map (·.beat)) := by
  obtain ⟨b, hb, hwrite, ha⟩ := ha
  obtain ⟨x, hx, rfl⟩ := List.mem_map.mp hb
  obtain ⟨p, hp, hreq⟩ := h.served_asks hx
  rcases hp.req_cases hreq with ⟨q, g, hq, -⟩ | ⟨q, g, hq, hg, hop, haddr, -⟩
  · rw [hq] at hwrite
    cases hwrite
  · have hbytes : x.beat.req.bytes = range (r.writeAddr g).toNat 4 := by
      rw [hq]
      dsimp only [DataMem.Req.bytes]
      rw [hop, haddr]
      rfl
    rw [hbytes] at ha
    exact ⟨g, hg, ha, fun c hc => ⟨_, hb, hwrite, hbytes ▸ hc⟩⟩

/-- What a read returned is what the source held at the start. -/
theorem served_value (h : Carried lat m mem r n s) (hm : Placed m v mem r) {b : DataMem.Beat} {q : ReadReq} {w : Word}
    (hx : ⟨b, some w⟩ ∈ s.dm.served) (hb : b.req = .read q) : w = mem q.addr := by
  obtain ⟨p, hp, hreq⟩ := h.served_asks hx
  rcases hp.req_cases hreq with ⟨q', g, hq, hg, hop, haddr⟩ | ⟨q', g, hq, -⟩
  · obtain rfl : q = q' := DataMem.Req.read.inj (hb.symm.trans hq)
    have hdis : Disjoint (range q.addr.toNat q.op.readWidth) (DataMem.written (s.dm.served.map (·.beat))) := by
      rw [Set.disjoint_right]
      intro a ha
      obtain ⟨g', hg', ha', -⟩ := h.mem_written ha
      rw [hop, haddr]
      exact Set.disjoint_right.mp (hm.apart g hg g' hg') ha'
    obtain ⟨w', hw', hdata⟩ := DataMem.memRead_of_execAll h.inv.ran (h.agrees hm) hx hb hdis
    rw [hop, haddr, hm.read g hg] at hw'
    rw [haddr, Except.ok.inj hw']
    exact Option.some.inj hdata
  · rw [hb] at hq
    cases hq

end Carried

end

theorem findIdx_tid {β : Type} {l : List (Burst β)} {b : Burst β} (hb : b ∈ l) {i : Nat} (hi : b.tid = i) :
    ∃ c, l[l.findIdx (·.tid = i)]? = some c ∧ c ∈ l ∧ c.tid = i := by
  have hlt := List.findIdx_lt_length_of_exists (p := fun b => decide (b.tid = i)) ⟨b, hb, decide_eq_true hi⟩
  refine ⟨l[l.findIdx (·.tid = i)], List.getElem?_eq_getElem hlt, List.getElem_mem hlt, ?_⟩
  exact of_decide_eq_true (List.findIdx_getElem (w := hlt))

theorem perm_eraseIdx {α : Type} {l : List α} {k : Nat} {a : α} (hk : l[k]? = some a) : (a :: l.eraseIdx k).Perm l := by
  obtain ⟨hlt, rfl⟩ := List.getElem?_eq_some_iff.mp hk
  exact List.getElem_cons_eraseIdx_perm hlt

/-- The values are all that the DMA takes from a response. -/
theorem handleReadResponse_congr {p q : Burst ReadResp} (h : p.payloads = q.payloads) (d : Dma.State) :
    Dma.handleReadResponse p d = Dma.handleReadResponse q d := by
  unfold Dma.handleReadResponse
  rw [h]

section

variable {lat : Nat} {m : BaseMemory} {v : Store} {mem : Word → Word} {r : Transfer} {n : Nat} {s : DmaMemory} {p : Packet}

namespace Carried

/-- **A response that reaches the DMA** is the answer of a memory that never changes. -/
theorem take (h : Carried lat m mem r n s) (hm : Placed m v mem r) {p : Packet} (hp : p ∈ s.responses)
    (ports : Nat → Port) : ∃ a, Dma.busStep s.dma a = .ofExcept (DmaMemory.receive ports p (DmaMemory.settle p s.dma)) ∧
      settled s.dma a = DmaMemory.settle p s.dma ∧ Dma.Undisturbed mem s.dma (.bus a) ∧
      ((∃ k data, a = .readResp k data) ∨ ∃ k, a = .writeResp k ports) ∧
      ((Dma.onBus (settled s.dma a) ++ (s.delivered ++ [p])).map Packet.tid).Perm
        ((Dma.onBus s.dma ++ s.delivered).map Packet.tid) := by
  obtain ⟨k, x, hk, ha, hbus⟩ := h.of_response hp
  obtain ⟨now, pkt⟩ := x
  rcases ha with @⟨b, q, -, htid, -, hbeats⟩ | @⟨b, q, -, htid, -, -⟩
  · -- the burst on the bus under the id of the response is the one that it answers
    have hb : b ∈ s.dma.outReads := by
      rcases List.mem_append.mp hbus with hb | hb
      · obtain ⟨c, hc, hcb⟩ := List.mem_map.mp hb
        exact Packet.readReq.inj hcb ▸ hc
      · obtain ⟨c, -, hcb⟩ := List.mem_map.mp hb
        cases hcb
    obtain ⟨c, hget, hc, hct⟩ := findIdx_tid hb htid.symm
    have hcb : c = b := Packet.readReq.inj (Asking.eq_of_tid h.asking
      (h.onBus _ (List.mem_append_left _ (List.mem_map_of_mem hc))) (h.onBus _ hbus) (hct.trans htid))
    subst hcb
    have hpay : q.payloads = (Dma.respondTo c fun a => mem a.addr).payloads := by
      have hq : c.payloads.zipIdx.map (fun a => DataMem.readAnswer a.1 (mem a.1.addr)) = q.payloads := by
        rw [← List.forall₂_eq_eq_eq, List.forall₂_map_left_iff]
        refine hbeats.imp ?_
        rintro a y ⟨due, w, hx, rfl⟩
        rw [h.served_value hm hx rfl]
      rw [← hq]
      show _ = c.payloads.map fun a => DataMem.readAnswer a (mem a.addr)
      conv_rhs => rw [← List.zipIdx_map_fst 0 c.payloads, List.map_map]
      rfl
    refine ⟨.readResp (s.dma.outReads.findIdx (·.tid = q.tid)) fun a => mem a.addr, ?_, rfl, ?_, .inl ⟨_, _, rfl⟩, ?_⟩
    · rw [Dma.busStep_readResp _ hget]
      exact congrArg Outcome.ofExcept (handleReadResponse_congr hpay.symm _)
    · exact fun _ _ _ _ => rfl
    · have hperm := ((perm_eraseIdx hget).map Packet.readReq).map Packet.tid
      unfold Dma.onBus settled
      rw [List.perm_iff_count] at hperm ⊢
      intro i
      have h1 := hperm i
      simp only [List.map_append, List.map_cons, List.map_nil, List.count_append, List.count_cons, List.count_nil] at h1 ⊢
      rw [show (Packet.readResp q).tid = (Packet.readReq c).tid from htid]
      omega
  · have hb : b ∈ s.dma.outWrites := by
      rcases List.mem_append.mp hbus with hb | hb
      · obtain ⟨c, -, hcb⟩ := List.mem_map.mp hb
        cases hcb
      · obtain ⟨c, hc, hcb⟩ := List.mem_map.mp hb
        exact Packet.writeReq.inj hcb ▸ hc
    obtain ⟨c, hget, -, hct⟩ := findIdx_tid hb htid.symm
    refine ⟨.writeResp (s.dma.outWrites.findIdx (·.tid = q.tid)) ports, ?_, rfl, trivial, .inr ⟨_, rfl⟩, ?_⟩
    · exact Dma.busStep_writeResp ports (List.getElem?_eq_some_iff.mp hget).1
    · have hperm := ((perm_eraseIdx hget).map Packet.writeReq).map Packet.tid
      unfold Dma.onBus settled
      rw [List.perm_iff_count] at hperm ⊢
      intro i
      have h1 := hperm i
      simp only [List.map_append, List.map_cons, List.map_nil, List.count_append, List.count_cons, List.count_nil] at h1 ⊢
      rw [show (Packet.writeResp q).tid = (Packet.writeReq c).tid from hct.symm]
      omega

/-! ## Steps -/

theorem onDm_eq_next {a : DataMem.Act} {t : DmaMemory} (hs : s.onDm lat a = .next t) :
    ∃ dm, DataMem.step lat s.dm a = .next dm ∧
      t = { s with dm, responses := s.responses ++ dm.sent.drop s.dm.sent.length } := by
  obtain ⟨dm, hdm, ht⟩ := Outcome.bind_eq_next.mp hs
  exact ⟨dm, hdm, (Outcome.next.inj ht).symm⟩

/-- **One step.** -/
theorem step (h : Carried lat m mem r n s) (hm : Placed m v mem r) {a : DmaMemory.Act} {t : DmaMemory}
    (hs : DmaMemory.step lat s a = .next t) : Carried lat m mem r n t := by
  -- an action of the data memory that pops nothing
  have hquiet : ∀ act : DataMem.Act, act.pops = [] → s.onDm lat act = .next t → Carried lat m mem r n t := by
    intro act hpops hs
    obtain ⟨dm, hdm, rfl⟩ := onDm_eq_next hs
    exact h.onDm hdm (by rw [hpops, List.append_nil])
  -- a call of the DMA that takes no response
  have hcall : ∀ act : Dma.BusAct, settled s.dma act = s.dma → Dma.Undisturbed mem s.dma (.bus act) →
      s.onDma s.dma (Dma.busStep s.dma act) = .next t → Carried lat m mem r n t := by
    intro act hset hun hs
    obtain ⟨d, hd, ht⟩ := Outcome.bind_eq_next.mp hs
    have hc := h.call hm hd hun (by rw [hset]) (.refl (s.responses ++ s.delivered))
    rw [hset] at hc
    exact Outcome.next.inj ht ▸ hc
  rcases a with ⟨req, resp⟩ | ⟨k, ports⟩ | ⟨k, ports⟩ | ⟨port, _ | k⟩ | ⟨k, port⟩ | port | _
  · exact hcall (.trySend req resp) rfl trivial hs
  · exact hcall (.event k ports) rfl trivial hs
  · simp only [DmaMemory.step] at hs
    split at hs
    · cases hs
    next p hk =>
    obtain ⟨a, hbus, hset, hun, -, hperm⟩ := h.take hm (List.mem_of_getElem? hk) ports
    obtain ⟨d, hd, ht⟩ := Outcome.bind_eq_next.mp hs
    have hresp : (s.responses.eraseIdx k ++ (s.delivered ++ [p])).Perm (s.responses ++ s.delivered) := by
      rw [← List.append_assoc]
      exact (List.perm_append_singleton _ _).trans ((perm_eraseIdx hk).append_right _)
    have hc := h.call hm (hbus.trans hd) hun hperm hresp
    rw [hset] at hc
    exact Outcome.next.inj ht ▸ hc
  · exact hquiet _ rfl hs
  · simp only [DmaMemory.step] at hs
    split at hs
    · cases hs
    next p hk =>
    obtain ⟨dm, hdm, ht⟩ := Outcome.bind_eq_next.mp hs
    have hperm : (s.requests.eraseIdx k ++ [p]).Perm s.requests :=
      (List.perm_append_singleton _ _).trans (perm_eraseIdx hk)
    exact Outcome.next.inj ht ▸ h.onDm hdm hperm
  · exact hquiet _ rfl hs
  · exact hquiet _ rfl hs
  · exact hquiet _ rfl hs

/-! ## Faults -/

theorem onDma_ne_fault {d : Dma.State} {o : Outcome Fault Dma.State} {e : Fault} (h : o ≠ .fault e) :
    s.onDma d o ≠ .fault e := Outcome.bind_ne_fault h

theorem onDm_ne_fault {a : DataMem.Act} {e : Fault} (h : DataMem.step lat s.dm a ≠ .fault e) :
    s.onDm lat a ≠ .fault e := Outcome.bind_ne_fault h

/-- The data memory takes every request of the transfer. -/
theorem pop_ne_fault (hp : Asks r mem p) (dm : DataMem.State) (port : Port) (e : Fault) :
    DataMem.step lat dm (.dmStep port (some p)) ≠ .fault e := by
  have haccept : ∀ u : DataMem.State, ∃ t, DataMem.acceptPacket lat p u = .ok t := by
    intro u
    rcases hp with ⟨hsized, -, -, -⟩ | ⟨hsized, -, -, -⟩
    · exact ⟨_, by simp [DataMem.acceptPacket, DataMem.acceptBurst, hsized.recorded]; rfl⟩
    · exact ⟨_, by simp [DataMem.acceptPacket, DataMem.acceptBurst, hsized.recorded]; rfl⟩
  simp only [DataMem.step]
  split
  · simp
  · unfold DataMem.dmStep
    obtain ⟨t, ht⟩ := haccept (if dm.respQ.isEmpty then { dm with stepped := true }
      else DataMem.trySendResponse port { dm with stepped := true })
    simp only [ht]
    simp

/-- A beat that waits finds its bytes in the memory. -/
theorem serves (h : Carried lat m mem r n s) (hm : Placed m v mem r) {b : DataMem.Beat}
    (hb : b ∈ DataMem.pendingBeats s.dm.events) : ∃ m' x, DataMem.serveBeat b s.dm.base = .ok (m', x) := by
  obtain ⟨y, hy, hreq, -⟩ := DataMem.mem_serialBeats.mp (h.inv.all.subset (List.mem_append_right _ hb))
  have hrange := hm.inRange (h.popped_asks hy).2 (List.mem_of_getElem? hreq)
  rw [← (h.confined hm).size] at hrange
  obtain ⟨x, hx, -⟩ := serveBeat_land hrange
  exact ⟨_, x, hx⟩

theorem event_ne_fault (h : Carried lat m mem r n s) (hm : Placed m v mem r) (k : Nat) (port : Port) (e : Fault) :
    DataMem.step lat s.dm (.event k port) ≠ .fault e := by
  simp only [DataMem.step]
  split
  · simp
  next due ev hk =>
  split
  · simp
  rcases ev with b | _
  · obtain ⟨m', x, hx⟩ := h.serves hm (List.mem_filterMap.mpr ⟨_, List.mem_of_getElem? hk, rfl⟩)
    obtain ⟨t, ht⟩ := DataMem.process_of_serveBeat port
      (s := { s.dm with events := s.dm.events.eraseIdx k }) hx
    rw [ht]
    simp
  · simp [DataMem.process]

/-- **No action faults.** -/
theorem ne_fault (h : Carried lat m mem r n s) (hm : Placed m v mem r) (a : DmaMemory.Act) (e : Fault) :
    DmaMemory.step lat s a ≠ .fault e := by
  obtain ⟨ph, hst⟩ := h.streaming
  rcases a with ⟨req, resp⟩ | ⟨k, ports⟩ | ⟨k, ports⟩ | ⟨port, _ | k⟩ | ⟨k, port⟩ | port | _
  · exact onDma_ne_fault hst.phase.ne_fault
  · exact onDma_ne_fault hst.phase.ne_fault
  · simp only [DmaMemory.step]
    split
    · simp
    next p hk =>
    obtain ⟨a, hbus, -⟩ := h.take hm (List.mem_of_getElem? hk) ports
    exact onDma_ne_fault (hbus ▸ hst.phase.ne_fault)
  · refine onDm_ne_fault ?_
    simp only [DataMem.step, DataMem.dmStep]
    split <;> simp
  · simp only [DmaMemory.step]
    split
    · simp
    next p hk =>
    have hleft : p ∈ s.left := List.mem_append_left _ (List.mem_of_getElem? hk)
    exact onDm_ne_fault (s := { s with requests := s.requests.eraseIdx k })
      (pop_ne_fault (h.asking.asks p (h.left_subset p hleft)) _ port e)
  · exact onDm_ne_fault (h.event_ne_fault hm k port e)
  · exact onDm_ne_fault (by simp [DataMem.step])
  · refine onDm_ne_fault ?_
    simp only [DataMem.step]
    split <;> simp

end Carried

end

end SocModel.Soc
