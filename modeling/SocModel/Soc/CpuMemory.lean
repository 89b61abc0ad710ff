import SocModel.Cpu.Model
import SocModel.DataMem.Serial
import SocModel.Isa.Machine

/-!
# The CPU and its data memory

The CPU and the data memory with the crossbar between them, which delivers the requests of the CPU, and the responses,
in the order they were sent. The CPU's request register always accepts. Everything else is the environment's choice: when
the CPU's event runs, when a packet arrives, what the data memory's register answers, and the order of the events of a
tick.

* `CpuMemory.step` : the actions, `CpuMemory.init` : the start;
* `CpuMemory.landed` : the data memory once the stores on their way are in it;
* `Sim` : the state against one of the instruction-level machine; a load that waits is not executed there yet;
* `Sim.moved`, `Sim.serve`, `Sim.exec` and the lemmas beside them : every action keeps it.
-/

namespace SocModel.Soc

open Lib Bus

/-- The crossbar's ports of the slaves: the data memory's is 0. -/
def dstIdx : Packet → Nat
  | .readReq p => p.dstIdx
  | .writeReq p => p.dstIdx
  | .readResp p => p.dstIdx
  | .writeResp p => p.dstIdx

structure CpuMemory where
  cpu : Cpu.State
  /-- The requests on their way to the data memory. -/
  requests : List Packet
  dm : DataMem.State
  /-- The responses on their way to the CPU. -/
  responses : List Packet

/-- `CPU::step` with a packet at the slave port; responses come in the order of the requests. -/
def receive (p : Packet) (s : Cpu.State) : Except Fault Cpu.State :=
  match p with
  | .readResp p => Cpu.memReadXBarRespHandler p { s with loads := s.loads.tail }
  | .writeResp _ => .ok { s with stores := s.stores.tail }
  | _ => .error .assertion

namespace CpuMemory

/-- What can happen next. `arrives`: a request is at the data memory's slave port. -/
inductive Act where
  | exec
  | receive
  | dmStep (port : Port) (arrives : Bool)
  | event (k : Nat) (port : Port)
  | retry (port : Port)
  | tick

/-- An action of the data memory; the responses it sends enter the crossbar. -/
def onDm (lat : Nat) (s : CpuMemory) (a : DataMem.Act) : Outcome Fault CpuMemory :=
  (DataMem.step lat s.dm a).bind fun dm =>
    .next { s with dm, responses := s.responses ++ dm.sent.drop s.dm.sent.length }

def step (lat : Nat) (s : CpuMemory) : Act → Outcome Fault CpuMemory
  | .exec => (Cpu.step s.cpu (.exec ⟨false, true⟩)).bind fun cpu =>
    .next { s with cpu, requests := s.requests ++ (cpu.handed.drop s.cpu.handed.length).filter (dstIdx · = getIndex .dm) }
  | .receive =>
    match s.responses with
    | [] => .blocked
    | p :: ps => (Outcome.ofExcept (Soc.receive p s.cpu)).bind fun cpu => .next { s with cpu, responses := ps }
  | .dmStep port arrives =>
    if arrives then
      match s.requests with
      | [] => .blocked
      | p :: ps => { s with requests := ps }.onDm lat (.dmStep port (some p))
    else s.onDm lat (.dmStep port none)
  | .event k port => s.onDm lat (.event k port)
  | .retry port => s.onDm lat (.retry port)
  | .tick => s.onDm lat .tick

def init (imem : Imem) (dmem : BaseMemory) : CpuMemory := ⟨Cpu.init imem, [], DataMem.init dmem, []⟩

/-! ## What is on its way -/

/-- The instructions executed, the one that waits for its load included. -/
def executed (s : CpuMemory) : List (Word × Instr) := s.cpu.execs.map fun x => (x.pc, x.instr)

/-- The requests that are not served yet, in order. -/
def waiting (s : CpuMemory) : List DataMem.Req := s.dm.beats ++ s.requests.flatMap DataMem.Packet.reqs

/-- The responses that are not delivered yet, in order. -/
def answers (s : CpuMemory) : List Packet := s.responses ++ s.dm.respQ

end CpuMemory

/-- The data memory with the store in it. -/
def land (m : BaseMemory) : DataMem.Req → BaseMemory
  | .read _ => m
  | .write q => { m with mem := store m.mem q.addr.toNat q.op.writeWidth q.data.toNat }

/-- The data memory once the stores on their way are in it. -/
def CpuMemory.landed (s : CpuMemory) : BaseMemory := s.waiting.foldl land s.dm.base

/-- The request is for bytes of a memory of that size. -/
def InRange (size : Nat) : DataMem.Req → Prop
  | .read q => q.addr.toNat + q.op.readWidth ≤ size
  | .write q => q.addr.toNat + q.op.writeWidth ≤ size

def isWriteResp : Packet → Bool
  | .writeResp _ => true
  | _ => false

@[simp] theorem land_size (m : BaseMemory) (r : DataMem.Req) : (land m r).size = m.size := by
  rcases r with q | q <;> rfl

theorem foldl_land_size (rs : List DataMem.Req) (m : BaseMemory) : (rs.foldl land m).size = m.size := by
  induction rs generalizing m with
  | nil => rfl
  | cons r rs ih => rw [List.foldl_cons, ih, land_size]

/-- What a request in range comes to. -/
theorem serveBeat_land {b : DataMem.Beat} {m : BaseMemory} (h : InRange m.size b.req) :
    ∃ x, DataMem.serveBeat b m = .ok (land m b.req, x) ∧
      ∀ q, b.req = .read q → ∃ v, m.memRead q.op q.addr = .ok v ∧ x.data = some v := by
  rcases hb : b.req with q | q <;> rw [hb] at h
  · have hv := BaseMemory.memRead_of_le h
    refine ⟨_, (DataMem.serveBeat_read hb).mpr ⟨_, hv, rfl, rfl⟩, ?_⟩
    rintro q' ⟨⟩
    exact ⟨_, hv, rfl⟩
  · refine ⟨_, (DataMem.serveBeat_write hb).mpr ⟨BaseMemory.memWrite_of_le h, rfl⟩, ?_⟩
    rintro q' ⟨⟩

/-! ## The simulation -/

/-- The instructions both CPU models have. -/
def Shared (op : InstrType) : Prop := op.isCfu = false ∧ op ≠ .MUL ∧ op ≠ .NOP

/-- The access is in the data memory, and the crossbar routes it there. -/
def Accesses (size : Nat) (op : InstrType) : Effect → Prop
  | .load addr => addr.toNat + op.readWidth ≤ size ∧ slaveIndex addr = getIndex .dm
  | .store addr _ => addr.toNat + op.writeWidth ≤ size ∧ slaveIndex addr = getIndex .dm
  | _ => True

/-- No instruction is under way. -/
structure Ready (a : Arch) (s : CpuMemory) : Prop where
  executed : s.executed = a.done
  events : s.cpu.events = if a.halted then 0 else 1
  loads : s.cpu.loads = []
  waiting : ∀ r ∈ s.waiting, r.isWrite = true
  answers : ∀ p ∈ s.answers, isWriteResp p = true

/-- Where the load is: behind the stores that wait, or answered. -/
inductive Transit (a : Arch) (s : CpuMemory) (q : ReadReq) : Prop
  | request (ws : List DataMem.Req) (hw : s.waiting = ws ++ [.read q]) (hws : ∀ r ∈ ws, r.isWrite = true)
      (ha : ∀ p ∈ s.answers, isWriteResp p = true)
  | answer (ps : List Packet) (v : Word) (hw : s.waiting = []) (hv : a.dmem.memRead q.op q.addr = .ok v)
      (ha : s.answers = ps ++ [DataMem.answerTo (.read q) (some v)]) (hps : ∀ p ∈ ps, isWriteResp p = true)

/-- The load `q` is under way; the instruction-level machine has not executed it yet. -/
structure Loading (imem : Imem) (a : Arch) (s : CpuMemory) (q : ReadReq) : Prop where
  halted : a.halted = false
  fetch : imem.fetch (a.pc.toNat / 4) = .ok q.instr
  effect : execBase q.instr a.pc a.rf = .ok (.load q.addr)
  op : q.op = q.instr.op
  a1 : q.a1 = q.instr.a1
  executed : s.executed = a.done ++ [(a.pc, q.instr)]
  events : s.cpu.events = 0
  loads : s.cpu.loads.length = 1
  transit : Transit a s q

structure Sim (lat : Nat) (imem : Imem) (a : Arch) (s : CpuMemory) : Prop where
  imem_eq : s.cpu.imem = imem
  rf : s.cpu.rf = a.rf
  pc : s.cpu.pc = a.pc
  commits : s.cpu.commits = a.done.map (·.2)
  queue : s.cpu.requestQueue = []
  serial : DataMem.Serial lat s.dm
  single : ∀ p ∈ s.requests, ∃ r, DataMem.Single p r
  inRange : ∀ r ∈ s.waiting, InRange s.dm.base.size r
  landed : s.landed = a.dmem
  phase : Ready a s ∨ ∃ q, Loading imem a s q

theorem sim_init (lat : Nat) (imem : Imem) (dmem : BaseMemory) :
    Sim lat imem (Arch.init dmem) (CpuMemory.init imem dmem) where
  imem_eq := rfl
  rf := rfl
  pc := rfl
  commits := rfl
  queue := rfl
  serial := DataMem.serial_init lat dmem
  single := by simp [CpuMemory.init]
  inRange := by simp [CpuMemory.init, CpuMemory.waiting, DataMem.State.beats, DataMem.pendingBeats, DataMem.init]
  landed := rfl
  phase := .inl
    { executed := rfl
      events := rfl
      loads := rfl
      waiting := by simp [CpuMemory.init, CpuMemory.waiting, DataMem.State.beats, DataMem.pendingBeats, DataMem.init]
      answers := by simp [CpuMemory.init, CpuMemory.answers, DataMem.init] }

section

variable {lat : Nat} {imem : Imem} {dmem : BaseMemory} {a : Arch} {s t : CpuMemory}

/-! ## Actions of the data memory -/

theorem onDm_next {act : DataMem.Act} {dm : DataMem.State} (h : DataMem.step lat s.dm act = .next dm) :
    s.onDm lat act = .next { s with dm, responses := s.responses ++ dm.sent.drop s.dm.sent.length } := by
  unfold CpuMemory.onDm
  rw [h]
  rfl

theorem answers_onDm {dm : DataMem.State} {more : List Packet} (h : DataMem.Emits s.dm dm more) :
    CpuMemory.answers { s with dm, responses := s.responses ++ dm.sent.drop s.dm.sent.length } = s.answers ++ more := by
  unfold CpuMemory.answers
  dsimp only
  rw [List.append_assoc, h.drop, ← List.append_assoc]

theorem Transit.of_eq {q : ReadReq} (h : Transit a s q) (hw : t.waiting = s.waiting) (ha : t.answers = s.answers) :
    Transit a t q := by
  rcases h with ⟨ws, h1, h2, h3⟩ | ⟨ps, v, h1, h2, h3, h4⟩
  · exact .request ws (hw.trans h1) h2 (ha ▸ h3)
  · exact .answer ps v (hw.trans h1) h2 (ha.trans h3) h4

/-- Packets move, nothing is served or delivered. -/
theorem Sim.moved (h : Sim lat imem a s) (hc : t.cpu = s.cpu) (hs : DataMem.Serial lat t.dm)
    (hr : ∀ p ∈ t.requests, p ∈ s.requests) (hw : t.waiting = s.waiting) (ha : t.answers = s.answers)
    (hb : t.dm.base = s.dm.base) : Sim lat imem a t where
  imem_eq := hc ▸ h.imem_eq
  rf := hc ▸ h.rf
  pc := hc ▸ h.pc
  commits := hc ▸ h.commits
  queue := hc ▸ h.queue
  serial := hs
  single p hp := h.single p (hr p hp)
  inRange := by
    rw [hw, hb]
    exact h.inRange
  landed := by
    unfold CpuMemory.landed
    rw [hw, hb]
    exact h.landed
  phase := by
    have hx : t.executed = s.executed := by
      unfold CpuMemory.executed
      rw [hc]
    rcases h.phase with hp | ⟨q, hp⟩
    · exact .inl ⟨hx.trans hp.executed, hc ▸ hp.events, hc ▸ hp.loads, hw ▸ hp.waiting, ha ▸ hp.answers⟩
    · exact .inr ⟨q, hp.halted, hp.fetch, hp.effect, hp.op, hp.a1, hx.trans hp.executed, hc ▸ hp.events, hc ▸ hp.loads,
        hp.transit.of_eq hw ha⟩

/-- An action of the data memory that serves nothing. -/
theorem Sim.onDm (h : Sim lat imem a s) {act : DataMem.Act} {dm : DataMem.State}
    (hd : DataMem.step lat s.dm act = .next dm) (hs : DataMem.Serial lat dm) (hbase : dm.base = s.dm.base)
    (hbeats : dm.beats = s.dm.beats) (he : DataMem.Emits s.dm dm []) :
    ∃ t, s.onDm lat act = .next t ∧ Sim lat imem a t := by
  refine ⟨_, onDm_next hd, h.moved rfl hs (fun _ hp => hp) ?_ ?_ hbase⟩
  · unfold CpuMemory.waiting
    rw [hbeats]
  · rw [answers_onDm he, List.append_nil]

theorem Sim.tick (h : Sim lat imem a s) (hn : ∀ e ∈ s.dm.events, s.dm.now < e.1) :
    ∃ t, CpuMemory.step lat s .tick = .next t ∧ Sim lat imem a t := by
  obtain ⟨hd, hs⟩ := DataMem.step_tick h.serial hn
  exact h.onDm hd hs rfl rfl ⟨List.prefix_rfl, (List.append_nil _).symm⟩

theorem Sim.retry (h : Sim lat imem a s) (port : Port) :
    ∃ t, CpuMemory.step lat s (.retry port) = .next t ∧ Sim lat imem a t := by
  have hd : DataMem.step lat s.dm (.retry port) = .next (DataMem.trySendResponse port s.dm) := rfl
  exact h.onDm hd (h.serial.trySend port) rfl rfl (DataMem.emits_trySend port _)

theorem beats_begin (port : Port) (dm : DataMem.State) : (DataMem.begin port dm).beats = dm.beats := by
  unfold DataMem.State.beats
  rw [(DataMem.begin_eq port dm).2.1]

theorem Sim.dmStep (h : Sim lat imem a s) (port : Port) (hst : s.dm.stepped = false) :
    ∃ t, CpuMemory.step lat s (.dmStep port false) = .next t ∧ Sim lat imem a t := by
  obtain ⟨hd, hs⟩ := DataMem.step_none h.serial port hst
  exact h.onDm hd hs (DataMem.begin_eq port s.dm).2.2.2.2 (beats_begin port s.dm) (DataMem.emits_begin port s.dm)

theorem step_pop (lat : Nat) (port : Port) {p : Packet} {ps : List Packet} (hp : s.requests = p :: ps) :
    CpuMemory.step lat s (.dmStep port true) =
      CpuMemory.onDm lat { s with requests := ps } (.dmStep port (some p)) := by
  unfold CpuMemory.step
  simp [hp]

/-- A request arrives. -/
theorem Sim.pop (h : Sim lat imem a s) (port : Port) (hst : s.dm.stepped = false) {p : Packet} {ps : List Packet}
    (hp : s.requests = p :: ps) :
    ∃ t, CpuMemory.step lat s (.dmStep port true) = .next t ∧ Sim lat imem a t := by
  obtain ⟨r, hr⟩ := h.single p (hp ▸ List.mem_cons_self)
  have hd : DataMem.step lat s.dm (.dmStep port (some p)) = _ := DataMem.pop_single hr port hst
  refine ⟨_, (step_pop lat port hp).trans (onDm_next hd), h.moved rfl (h.serial.popped hst) ?_ ?_ ?_ ?_⟩
  · intro p' hp'
    rw [hp]
    exact List.mem_cons_of_mem p hp'
  · have hb : (DataMem.popped lat p r (DataMem.begin port s.dm)).beats = s.dm.beats ++ [r] := by
      unfold DataMem.State.beats
      rw [DataMem.pendingBeats_popped, (DataMem.begin_eq port s.dm).2.1, List.map_append]
      rfl
    unfold CpuMemory.waiting
    rw [hp, List.flatMap_cons, hr.reqs]
    dsimp only
    rw [hb, List.append_assoc]
  · have he := DataMem.emits_begin port s.dm
    exact (answers_onDm ⟨he.sent, he.out⟩).trans (List.append_nil _)
  · exact (DataMem.begin_eq port s.dm).2.2.2.2

theorem Sim.send (h : Sim lat imem a s) {k : Nat} (port : Port) (hk : s.dm.events[k]? = some (s.dm.now, .send)) :
    ∃ t, CpuMemory.step lat s (.event k port) = .next t ∧ Sim lat imem a t := by
  obtain ⟨dm, hd, hs, hbase, hbeats, he, -⟩ := DataMem.event_send h.serial port hk
  exact h.onDm hd hs hbase hbeats he

/-- The first request that waits is served. -/
theorem Transit.serve {q : ReadReq} (h : Transit a s q) {r : DataMem.Req} {v : Option Word}
    (hw : s.waiting = r :: t.waiting) (ha : t.answers = s.answers ++ [DataMem.answerTo r v])
    (hland : s.landed = a.dmem)
    (hv : ∀ q, r = .read q → ∃ w, s.dm.base.memRead q.op q.addr = .ok w ∧ v = some w) : Transit a t q := by
  rcases h with ⟨ws, h1, h2, h3⟩ | ⟨ps, w, h1, -⟩
  · rcases ws with _ | ⟨w, ws⟩
    · rw [hw, List.nil_append, List.cons.injEq] at h1
      obtain ⟨rfl, hnil⟩ := h1
      obtain ⟨x, hx, rfl⟩ := hv q rfl
      have hmem : s.dm.base = a.dmem := by
        rw [← hland]
        unfold CpuMemory.landed
        rw [hw, hnil]
        rfl
      exact .answer s.answers x hnil (hmem ▸ hx) ha h3
    · rw [hw, List.cons_append, List.cons.injEq] at h1
      obtain ⟨rfl, hrest⟩ := h1
      refine .request ws hrest (fun r' hr' => h2 r' (List.mem_cons_of_mem r hr')) ?_
      rw [ha]
      intro p hp
      rcases List.mem_append.mp hp with hp | hp
      · exact h3 p hp
      · rw [List.mem_singleton.mp hp]
        have hr := h2 r List.mem_cons_self
        rcases r with q' | q'
        · cases hr
        · rfl
  · rw [hw] at h1
    cases h1

/-- A beat is served. -/
theorem Sim.serve (h : Sim lat imem a s) {k : Nat} (port : Port) {b : DataMem.Beat}
    (hk : s.dm.events[k]? = some (s.dm.now, .beat b)) :
    ∃ t, CpuMemory.step lat s (.event k port) = .next t ∧ Sim lat imem a t := by
  have hin : InRange s.dm.base.size b.req := by
    refine h.inRange _ (List.mem_append_left _ ?_)
    unfold DataMem.State.beats
    rw [h.serial.head hk]
    exact List.mem_cons_self
  obtain ⟨x, hx, hread⟩ := serveBeat_land hin
  obtain ⟨dm, hd, hs, hbase, hbeats, he, -⟩ := DataMem.event_beat h.serial port hk hx
  refine ⟨_, onDm_next hd, ?_⟩
  have ha := answers_onDm he
  generalize ht : ({ s with dm, responses := s.responses ++ dm.sent.drop s.dm.sent.length } : CpuMemory) = t at ha
  have hcpu : t.cpu = s.cpu := by rw [← ht]
  have hreq : t.requests = s.requests := by rw [← ht]
  have htdm : t.dm = dm := by rw [← ht]
  have hw : s.waiting = b.req :: t.waiting := by
    unfold CpuMemory.waiting
    rw [hbeats, hreq, htdm, List.cons_append]
  have hxe : t.executed = s.executed := by
    unfold CpuMemory.executed
    rw [hcpu]
  refine ⟨hcpu ▸ h.imem_eq, hcpu ▸ h.rf, hcpu ▸ h.pc, hcpu ▸ h.commits, hcpu ▸ h.queue, htdm ▸ hs, hreq ▸ h.single,
    ?_, ?_, ?_⟩
  · intro r hr
    rw [htdm, hbase, land_size]
    exact h.inRange r (hw ▸ List.mem_cons_of_mem _ hr)
  · have hl := h.landed
    unfold CpuMemory.landed at hl ⊢
    rw [hw, List.foldl_cons] at hl
    rw [htdm, hbase]
    exact hl
  · rcases h.phase with hp | ⟨q, hp⟩
    · refine .inl ⟨hxe.trans hp.executed, hcpu ▸ hp.events, hcpu ▸ hp.loads, fun r hr => ?_, fun p hm => ?_⟩
      · exact hp.waiting r (hw ▸ List.mem_cons_of_mem _ hr)
      · rw [ha] at hm
        rcases List.mem_append.mp hm with hm | hm
        · exact hp.answers p hm
        · rw [List.mem_singleton.mp hm]
          have hr := hp.waiting b.req (hw ▸ List.mem_cons_self)
          rcases hb : b.req with q' | q' <;> rw [hb] at hr
          · cases hr
          · rfl
    · exact .inr ⟨q, hp.halted, hp.fetch, hp.effect, hp.op, hp.a1, hxe.trans hp.executed, hcpu ▸ hp.events,
        hcpu ▸ hp.loads, hp.transit.serve hw ha h.landed hread⟩

/-! ## A response -/

theorem answers_tail {p : Packet} {ps : List Packet} (hp : s.responses = p :: ps) :
    s.answers = p :: CpuMemory.answers { s with responses := ps } := by
  unfold CpuMemory.answers
  rw [hp, List.cons_append]

/-- The response to a store changes nothing the machine sees. -/
theorem Sim.receiveWrite (h : Sim lat imem a s) {p : Burst WriteResp} {ps : List Packet}
    (hp : s.responses = .writeResp p :: ps) :
    CpuMemory.step lat s .receive =
        .next { s with cpu := { s.cpu with stores := s.cpu.stores.tail }, responses := ps } ∧
      Sim lat imem a { s with cpu := { s.cpu with stores := s.cpu.stores.tail }, responses := ps } := by
  refine ⟨?_, ?_⟩
  · unfold CpuMemory.step
    rw [hp]
    rfl
  · have ha := answers_tail hp
    refine ⟨h.imem_eq, h.rf, h.pc, h.commits, h.queue, h.serial, h.single, h.inRange, h.landed, ?_⟩
    rcases h.phase with hx | ⟨q, hx⟩
    · refine .inl ⟨hx.executed, hx.events, hx.loads, hx.waiting, fun p' hp' => hx.answers p' ?_⟩
      rw [ha]
      exact List.mem_cons_of_mem _ hp'
    · refine .inr ⟨q, hx.halted, hx.fetch, hx.effect, hx.op, hx.a1, hx.executed, hx.events, hx.loads, ?_⟩
      rcases hx.transit with ⟨ws, h1, h2, h3⟩ | ⟨rs, v, h1, h2, h3, h4⟩
      · refine .request ws h1 h2 fun p' hp' => h3 p' ?_
        rw [ha]
        exact List.mem_cons_of_mem _ hp'
      · rw [ha] at h3
        rcases rs with _ | ⟨r, rs⟩
        · cases h3
        · rw [List.cons_append, List.cons.injEq] at h3
          exact .answer rs v h1 h2 h3.2 fun p' hp' => h4 p' (List.mem_cons_of_mem _ hp')

theorem halted_retire (a : Arch) (i : Instr) (rf : Regfile) (pc : Word) (m : BaseMemory) :
    (a.retire i rf pc m).halted = (i.op == .HCF) := by
  unfold Arch.halted Arch.retire
  simp

/-- The answer to the load that waits is the value the machine reads. -/
theorem Loading.answer {q : ReadReq} (h : Loading imem a s q) {p : Packet} {ps : List Packet}
    (hp : s.responses = p :: ps) (hw : isWriteResp p = false) :
    ∃ v, s.waiting = [] ∧ a.dmem.memRead q.op q.addr = .ok v ∧ p = DataMem.answerTo (.read q) (some v) ∧
      CpuMemory.answers { s with responses := ps } = [] := by
  have ha := answers_tail hp
  rcases h.transit with ⟨ws, h1, h2, h3⟩ | ⟨rs, v, h1, h2, h3, h4⟩
  · have := h3 p (ha ▸ List.mem_cons_self)
    rw [hw] at this
    cases this
  · rw [ha] at h3
    rcases rs with _ | ⟨r, rs⟩
    · rw [List.nil_append, List.cons.injEq] at h3
      exact ⟨v, h1, h2, h3.1, h3.2⟩
    · rw [List.cons_append, List.cons.injEq] at h3
      have := h4 r List.mem_cons_self
      rw [← h3.1, hw] at this
      cases this

/-- The CPU after the response to the load `q`. -/
def loaded (q : ReadReq) (rf : Regfile) (s : Cpu.State) : Cpu.State :=
  (Cpu.commitInstr q.instr { s with loads := s.loads.tail, rf }).setPc (s.pc + 4)

theorem step_receiveRead (lat : Nat) {q : ReadReq} {v : Word} {ps : List Packet}
    (hp : s.responses = DataMem.answerTo (.read q) (some v) :: ps) :
    CpuMemory.step lat s .receive = match s.cpu.rf.write q.a1 v with
      | .ok rf => .next { s with cpu := loaded q rf s.cpu, responses := ps }
      | .error e => .fault e := by
  unfold CpuMemory.step
  rw [hp]
  simp only [Soc.receive, DataMem.answerTo, Cpu.memReadXBarRespHandler, constructMemReadRespPkt, Burst.setTID,
    List.foldlM_cons, List.foldlM_nil, Option.getD_some, bind_pure, Cpu.memReadRespHandler, DataMem.readAnswer]
  rcases s.cpu.rf.write q.a1 v with e | rf <;> rfl

theorem loads_loaded {q : ReadReq} (hl : Loading imem a s q) (rf : Regfile) : (loaded q rf s.cpu).loads = [] := by
  show s.cpu.loads.tail = []
  rw [← List.length_eq_zero_iff, List.length_tail, hl.loads]

theorem sim_loaded (h : Sim lat imem a s) {q : ReadReq} (hl : Loading imem a s q) {ps : List Packet}
    (hwait : s.waiting = []) (hans : CpuMemory.answers { s with responses := ps } = []) (rf : Regfile) :
    Sim lat imem (a.retire q.instr rf (a.pc + 4) a.dmem) { s with cpu := loaded q rf s.cpu, responses := ps } where
  imem_eq := h.imem_eq
  rf := rfl
  pc := congrArg (· + 4) h.pc
  commits := by
    show s.cpu.commits ++ [q.instr] = _
    rw [h.commits]
    simp [Arch.retire]
  queue := h.queue
  serial := h.serial
  single := h.single
  inRange := h.inRange
  landed := h.landed
  phase := by
    refine .inl ⟨hl.executed, ?_, loads_loaded hl rf, ?_, ?_⟩
    · rw [halted_retire]
      show (if q.instr.op = .HCF then s.cpu.events else s.cpu.events + 1) = _
      rw [hl.events]
      simp
    · intro r hr
      have hr : r ∈ s.waiting := hr
      rw [hwait] at hr
      cases hr
    · intro p hp
      have hp : p ∈ CpuMemory.answers { s with responses := ps } := hp
      rw [hans] at hp
      cases hp

/-- The load is executed when its response is delivered. -/
theorem Sim.receiveRead (h : Sim lat imem a s) {q : ReadReq} (hl : Loading imem a s q) {p : Packet} {ps : List Packet}
    (hp : s.responses = p :: ps) (hw : isWriteResp p = false) :
    (∃ t b, CpuMemory.step lat s .receive = .next t ∧ a.step imem = .next b ∧ Sim lat imem b t ∧ t.cpu.loads = []) ∨
      ∃ e, CpuMemory.step lat s .receive = .fault e ∧ a.exec imem = .error e := by
  obtain ⟨v, hwait, hv, rfl, hans⟩ := hl.answer hp hw
  have hx : a.exec imem = (do let rf ← a.rf.write q.instr.a1 v; return a.retire q.instr rf (a.pc + 4) a.dmem) := by
    rw [hl.op] at hv
    unfold Arch.exec
    simp only [hl.fetch, hl.effect, bind, Except.bind, Arch.complete, hv]
  have hstep := step_receiveRead lat hp
  rw [h.rf, hl.a1] at hstep
  rcases hrf : a.rf.write q.instr.a1 v with e | rf <;> rw [hrf] at hstep hx
  · exact .inr ⟨e, hstep, hx⟩
  · refine .inl ⟨_, _, hstep, Arch.step_eq_next.mpr ⟨hl.halted, hx⟩, sim_loaded h hl hwait hans rf, ?_⟩
    exact loads_loaded hl rf

/-! ## An instruction -/

/-- The CPU with its event taken. -/
def started (s : Cpu.State) : Cpu.State := { s with events := s.events - 1, instCnt := s.instCnt + 1 }

theorem step_exec (he : s.cpu.events ≠ 0) : Cpu.step s.cpu (.exec ⟨false, true⟩) =
    .ofExcept (do
      let i ← s.cpu.imem.fetch (s.cpu.pc.toNat / 4)
      let e ← Cpu.execute i s.cpu.pc s.cpu.rf
      return Cpu.complete ⟨false, true⟩ i (started s.cpu) e) := by
  dsimp only [Cpu.step]
  rw [if_neg he]
  rfl

theorem execute_shared {i : Instr} (h : Shared i.op) (pc : Word) (rf : Regfile) :
    Cpu.execute i pc rf = execBase i pc rf := by
  unfold Cpu.execute
  rw [if_neg (by simp [h.1]), if_neg h.2.1]

/-- The state after an instruction that comes to the effect `e`. -/
def retired (i : Instr) (e : Effect) (s : CpuMemory) : CpuMemory :=
  let cpu := Cpu.complete ⟨false, true⟩ i (started s.cpu) e
  { s with cpu, requests := s.requests ++ (cpu.handed.drop s.cpu.handed.length).filter (dstIdx · = getIndex .dm) }

theorem executed_retired (h : Sim lat imem a s) (hr : Ready a s) (i : Instr) (e : Effect) :
    (retired i e s).executed = a.done ++ [(a.pc, i)] := by
  rw [← hr.executed, ← h.pc]
  rcases e with _ | _ | _ | _ <;> exact List.map_append

theorem events_retired (h : Ready a s) (hh : a.halted = false) (i : Instr) :
    (if i.op = .HCF then (started s.cpu).events else (started s.cpu).events + 1) = if i.op == .HCF then 0 else 1 := by
  have he : (started s.cpu).events = 0 := by
    show s.cpu.events - 1 = 0
    rw [h.events, hh]
    rfl
  rw [he]
  simp

/-- An instruction that needs no bus. -/
theorem sim_commit (h : Sim lat imem a s) (hr : Ready a s) (hh : a.halted = false) (i : Instr) (rf : Regfile)
    (pc : Word) : Sim lat imem (a.retire i rf pc a.dmem) (retired i (.commit rf pc) s) := by
  have hreq : (retired i (.commit rf pc) s).requests = s.requests := by
    show s.requests ++ (s.cpu.handed.drop s.cpu.handed.length).filter _ = _
    rw [List.drop_length, List.filter_nil, List.append_nil]
  have hw : (retired i (.commit rf pc) s).waiting = s.waiting := by
    unfold CpuMemory.waiting
    rw [hreq]
    rfl
  refine ⟨h.imem_eq, rfl, rfl, ?_, h.queue, h.serial, hreq ▸ h.single, hw ▸ h.inRange, ?_, .inl ⟨?_, ?_, hr.loads,
    hw ▸ hr.waiting, hr.answers⟩⟩
  · show s.cpu.commits ++ [i] = _
    rw [h.commits]
    simp [Arch.retire]
  · unfold CpuMemory.landed
    rw [hw]
    exact h.landed
  · exact executed_retired h hr i _
  · rw [halted_retire]
    exact events_retired hr hh i

/-- The request of the next access. -/
def nextRead (i : Instr) (addr : Word) (s : CpuMemory) : ReadReq :=
  { caller := .cpu, tid := s.cpu.nextTid, instr := i, op := i.op, addr, a1 := i.a1 }

def nextWrite (i : Instr) (addr data : Word) (s : CpuMemory) : WriteReq :=
  { caller := .cpu, tid := s.cpu.nextTid, instr := i, op := i.op, addr, data }

/-- A packet goes to the data memory. -/
theorem filter_handed (l : List Packet) {p : Packet} (hp : dstIdx p = getIndex .dm) :
    ((l ++ [p]).drop l.length).filter (dstIdx · = getIndex .dm) = [p] := by
  rw [List.drop_left, List.filter_cons_of_pos (by simpa using hp), List.filter_nil]

/-- A store is handed over and done. -/
theorem sim_store (h : Sim lat imem a s) (hr : Ready a s) (hh : a.halted = false) {i : Instr} {addr data : Word}
    (hacc : Accesses a.dmem.size i.op (.store addr data)) :
    Sim lat imem (a.retire i a.rf (a.pc + 4) (land a.dmem (.write (nextWrite i addr data s))))
      (retired i (.store addr data) s) := by
  have hreq : (retired i (.store addr data) s).requests =
      s.requests ++ [.writeReq (constructMemWritepktNonBurst i i.op addr data .cpu s.cpu.nextTid)] :=
    congrArg (s.requests ++ ·) (filter_handed s.cpu.handed hacc.2)
  have hw : (retired i (.store addr data) s).waiting = s.waiting ++ [.write (nextWrite i addr data s)] := by
    unfold CpuMemory.waiting
    rw [hreq, List.flatMap_append, ← List.append_assoc]
    rfl
  have hsize : s.dm.base.size = a.dmem.size := by
    rw [← h.landed]
    exact (foldl_land_size _ _).symm
  refine ⟨h.imem_eq, h.rf, congrArg (· + 4) h.pc, ?_, h.queue, h.serial, ?_, ?_, ?_,
    .inl ⟨?_, ?_, hr.loads, ?_, hr.answers⟩⟩
  · show s.cpu.commits ++ [i] = _
    rw [h.commits]
    simp [Arch.retire]
  · intro p hp
    rw [hreq] at hp
    rcases List.mem_append.mp hp with hp | hp
    · exact h.single p hp
    · rw [List.mem_singleton.mp hp]
      exact ⟨_, .write rfl rfl⟩
  · intro r hm
    rw [hw] at hm
    rcases List.mem_append.mp hm with hm | hm
    · exact h.inRange r hm
    · rw [List.mem_singleton.mp hm]
      show addr.toNat + i.op.writeWidth ≤ s.dm.base.size
      rw [hsize]
      exact hacc.1
  · unfold CpuMemory.landed
    rw [hw, List.foldl_append, List.foldl_cons, List.foldl_nil]
    exact congrArg (land · _) h.landed
  · exact executed_retired h hr i _
  · rw [halted_retire]
    exact events_retired hr hh i
  · intro r hm
    rw [hw] at hm
    rcases List.mem_append.mp hm with hm | hm
    · exact hr.waiting r hm
    · rw [List.mem_singleton.mp hm]
      rfl

/-- A load is handed over and waits. -/
theorem sim_load (h : Sim lat imem a s) (hr : Ready a s) (hh : a.halted = false) {i : Instr} {addr : Word}
    (hi : imem.fetch (a.pc.toNat / 4) = .ok i) (he : execBase i a.pc a.rf = .ok (.load addr))
    (hacc : Accesses a.dmem.size i.op (.load addr)) :
    Sim lat imem a (retired i (.load addr) s) ∧ Loading imem a (retired i (.load addr) s) (nextRead i addr s) := by
  have hreq : (retired i (.load addr) s).requests =
      s.requests ++ [.readReq (constructMemReadpktNonBurst i i.op addr i.a1 .cpu s.cpu.nextTid)] :=
    congrArg (s.requests ++ ·) (filter_handed s.cpu.handed hacc.2)
  have hw : (retired i (.load addr) s).waiting = s.waiting ++ [.read (nextRead i addr s)] := by
    unfold CpuMemory.waiting
    rw [hreq, List.flatMap_append, ← List.append_assoc]
    rfl
  have hsize : s.dm.base.size = a.dmem.size := by
    rw [← h.landed]
    exact (foldl_land_size _ _).symm
  have hload : Loading imem a (retired i (.load addr) s) (nextRead i addr s) := by
    refine ⟨hh, hi, he, rfl, rfl, executed_retired h hr i _, ?_, ?_, .request s.waiting hw hr.waiting hr.answers⟩
    · show s.cpu.events - 1 = 0
      rw [hr.events, hh]
      rfl
    · show (s.cpu.loads ++ [_]).length = 1
      rw [hr.loads]
      rfl
  refine ⟨⟨h.imem_eq, h.rf, h.pc, h.commits, h.queue, h.serial, ?_, ?_, ?_, .inr ⟨_, hload⟩⟩, hload⟩
  · intro p hp
    rw [hreq] at hp
    rcases List.mem_append.mp hp with hp | hp
    · exact h.single p hp
    · rw [List.mem_singleton.mp hp]
      exact ⟨_, .read rfl rfl⟩
  · intro r hm
    rw [hw] at hm
    rcases List.mem_append.mp hm with hm | hm
    · exact h.inRange r hm
    · rw [List.mem_singleton.mp hm]
      show addr.toNat + i.op.readWidth ≤ s.dm.base.size
      rw [hsize]
      exact hacc.1
  · unfold CpuMemory.landed
    rw [hw, List.foldl_append, List.foldl_cons, List.foldl_nil]
    exact h.landed

theorem Sim.ready (h : Sim lat imem a s) (he : s.cpu.events ≠ 0) : Ready a s ∧ a.halted = false := by
  rcases h.phase with hr | ⟨q, hl⟩
  · refine ⟨hr, ?_⟩
    have hev := hr.events
    rcases hh : a.halted with _ | _
    · rfl
    · rw [hh] at hev
      exact absurd hev he
  · exact absurd hl.events he

/-- The CPU's event: an instruction is executed, or a load is under way. -/
theorem Sim.exec (h : Sim lat imem a s) (he : s.cpu.events ≠ 0)
    (hsh : ∀ i, imem.fetch (a.pc.toNat / 4) = .ok i → Shared i.op)
    (hacc : ∀ i e, imem.fetch (a.pc.toNat / 4) = .ok i → execBase i a.pc a.rf = .ok e → Accesses a.dmem.size i.op e) :
    (∃ t, CpuMemory.step lat s .exec = .next t ∧ ((∃ b, a.step imem = .next b ∧ Sim lat imem b t ∧ t.cpu.loads = []) ∨
      Sim lat imem a t ∧ ∃ q, Loading imem a t q)) ∨
    ∃ e, CpuMemory.step lat s .exec = .fault e ∧ a.exec imem = .error e := by
  obtain ⟨hr, hh⟩ := h.ready he
  have hstep : CpuMemory.step lat s .exec = (Outcome.ofExcept (do
      let i ← imem.fetch (a.pc.toNat / 4)
      let e ← Cpu.execute i a.pc a.rf
      return Cpu.complete ⟨false, true⟩ i (started s.cpu) e)).bind fun cpu => .next { s with
        cpu, requests := s.requests ++ (cpu.handed.drop s.cpu.handed.length).filter (dstIdx · = getIndex .dm) } := by
    rw [← h.imem_eq, ← h.pc, ← h.rf, ← step_exec he]
    rfl
  rcases hf : imem.fetch (a.pc.toNat / 4) with e | i
  · refine .inr ⟨e, by rw [hstep, hf]; rfl, ?_⟩
    unfold Arch.exec
    rw [hf]
    rfl
  · rw [hf] at hstep
    have hstep : CpuMemory.step lat s .exec = (Outcome.ofExcept (execBase i a.pc a.rf)).bind fun e =>
        .next (retired i e s) := by
      rw [hstep, ← execute_shared (hsh i hf)]
      simp only [bind, Except.bind]
      rcases Cpu.execute i a.pc a.rf with e | e <;> rfl
    have hx : a.exec imem = (execBase i a.pc a.rf).bind (a.complete i) := by
      unfold Arch.exec
      rw [hf]
      rfl
    rcases heff : execBase i a.pc a.rf with e | e <;> rw [heff] at hstep hx
    · exact .inr ⟨e, hstep, hx⟩
    · refine .inl ⟨retired i e s, hstep, ?_⟩
      have hin := hacc i e hf heff
      rcases e with ⟨rf, pc⟩ | addr | ⟨addr, data⟩ | ⟨x, y⟩
      · exact .inl ⟨_, Arch.step_eq_next.mpr ⟨hh, hx⟩, sim_commit h hr hh i rf pc, hr.loads⟩
      · obtain ⟨hs, hl⟩ := sim_load h hr hh hf heff hin
        exact .inr ⟨hs, _, hl⟩
      · refine .inl ⟨_, Arch.step_eq_next.mpr ⟨hh, ?_⟩, sim_store h hr hh hin, hr.loads⟩
        rw [hx]
        show (do let dmem ← a.dmem.memWrite i.op addr data; return a.retire i a.rf (a.pc + 4) dmem) = _
        rw [BaseMemory.memWrite_of_le hin.1]
        rfl
      · -- the shared instructions have no requests to the custom function unit
        have hcfu : i.op.isCfu = true := by
          rcases execBase_shape_or heff with hs | hs
          · rcases hs with _ | _ | _ | _ | ⟨hop, -⟩
            exact hop
          · cases hs
        rw [(hsh i hf).1] at hcfu
        cases hcfu

end

end SocModel.Soc
