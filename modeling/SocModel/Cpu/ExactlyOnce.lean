import SocModel.Cpu.Model

/-!
# Exactly-once execution under bus backpressure

`ExactlyOnce` : the instructions executed are the instructions committed, in order, followed by the one in
progress; `pc` takes one value for each commit and each instruction is executed at its own; each load and
store built one request, and the requests built are the packets handed to the bus followed by the queue;
one thing at most is pending, and nothing is only after `HCF`.

The store path of `masterPortRetry` leaves the packet it handed over in the queue, so the exact condition of
a run is that no retry with a free register finds a store and hands it over, or finds nothing queued.

* `Inv` : the logs and the six places an instruction can be in, `inv_step` : each allowed step keeps it;
* `exactlyOnce_iff` : the runs of every program that execute exactly once.
-/

namespace SocModel.Cpu

open Lib Bus

/-- The instructions a packet carries. -/
def Packet.instrs : Packet → List Instr
  | .readReq p => p.payloads.map (·.instr)
  | .writeReq p => p.payloads.map (·.instr)
  | .readResp p => p.payloads.map (·.instr)
  | .writeResp p => p.payloads.map (·.instr)

/-- A load or store built one packet, for itself; another instruction built none. -/
def Exec.Own (x : Exec) : Prop :=
  match x.request with
  | none => x.instr.op.isMem = false
  | some p => x.instr.op.isMem = true ∧ Packet.instrs p = [x.instr]

namespace State

/-- The instructions that wait in the request queue, for a load response, for a response of the custom
function unit. -/
def inProgress (s : State) : List Instr :=
  s.requestQueue.flatMap Packet.instrs ++ s.loads.flatMap (fun p => p.payloads.map (·.instr)) ++
    s.cfus.map (·.instr)

/-- How many things are pending. -/
def pending (s : State) : Nat :=
  s.events + s.requestQueue.length + s.loads.length + s.cfus.length

def Halted (s : State) : Prop := ∃ i, s.commits.getLast? = some i ∧ i.op = .HCF

end State

/-- The records of a state in which the instructions `w` are executed and not committed. -/
structure Logs (s : State) (w : List Instr) : Prop where
  counted : s.execs.length = s.instCnt
  committed : s.execs.map (·.instr) = s.commits ++ w
  path : s.execs.map (·.pc) ++ (if w = [] then [s.pc] else []) = s.pcs
  requested : s.execs.filterMap (·.request) = s.handed ++ s.requestQueue
  own : ∀ x ∈ s.execs, x.Own

/-- Each instruction is executed once, requests once and is committed once. -/
structure ExactlyOnce (s : State) : Prop where
  logs : Logs s s.inProgress
  advanced : s.pcs.length = s.commits.length + 1
  atMostOne : s.pending ≤ 1
  going : s.pending = 1 ∨ s.Halted

/-! ## The invariant -/

/-- Where the instruction in progress is, if there is one. -/
inductive Phase (s : State) : List Instr → Prop
  | ready (he : s.events = 1) (hq : s.requestQueue = []) (hl : s.loads = []) (hc : s.cfus = []) :
      Phase s []
  | halted (he : s.events = 0) (hq : s.requestQueue = []) (hl : s.loads = []) (hc : s.cfus = [])
      (hh : s.Halted) : Phase s []
  | queuedLoad (p : Burst ReadReq) (q : ReadReq) (hp : p.payloads = [q]) (he : s.events = 0)
      (hq : s.requestQueue = [.readReq p]) (hl : s.loads = []) (hc : s.cfus = []) : Phase s [q.instr]
  | queuedStore (p : Burst WriteReq) (q : WriteReq) (hp : p.payloads = [q])
      (hop : q.instr.op.isStore = true) (he : s.events = 0) (hq : s.requestQueue = [.writeReq p])
      (hl : s.loads = []) (hc : s.cfus = []) : Phase s [q.instr]
  | load (p : Burst ReadReq) (q : ReadReq) (hp : p.payloads = [q]) (he : s.events = 0)
      (hq : s.requestQueue = []) (hl : s.loads = [p]) (hc : s.cfus = []) : Phase s [q.instr]
  | cfu (r : CfuReq) (he : s.events = 0) (hq : s.requestQueue = []) (hl : s.loads = [])
      (hc : s.cfus = [r]) : Phase s [r.instr]

def Inv (s : State) : Prop := ∃ w, Logs s w ∧ Phase s w

theorem Phase.inProgress {s : State} {w : List Instr} (h : Phase s w) : s.inProgress = w := by
  unfold State.inProgress
  rcases h with ⟨-, hq, hl, hc⟩ | ⟨-, hq, hl, hc, -⟩ | ⟨p, q, hp, -, hq, hl, hc⟩ |
    ⟨p, q, hp, -, -, hq, hl, hc⟩ | ⟨p, q, hp, -, hq, hl, hc⟩ | ⟨r, -, hq, hl, hc⟩ <;> rw [hq, hl, hc]
  · rfl
  · rfl
  · simp [Packet.instrs, hp]
  · simp [Packet.instrs, hp]
  · simp [hp]
  · rfl

theorem Phase.going {s : State} {w : List Instr} (h : Phase s w) :
    s.pending = 1 ∨ s.pending = 0 ∧ s.Halted := by
  unfold State.pending
  cases h with
  | ready he hq hl hc => exact .inl (by rw [he, hq, hl, hc]; rfl)
  | halted he hq hl hc hh => exact .inr ⟨by rw [he, hq, hl, hc]; rfl, hh⟩
  | queuedLoad p q hp he hq hl hc => exact .inl (by rw [he, hq, hl, hc]; rfl)
  | queuedStore p q hp hop he hq hl hc => exact .inl (by rw [he, hq, hl, hc]; rfl)
  | load p q hp he hq hl hc => exact .inl (by rw [he, hq, hl, hc]; rfl)
  | cfu r he hq hl hc => exact .inl (by rw [he, hq, hl, hc]; rfl)

theorem Phase.length_le {s : State} {w : List Instr} (h : Phase s w) : w.length ≤ 1 := by
  cases h <;> simp

theorem Logs.advanced {s : State} {w : List Instr} (h : Logs s w) (hw : w.length ≤ 1) :
    s.pcs.length = s.commits.length + 1 := by
  have hc := congrArg List.length h.committed
  rw [← h.path]
  by_cases hnil : w = []
  · simp only [hnil, List.append_nil, List.length_map, if_true] at hc ⊢
    simp [hc]
  · have := List.length_pos_iff.mpr hnil
    simp only [hnil, if_false, List.append_nil, List.length_map, List.length_append] at hc ⊢
    omega

theorem Inv.exactlyOnce {s : State} (h : Inv s) : ExactlyOnce s := by
  obtain ⟨w, hl, hp⟩ := h
  refine ⟨hp.inProgress.symm ▸ hl, hl.advanced hp.length_le, ?_, hp.going.imp_right And.right⟩
  rcases hp.going with h | ⟨h, -⟩ <;> omega

theorem inv_init (imem : Imem) : Inv (init imem) :=
  ⟨[], ⟨rfl, rfl, rfl, rfl, by simp [init]⟩, .ready rfl rfl rfl rfl⟩

/-! ## What the functions keep -/

theorem Logs.commit {s : State} {i : Instr} (h : Logs s [i]) (pc : Word) :
    Logs ((commitInstr i s).setPc pc) [] where
  counted := h.counted
  committed := by simpa [commitInstr, State.setPc] using h.committed
  path := by simpa [commitInstr, State.setPc] using h.path
  requested := h.requested
  own := h.own

theorem phase_commit {s : State} (i : Instr) (pc : Word) (he : s.events = 0) (hq : s.requestQueue = [])
    (hl : s.loads = []) (hc : s.cfus = []) : Phase ((commitInstr i s).setPc pc) [] := by
  by_cases hi : i.op = .HCF
  · exact .halted (by simp [State.setPc, commitInstr, hi, he]) hq hl hc
      ⟨i, by simp [State.setPc, commitInstr], hi⟩
  · exact .ready (by simp [State.setPc, commitInstr, hi, he]) hq hl hc

theorem inv_commit {s : State} {i : Instr} (h : Logs s [i]) (pc : Word) (he : s.events = 0)
    (hq : s.requestQueue = []) (hl : s.loads = []) (hc : s.cfus = []) :
    Inv ((commitInstr i s).setPc pc) :=
  ⟨[], h.commit pc, phase_commit i pc he hq hl hc⟩

/-- A state about to execute: everything is committed and the event has been taken. -/
structure Fetching (s : State) : Prop where
  logs : Logs s []
  events : s.events = 0
  queue : s.requestQueue = []
  loads : s.loads = []
  cfus : s.cfus = []

theorem Fetching.logExec {s : State} (h : Fetching s) (rf : Regfile) {i : Instr}
    (hi : i.op.isMem = false) :
    Logs (State.logExec { s with rf, instCnt := s.instCnt + 1 } i none) [i] where
  counted := by simpa [State.logExec] using h.logs.counted
  committed := by simpa [State.logExec] using h.logs.committed
  path := by simpa [State.logExec] using h.logs.path
  requested := by simpa [State.logExec] using h.logs.requested
  own := by
    intro x hx
    rcases List.mem_append.mp hx with hx | hx
    · exact h.logs.own x hx
    · rw [List.mem_singleton.mp hx]
      exact hi

theorem Fetching.logRequest {s : State} (h : Fetching s) (port : Port) (n : Nat) {i : Instr} {p : Packet}
    (hi : i.op.isMem = true) (hp : Packet.instrs p = [i]) :
    Logs (State.send port p (State.logExec { s with instCnt := s.instCnt + 1, nextTid := n } i (some p)))
      [i] := by
  have own : ∀ x ∈ s.execs ++ [⟨s.pc, i, some p⟩], x.Own := by
    intro x hx
    rcases List.mem_append.mp hx with hx | hx
    · exact h.logs.own x hx
    · rw [List.mem_singleton.mp hx]
      exact ⟨hi, hp⟩
  have hc := h.logs.counted
  have hm := h.logs.committed
  have hr := h.logs.requested
  have hpath := h.logs.path
  unfold State.send
  split
  · cases p <;>
      exact ⟨by simpa [State.handOver, State.logExec] using hc,
        by simpa [State.handOver, State.logExec] using hm,
        by simpa [State.handOver, State.logExec] using hpath,
        by simp [State.handOver, State.logExec, hr, h.queue], own⟩
  · exact ⟨by simpa [State.logExec] using hc, by simpa [State.logExec] using hm,
      by simpa [State.logExec] using hpath, by simp [State.logExec, hr, h.queue], own⟩

theorem not_isMem_of_writesRd {op : InstrType} (h : op.writesRd = true) : op.isMem = false := by
  cases op <;> first | rfl | cases h

theorem not_isMem_of_not_hasRd {op : InstrType} (h : op.hasRd = false) (hs : op.isStore = false) :
    op.isMem = false := by
  simp only [InstrType.hasRd, Bool.or_eq_false_iff] at h
  simp [InstrType.isMem, h.1.2, hs]

theorem not_isMem_of_isCfu {op : InstrType} (h : op.isCfu = true) : op.isMem = false := by
  cases op <;> first | rfl | cases h

theorem isMem_of_isLoad {op : InstrType} (h : op.isLoad = true) : op.isMem = true := by
  simp [InstrType.isMem, h]

theorem isMem_of_isStore {op : InstrType} (h : op.isStore = true) : op.isMem = true := by
  simp [InstrType.isMem, h]

theorem inv_complete {s : State} {port : Port} {i : Instr} {e : Effect} (h : Fetching s)
    (he : e.Shape i s.rf) : Inv (complete port i { s with instCnt := s.instCnt + 1 } e) := by
  cases he with
  | write hop hw pc' =>
    exact inv_commit (h.logExec _ (not_isMem_of_writesRd hop)) pc' h.events h.queue h.loads h.cfus
  | keep hop hst pc' =>
    exact inv_commit (h.logExec _ (not_isMem_of_not_hasRd hop hst)) pc' h.events h.queue h.loads h.cfus
  | load hop addr =>
    let p := constructMemReadpktNonBurst i i.op addr i.a1 .cpu s.nextTid
    refine ⟨[i], h.logRequest port (s.nextTid + 1) (isMem_of_isLoad hop) (p := .readReq p) rfl, ?_⟩
    simp only [complete, busMemRead, State.send]
    split
    · exact .load p ⟨.cpu, s.nextTid, i, i.op, addr, i.a1⟩ rfl h.events h.queue
        (by simp [State.handOver, State.logExec, h.loads, p]) h.cfus
    · exact .queuedLoad p ⟨.cpu, s.nextTid, i, i.op, addr, i.a1⟩ rfl h.events
        (by simp [State.logExec, h.queue, p]) h.loads h.cfus
  | store hop addr data =>
    let p := constructMemWritepktNonBurst i i.op addr data .cpu s.nextTid
    have hl := h.logRequest port (s.nextTid + 1) (isMem_of_isStore hop) (p := .writeReq p) rfl
    simp only [complete, busMemWrite, State.send] at hl ⊢
    split
    · next hp =>
      rw [if_pos hp] at hl
      exact inv_commit hl (s.pc + 4) h.events h.queue h.loads h.cfus
    · next hp =>
      rw [if_neg hp] at hl
      exact ⟨[i], hl, .queuedStore p ⟨.cpu, s.nextTid, i, i.op, addr, data⟩ rfl hop h.events
        (by simp [State.logExec, h.queue, p]) h.loads h.cfus⟩
  | cfu hop x y =>
    have hl := h.logExec s.rf (not_isMem_of_isCfu hop)
    exact ⟨[i], ⟨hl.counted, hl.committed, hl.path, hl.requested, hl.own⟩,
      .cfu ⟨i, x, y⟩ h.events h.queue h.loads (by simp [complete, cfuReq, State.logExec, h.cfus])⟩

theorem Phase.fetching {s : State} {w : List Instr} (hl : Logs s w) (hp : Phase s w)
    (he : s.events ≠ 0) : Fetching { s with events := s.events - 1 } := by
  cases hp with
  | ready he' hq hload hc =>
    exact ⟨⟨hl.counted, hl.committed, hl.path, hl.requested, hl.own⟩, by simp [he'], hq, hload, hc⟩
  | halted he' => exact absurd he' he
  | queuedLoad p q hp he' => exact absurd he' he
  | queuedStore p q hp hop he' => exact absurd he' he
  | load p q hp he' => exact absurd he' he
  | cfu r he' => exact absurd he' he

theorem inv_execOneInstr {s t : State} {port : Port} (h : Fetching s)
    (hs : execOneInstr port s = .ok t) : Inv t := by
  obtain ⟨i, -, hs⟩ := Except.bind_eq_ok.mp hs
  obtain ⟨e, he, hs⟩ := Except.bind_eq_ok.mp hs
  exact Except.ok.inj hs ▸ inv_complete h (execute_shape he)

/-- The retry keeps the invariant unless it hands over a store. -/
theorem inv_masterPortRetry {s t : State} {port : Port} (h : Inv s)
    (hst : ∀ p q, s.requestQueue = .writeReq p :: q → port.transfers = false)
    (hs : masterPortRetry port s = .ok t) : Inv t := by
  obtain ⟨w, hl, hp⟩ := h
  unfold masterPortRetry at hs
  split at hs
  · exact Except.ok.inj hs ▸ ⟨w, hl, hp⟩
  · next hstall =>
    cases hp with
    | queuedLoad p q hp he hq hload hc =>
      simp only [hq] at hs
      split at hs
      · refine Except.ok.inj hs ▸ ⟨[q.instr], ⟨hl.counted, hl.committed, hl.path, ?_, hl.own⟩,
          .load p q hp he rfl (by simp [State.handOver, hload]) hc⟩
        simpa [State.handOver, hq] using hl.requested
      · exact Except.ok.inj hs ▸ ⟨_, hl, .queuedLoad p q hp he hq hload hc⟩
    | queuedStore p q hp hop he hq hload hc =>
      have hacc : port.accepts = false := by simpa [Port.transfers, hstall] using hst p [] hq
      simp only [hq, hp, hacc, Bool.false_eq_true, if_false] at hs
      exact Except.ok.inj hs ▸ ⟨_, hl, .queuedStore p q hp hop he hq hload hc⟩
    | ready he hq => simp [hq] at hs
    | halted he hq => simp [hq] at hs
    | load p q hp he hq => simp [hq] at hs
    | cfu r he hq => simp [hq] at hs

/-- A retry that hands over a store leaves the packet queued beside the next event. -/
theorem masterPortRetry_store {s t : State} {port : Port} {p : Burst WriteReq} {l : List Packet}
    (h : Inv s) (hq : s.requestQueue = .writeReq p :: l) (hport : port.transfers = true)
    (hs : masterPortRetry port s = .ok t) : ¬ ExactlyOnce t := by
  obtain ⟨w, hl, hp⟩ := h
  simp only [Port.transfers, Bool.and_eq_true, Bool.not_eq_true'] at hport
  cases hp with
  | queuedStore p' q hp hop he hq' hload hc =>
    have hne : q.instr.op ≠ .HCF := by
      intro hh
      rw [hh] at hop
      cases hop
    simp only [masterPortRetry, hport.1, hport.2, hq', hp, Bool.false_eq_true, if_false, if_true,
      Except.ok.injEq] at hs
    subst hs
    intro hx
    have := hx.atMostOne
    simp only [State.pending, commitInstr, State.setPc, State.handOver, hne, hq', he, if_false,
      List.length_singleton] at this
    omega
  | ready he hq' => rw [hq'] at hq; cases hq
  | halted he hq' => rw [hq'] at hq; cases hq
  | queuedLoad p q hp he hq' => rw [hq'] at hq; cases hq
  | load p q hp he hq' => rw [hq'] at hq; cases hq
  | cfu r he hq' => rw [hq'] at hq; cases hq

theorem Phase.loads_get {s : State} {w : List Instr} (hp : Phase s w) {k : Nat} {p : Burst ReadReq}
    (hk : s.loads[k]? = some p) : k = 0 ∧ s.loads = [p] ∧ s.events = 0 ∧ s.requestQueue = [] ∧ s.cfus = [] ∧
      ∃ q, p.payloads = [q] ∧ w = [q.instr] := by
  cases hp with
  | load p' q hp he hq hl hc =>
    rw [hl, List.getElem?_singleton] at hk
    split at hk
    · next h0 =>
      cases hk
      exact ⟨h0, hl, he, hq, hc, q, hp, rfl⟩
    · cases hk
  | ready he hq hl => simp [hl] at hk
  | halted he hq hl => simp [hl] at hk
  | queuedLoad p q hp he hq hl => simp [hl] at hk
  | queuedStore p q hp hop he hq hl => simp [hl] at hk
  | cfu r he hq hl => simp [hl] at hk

theorem Phase.cfus_get {s : State} {w : List Instr} (hp : Phase s w) {k : Nat} {r : CfuReq}
    (hk : s.cfus[k]? = some r) : k = 0 ∧ s.cfus = [r] ∧ s.events = 0 ∧ s.requestQueue = [] ∧ s.loads = [] ∧
      w = [r.instr] := by
  cases hp with
  | cfu r' he hq hl hc =>
    rw [hc, List.getElem?_singleton] at hk
    split at hk
    · next h0 =>
      cases hk
      exact ⟨h0, hc, he, hq, hl, rfl⟩
    · cases hk
  | ready he hq hl hc => simp [hc] at hk
  | halted he hq hl hc => simp [hc] at hk
  | queuedLoad p q hp he hq hl hc => simp [hc] at hk
  | queuedStore p q hp hop he hq hl hc => simp [hc] at hk
  | load p q hp he hq hl hc => simp [hc] at hk

/-- The response handlers: write one register, commit, and go to the next instruction. -/
theorem inv_respond {s t : State} {i : Instr} {o : Operand} {v : Word} (hl : Logs s [i])
    (he : s.events = 0) (hq : s.requestQueue = []) (hload : s.loads = []) (hc : s.cfus = [])
    (hs : (do let rf ← s.rf.write o v; return (commitInstr i { s with rf }).setPc (s.pc + 4)) = .ok t) :
    Inv t := by
  obtain ⟨rf, -, hs⟩ := Except.bind_eq_ok.mp hs
  exact Except.ok.inj hs ▸
    inv_commit (s := { s with rf }) ⟨hl.counted, hl.committed, hl.path, hl.requested, hl.own⟩ (s.pc + 4) he
      hq hload hc

theorem memReadXBarRespHandler_single {p : Burst ReadReq} {q : ReadReq} (hp : p.payloads = [q])
    (data : ReadReq → Word) (s : State) :
    memReadXBarRespHandler (respondTo p data) s =
      memReadRespHandler { tid := q.tid, instr := q.instr, op := q.op, data := data q, a1 := q.a1 } s := by
  simp only [memReadXBarRespHandler, respondTo, constructMemReadRespPkt, hp, List.map_cons, List.map_nil,
    List.foldlM_cons, List.foldlM_nil]
  exact bind_pure _

/-! ## Runs -/

/-- A retry with a free register finds the request of a load, or a store that the register refuses. -/
def RetrySafe (s : State) : Act → Prop
  | .retry port =>
    port.stalled = true ∨
      match s.requestQueue with
      | .readReq _ :: _ => True
      | .writeReq _ :: _ => port.accepts = false
      | _ => False
  | _ => True

theorem inv_step {s t : State} {a : Act} (h : Inv s) (hsafe : RetrySafe s a) (hs : step s a = .next t) :
    Inv t := by
  obtain ⟨w, hl, hp⟩ := h
  cases a with
  | exec port =>
    obtain ⟨he, hs⟩ := step_exec hs
    exact inv_execOneInstr (hp.fetching hl he) hs
  | retry port =>
    refine inv_masterPortRetry ⟨w, hl, hp⟩ (fun p q hq => ?_) (Outcome.ofExcept_eq_next.mp hs)
    simp only [RetrySafe, hq] at hsafe
    rcases hsafe with hs | hs <;> simp [Port.transfers, hs]
  | readResp k data =>
    obtain ⟨p, hk, hs⟩ := step_readResp hs
    obtain ⟨rfl, hload, he, hq, hc, q, hpay, rfl⟩ := hp.loads_get hk
    rw [memReadXBarRespHandler_single hpay] at hs
    exact inv_respond (s := { s with loads := s.loads.eraseIdx 0 })
      ⟨hl.counted, hl.committed, hl.path, hl.requested, hl.own⟩ he hq (by simp [hload]) hc hs
  | writeResp k =>
    obtain rfl := step_writeResp hs
    refine ⟨w, ⟨hl.counted, hl.committed, hl.path, hl.requested, hl.own⟩, ?_⟩
    cases hp with
    | ready he hq hload hc => exact .ready he hq hload hc
    | halted he hq hload hc hh => exact .halted he hq hload hc hh
    | queuedLoad p q hp he hq hload hc => exact .queuedLoad p q hp he hq hload hc
    | queuedStore p q hp hop he hq hload hc => exact .queuedStore p q hp hop he hq hload hc
    | load p q hp he hq hload hc => exact .load p q hp he hq hload hc
    | cfu r he hq hload hc => exact .cfu r he hq hload hc
  | cfuResp k rd =>
    obtain ⟨r, hk, hs⟩ := step_cfuResp hs
    obtain ⟨rfl, hc, he, hq, hload, rfl⟩ := hp.cfus_get hk
    exact inv_respond (s := { s with cfus := s.cfus.eraseIdx 0 })
      ⟨hl.counted, hl.committed, hl.path, hl.requested, hl.own⟩ he hq hload (by simp [hc]) hs

/-- Handing over a queued store breaks the accounting at once. -/
theorem step_unsafe {s t : State} {a : Act} (h : Inv s) (hsafe : ¬ RetrySafe s a) (hs : step s a = .next t) :
    ¬ ExactlyOnce t := by
  cases a with
  | retry port =>
    simp only [RetrySafe, not_or, Bool.not_eq_true] at hsafe
    obtain ⟨hstall, hsafe⟩ := hsafe
    simp only [step, Outcome.ofExcept_eq_next] at hs
    split at hsafe
    · exact absurd trivial hsafe
    · next p l hq =>
      exact masterPortRetry_store h hq (by simp [Port.transfers, hstall, hsafe]) hs
    · next hr hw =>
      unfold masterPortRetry at hs
      rw [if_neg (by simp [hstall])] at hs
      split at hs
      · cases hs
      · next p l hq => exact absurd hq (hr p l)
      · next p l hq => exact absurd hq (hw p l)
      · cases hs
  | exec port => exact absurd trivial hsafe
  | readResp k data => exact absurd trivial hsafe
  | writeResp k => exact absurd trivial hsafe
  | cfuResp k rd => exact absurd trivial hsafe

theorem Fault.OfInstr.ne_emptyQueue {e : Fault} (h : e.OfInstr) : e ≠ .emptyQueue := by
  rintro rfl
  exact h

theorem execOneInstr_faults {s : State} {port : Port} {e : Fault} (hs : execOneInstr port s = .error e) :
    e ≠ .emptyQueue := by
  cases hf : fetchInstr s with
  | error e' =>
    rw [execOneInstr, hf] at hs
    cases hs
    rintro rfl
    unfold fetchInstr Imem.fetch at hf
    split at hf <;> cases hf
  | ok i =>
    rw [execOneInstr, hf] at hs
    have : Faults Fault.OfInstr (processInstr port i s) := (execute_faults i s.pc s.rf).bind fun _ => .ok _
    exact Fault.OfInstr.ne_emptyQueue (this e hs)

theorem memReadRespHandler_faults (p : ReadResp) (s : State) :
    Faults Fault.OfInstr (memReadRespHandler p s) :=
  (s.rf.write_faults _ _).bind fun _ => .ok _

theorem cfuRespHandler_faults (i : Instr) (rd : Word) (s : State) :
    Faults Fault.OfInstr (cfuRespHandler i rd s) :=
  (s.rf.write_faults _ _).bind fun _ => .ok _

/-- The faults of the retry itself: `front()` of an empty queue is the only one that can happen. -/
theorem masterPortRetry_faults {s : State} {port : Port} {e : Fault} (h : Inv s)
    (hs : masterPortRetry port s = .error e) : e = .emptyQueue ∧ port.stalled = false ∧ s.requestQueue = [] := by
  obtain ⟨w, hl, hp⟩ := h
  unfold masterPortRetry at hs
  split at hs
  · cases hs
  · next hstall =>
    have hstall : port.stalled = false := by simpa using hstall
    cases hp with
    | queuedLoad p q hp he hq => simp [hq] at hs
    | queuedStore p q hp hop he hq => simp [hq, hp] at hs
    | ready he hq =>
      simp only [hq, Except.error.injEq] at hs
      exact ⟨hs.symm, hstall, hq⟩
    | halted he hq =>
      simp only [hq, Except.error.injEq] at hs
      exact ⟨hs.symm, hstall, hq⟩
    | load p q hp he hq =>
      simp only [hq, Except.error.injEq] at hs
      exact ⟨hs.symm, hstall, hq⟩
    | cfu r he hq =>
      simp only [hq, Except.error.injEq] at hs
      exact ⟨hs.symm, hstall, hq⟩

theorem ofExcept_eq_fault {ε σ : Type} {x : Except ε σ} {e : ε} :
    Outcome.ofExcept x = .fault e ↔ x = .error e := by
  cases x <;> simp

theorem step_fault {s : State} {a : Act} {e : Fault} (h : Inv s) (hs : step s a = .fault e) :
    RetrySafe s a ↔ e ≠ .emptyQueue := by
  cases a with
  | exec port =>
    simp only [step] at hs
    split at hs
    · cases hs
    · exact iff_of_true trivial (execOneInstr_faults (ofExcept_eq_fault.mp hs))
  | retry port =>
    obtain ⟨rfl, hstall, hq⟩ := masterPortRetry_faults h (ofExcept_eq_fault.mp hs)
    simp [RetrySafe, hstall, hq]
  | readResp k data =>
    simp only [step] at hs
    split at hs
    · cases hs
    · next p hk =>
      obtain ⟨w, hl, hp⟩ := h
      obtain ⟨-, -, -, -, -, q, hpay, -⟩ := hp.loads_get hk
      rw [ofExcept_eq_fault, memReadXBarRespHandler_single hpay] at hs
      exact iff_of_true trivial (Fault.OfInstr.ne_emptyQueue (memReadRespHandler_faults _ _ e hs))
  | writeResp k =>
    simp only [step] at hs
    split at hs <;> cases hs
  | cfuResp k rd =>
    simp only [step] at hs
    split at hs
    · cases hs
    · exact iff_of_true trivial
        (Fault.OfInstr.ne_emptyQueue (cfuRespHandler_faults _ _ _ e (ofExcept_eq_fault.mp hs)))

/-- **Exactly-once execution.** A run of a program executes, requests and commits each instruction once, and
meets no undefined behaviour of the request queue, exactly when every retry of it is safe. -/
theorem exactlyOnce_iff (imem : Imem) (as : List Act) :
    Always step (· = Fault.emptyQueue) ExactlyOnce (init imem) as ↔ Along step RetrySafe (init imem) as :=
  always_iff_along (fun _ => Inv.exactlyOnce) (fun _ _ _ => inv_step) (fun _ _ _ => step_fault)
    (fun _ _ _ => step_unsafe) as (inv_init imem)

/-- One `SW` that meets a stalled register, then two retries that find it free: the bus gets the request
twice, and a third copy is still queued. -/
theorem exactlyOnce_stalled_store :
    ¬ ∀ (imem : Imem) (as : List Act), Always step (· = Fault.emptyQueue) ExactlyOnce (init imem) as := by
  intro h
  have hr := (h (.ofList [{ op := .SW }]) [.exec ⟨true, true⟩, .retry ⟨false, true⟩, .retry ⟨false, true⟩]).last rfl
  exact absurd (congrArg List.length hr.logs.requested) (by decide)

end SocModel.Cpu
