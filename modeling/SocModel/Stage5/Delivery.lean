import SocModel.Stage5.Pipeline
import SocModel.Stage5.Refinement

/-!
# Every instruction is delivered once and in order

Whatever the port answers, whatever the pipe registers report and in whatever order the simulators step, the packets
of the 5-stage model form one line from the CPU to WBStage: a stage only moves a packet from one register to the next.

* `step_cases` : a step hands out one packet, gives one back, or moves the packets along;
* `Delivers` : the invariant, `delivers_of_reaches` : on every run;
* `retired_prefix_executed` : what WBStage recycles is a prefix of what the CPU executed, and one event at most is
  scheduled.
-/

namespace SocModel.Stage5

open Lib

/-! ## The steps of the CPU -/

/-- A call of `execOneInstr` on a CPU without a pending packet. -/
theorem exec_eq_next {s t : State} {accepts : Bool} (hp : s.pendingInstPacket = none)
    (h : step s (.exec accepts) = .next t) : ∃ i, fetchInstr s = .ok i ∧ t.pendingInstPacket.isSome = !accepts ∧
      t.executed = s.executed ++ [(s.pc, i)] := by
  dsimp only [step] at h
  split at h
  · cases h
  · have h := Outcome.ofExcept_eq_next.mp h
    simp only [execOneInstr, Except.bind_eq_ok] at h
    obtain ⟨i, hi, h⟩ := h
    obtain ⟨e, u, pcNext, -, rfl, hpu, -, -, -, hpc, hs⟩ := finish_of_processInstr h
    refine ⟨i, hi, ?_, ?_⟩ <;> unfold finish commitInstr State.send <;> rcases accepts with _ | _
    · rfl
    · simp [hpu, hp]
    · simp [State.executed, hp, hpc, hs]
    · simp [State.executed, hp, hpu, hpc, hs]

theorem retry_eq_next {s t : State} {accepts : Bool} (h : step s (.retry accepts) = .next t) :
    t.pendingInstPacket = none ∧ t.executed = s.executed := by
  have h : retrySendInstPacket accepts s = .ok t := Outcome.ofExcept_eq_next.mp h
  unfold retrySendInstPacket at h
  split at h
  · next hp =>
    obtain rfl := Except.ok.inj h
    exact ⟨hp, rfl⟩
  · next p hp =>
    split at h
    · obtain rfl := Except.ok.inj h
      exact ⟨rfl, by simp [State.executed, State.send, hp]⟩
    · cases h

/-! ## The line from the CPU to WBStage -/

section

variable {s t : Pipeline}

theorem Pipeline.line_issue {accepts : Bool} {object : Nat} {i : Instr} {cpu : State}
    (hp : s.pendingInstPacket = none) : (s.issue accepts object i cpu).line =
      s.line.issue object ⟨i, s.cpu.pc, cpu.pc != s.cpu.pc + 4⟩ := by
  unfold Pipeline.issue Pipeline.line Line.issue Pipeline.inFlight
  rcases accepts with _ | _
  · simp [hp, Pipeline.pastIF, Pipeline.pastID, Pipeline.pastEXE]
  · simp [hp, Pipeline.pastIF, Pipeline.pastID, Pipeline.pastEXE]

theorem Pipeline.line_stepWB : s.stepWB.line = s.line ∨ s.stepWB.line = s.line.recycle := by
  unfold Pipeline.stepWB
  split
  · exact .inl rfl
  · next p ps hp =>
    refine .inr ?_
    have hf : s.inFlight = p :: (s.prMEM2WB.pop.held ++ s.prEXE2MEM.held ++ s.prID2EXE.held ++ s.prIF2ID.held ++ s.port ++
        s.pendingInstPacket.toList) := by
      simp [Pipeline.inFlight, Pipeline.pastIF, Pipeline.pastID, Pipeline.pastEXE, PipeRegister.held_eq_cons hp]
    have hl : s.line = ⟨s.heap, s.acquired, _, s.recycled, s.retired, s.executed⟩ :=
      congrArg (fun l => Line.mk s.heap s.acquired l s.recycled s.retired s.executed) hf
    rw [hl]
    rfl

/-- What a step does to the line and to the CPU. -/
theorem step_cases {act : StageAct} (h : s.step act = .next t) :
    (∃ accepts object i cpu, object ∉ s.acquired ∧ Stage5.step s.cpu (.exec accepts) = .next cpu ∧
      fetchInstr s.cpu = .ok i ∧ t = s.issue accepts object i cpu) ∨
    (∃ accepts cpu, Stage5.step s.cpu (.retry accepts) = .next cpu ∧ t.line = s.line ∧ t.cpu = cpu ∧
      t.pendingInstPacket = none) ∨
    t = s.stepWB ∨ Moves s t := by
  cases act with
  | exec accepts object => exact .inl ⟨accepts, object, Pipeline.exec_eq_next h⟩
  | retry accepts =>
    right; left
    obtain ⟨cpu, hcpu, rfl⟩ := Pipeline.retry_eq_next h
    refine ⟨accepts, cpu, hcpu, ?_, rfl, rfl⟩
    simp [Pipeline.line, Pipeline.inFlight, Pipeline.pastIF, Pipeline.pastID, Pipeline.pastEXE]
  | stepIF isPopValid isStalled =>
    right; right; right
    rcases Pipeline.stepIF_eq_next h with hif | rfl
    · exact moves_stepIF hif
    · exact .refl t
  | stepID isStalled => exact .inr (.inr (.inr (Outcome.next.inj h ▸ moves_stepID)))
  | stepEXE isStalled => exact .inr (.inr (.inr (Outcome.next.inj h ▸ moves_stepEXE)))
  | stepMEM isStalled => exact .inr (.inr (.inr (Outcome.next.inj h ▸ moves_stepMEM)))
  | stepWB => exact .inr (.inr (.inl (Outcome.next.inj h).symm))
  | sync => exact .inr (.inr (.inr (Outcome.next.inj h ▸ moves_sync)))

end

/-! ## The invariant -/

/-- The packets are the CPU's instructions, in one line; the pipeline's copy of the pending packet is the CPU's. -/
structure Delivers (imem : Imem) (dmem : BaseMemory) (s : Pipeline) : Prop where
  line : s.line.Ok
  executed : s.executed.map (fun p => (p.pc, p.inst)) = s.cpu.executed
  pending : s.pendingInstPacket.isSome = s.cpu.pendingInstPacket.isSome
  cpu : Tracks imem dmem s.cpu

section

variable {imem : Imem} {dmem : BaseMemory} {s t : Pipeline}

theorem delivers_init (imem : Imem) (dmem : BaseMemory) : Delivers imem dmem (.init imem dmem) :=
  ⟨Line.ok_empty _, rfl, rfl, tracks_init imem dmem⟩

theorem Delivers.moves (h : Delivers imem dmem s) (hm : Moves s t) : Delivers imem dmem t := by
  have he : t.executed = s.executed := congrArg Line.issued hm.line
  exact ⟨hm.line ▸ h.line, by rw [he, hm.cpu, h.executed], by rw [hm.pending, hm.cpu, h.pending], hm.cpu ▸ h.cpu⟩

/-- While a call of `execOneInstr` is scheduled no packet is pending. -/
theorem Delivers.ready {accepts : Bool} {cpu : State} (h : Delivers imem dmem s)
    (hs : Stage5.step s.cpu (.exec accepts) = .next cpu) :
    s.cpu.pendingInstPacket = none ∧ s.pendingInstPacket = none := by
  have hne : s.cpu.events ≠ 0 := by
    intro h0
    simp [Stage5.step, h0] at hs
  have hp := (h.cpu.ready hne).2.1
  have hq := h.pending
  rw [hp] at hq
  exact ⟨hp, by simpa using hq⟩

theorem Delivers.issue {accepts : Bool} {object : Nat} {i : Instr} {cpu : State} (h : Delivers imem dmem s)
    (ho : object ∉ s.acquired) (hs : Stage5.step s.cpu (.exec accepts) = .next cpu) (hi : fetchInstr s.cpu = .ok i) :
    Delivers imem dmem (s.issue accepts object i cpu) := by
  obtain ⟨hp, hq⟩ := h.ready hs
  obtain ⟨j, hj, hpend, hex⟩ := exec_eq_next hp hs
  obtain rfl : i = j := Except.ok.inj (hi.symm.trans hj)
  refine ⟨?_, ?_, ?_, tracks_step h.cpu hs⟩
  · rw [Pipeline.line_issue hq]
    exact h.line.issue ho _
  · show (s.executed ++ [_]).map _ = cpu.executed
    rw [List.map_append, h.executed, hex]
    rfl
  · show (if accepts then s.pendingInstPacket else some _).isSome = cpu.pendingInstPacket.isSome
    rw [hpend, hq]
    rcases accepts with _ | _ <;> rfl

theorem Delivers.stepWB (h : Delivers imem dmem s) : Delivers imem dmem s.stepWB := by
  have hc : s.stepWB.cpu = s.cpu ∧ s.stepWB.pendingInstPacket = s.pendingInstPacket ∧
      s.stepWB.executed = s.executed := by
    unfold Pipeline.stepWB
    split
    · exact ⟨rfl, rfl, rfl⟩
    · exact ⟨rfl, rfl, rfl⟩
  obtain ⟨h1, h2, h3⟩ := hc
  refine ⟨?_, by rw [h3, h1, h.executed], by rw [h2, h1, h.pending], h1 ▸ h.cpu⟩
  rcases s.line_stepWB with hl | hl <;> rw [hl]
  · exact h.line
  · exact h.line.recycle

theorem delivers_step {act : StageAct} (h : Delivers imem dmem s) (hs : s.step act = .next t) :
    Delivers imem dmem t := by
  rcases step_cases hs with ⟨accepts, object, i, cpu, ho, hcpu, hi, rfl⟩ | ⟨accepts, cpu, hcpu, hl, rfl, hp⟩ | rfl | hm
  · exact h.issue ho hcpu hi
  · obtain ⟨hpend, hex⟩ := retry_eq_next hcpu
    have he : t.executed = s.executed := congrArg Line.issued hl
    refine ⟨hl ▸ h.line, by rw [he, h.executed, hex], ?_, tracks_step h.cpu hcpu⟩
    rw [hp, hpend]
    rfl
  · exact h.stepWB
  · exact h.moves hm

theorem delivers_of_reaches {as : List StageAct} (hr : Reaches Pipeline.step (.init imem dmem) as s) :
    Delivers imem dmem s :=
  hr.inv' (I := Delivers imem dmem) (fun _ _ _ h hs => delivers_step h hs) (delivers_init imem dmem)

/-- Nothing is lost: what was executed is what was recycled and, behind it, what is on its way. -/
theorem Delivers.conserved (h : Delivers imem dmem s) :
    s.retired ++ s.inFlight.map (·.deref s.heap) = s.executed := h.line.values

theorem Delivers.events (h : Delivers imem dmem s) :
    s.cpu.events ≤ 1 ∧ (s.pendingInstPacket.isSome = true → s.cpu.events = 0) := by
  have he := h.cpu.events
  rw [← h.pending] at he
  refine ⟨?_, fun hp => ?_⟩
  · split at he <;> omega
  · rwa [if_pos (.inr hp)] at he

end

/-- **In order and once.** In every reachable state the recycled packets are a prefix of the instructions executed, at
most one `ExecOneInstrEvent` is scheduled, and none while a packet is pending. -/
theorem retired_prefix_executed {imem : Imem} {dmem : BaseMemory} {as : List StageAct} {s : Pipeline}
    (hr : Reaches Pipeline.step (.init imem dmem) as s) :
    s.retired <+: s.executed ∧ s.cpu.events ≤ 1 ∧ (s.pendingInstPacket.isSome = true → s.cpu.events = 0) := by
  have h := delivers_of_reaches hr
  exact ⟨h.line.retired_prefix_issued, h.events⟩

/-- `addi x1, x0, 1` and `hcf`. -/
def addiThenHcf : Imem := .ofList
  [{ op := .ADDI, a1 := { reg := 1 }, a2 := { reg := 0 }, a3 := { imm := 1 } }, { op := .HCF }]

/-- `HCF` is refused once and sent by the retry, while the first instruction goes through. -/
def addiRetires : List StageAct :=
  [.exec true 0, .stepIF true false, .exec false 1, .sync, .stepID false, .retry true, .sync, .stepEXE false, .sync,
    .stepMEM false, .sync, .stepIF true true, .stepWB]

theorem retired_prefix_executed_addiThenHcf : ∃ s, Reaches Pipeline.step (.init addiThenHcf ⟨0, fun _ => 0⟩) addiRetires s ∧
    s.retired.length = 1 ∧ s.executed.length = 2 ∧
    (s.retired <+: s.executed ∧ s.cpu.events ≤ 1 ∧ (s.pendingInstPacket.isSome = true → s.cpu.events = 0)) := by
  have hrun : (run Pipeline.step (.init addiThenHcf ⟨0, fun _ => 0⟩) addiRetires).holds (fun s =>
      s.retired.length == 1 && s.executed.length == 2) = true := by decide +kernel
  obtain ⟨s, hr, hx⟩ := Outcome.exists_of_holds hrun
  simp only [Bool.and_eq_true, beq_iff_eq] at hx
  exact ⟨s, hr, hx.1, hx.2, retired_prefix_executed hr⟩

end SocModel.Stage5
