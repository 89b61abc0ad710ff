import SocModel.Stage5.Delivery

/-!
# The stages' own pointers into the pipeline

IFStage, IDStage and EXEStage decide hazards and memory stalls with pointers to the packets they have sent on. A stage
shifts its pointers only when it steps with an instruction at its input, so they do not follow the packets past it, and
WBStage recycles a packet whoever still points to it.

* `Windows` : the pointers of a stage are a window on the end of what it has sent on, `windows_step`;
* `executed_of_fresh` : a pointer not recycled shows the instruction it was made for;
* `readsFresh_iff_kept` : no recycled packet is read exactly as long as the registers past a stage hold, whenever it
  steps with an instruction, at least as many packets as it has pointers.
-/

namespace SocModel.Stage5

open Lib

namespace Pipeline

/-- The pointers a step reads to decide a hazard or a memory stall: none without an instruction at its input. -/
def reads (s : Pipeline) : StageAct → List Ptr
  | .stepIF isPopValid _ => if isPopValid then s.ifStage.pointers else []
  | .stepID _ => if s.prIF2ID.shown.isEmpty then [] else s.idStage.pointers
  | .stepEXE _ => if s.prID2EXE.shown.isEmpty then [] else s.exeStage.pointers
  | _ => []

/-- The packets in the pipe registers past the stage that steps. -/
def past (s : Pipeline) : StageAct → List Ptr
  | .stepIF _ _ => s.pastIF
  | .stepID _ => s.pastID
  | .stepEXE _ => s.pastEXE
  | _ => []

end Pipeline

/-- No packet the step reads has been recycled. -/
def ReadsFresh (s : Pipeline) (act : StageAct) : Prop := ∀ p ∈ s.reads act, p ∉ s.recycled

instance (s : Pipeline) (act : StageAct) : Decidable (ReadsFresh s act) :=
  inferInstanceAs (Decidable (∀ p ∈ s.reads act, p ∉ s.recycled))

/-- The registers past the stage that steps still hold as many packets as it reads pointers. -/
def Kept (s : Pipeline) (act : StageAct) : Prop := (s.reads act).length ≤ (s.past act).length

/-! ## What the simulator is taken to do -/

/-- `isStalled` is true exactly while the register holds a packet not popped, and a retry comes when there is space. -/
def Answers (s : Pipeline) : StageAct → Prop
  | .retry accepts => accepts = true
  | .stepIF _ isStalled => isStalled = !s.prIF2ID.held.isEmpty
  | .stepID isStalled => isStalled = !s.prID2EXE.held.isEmpty
  | .stepEXE isStalled => isStalled = !s.prEXE2MEM.held.isEmpty
  | .stepMEM isStalled => isStalled = !s.prMEM2WB.held.isEmpty
  | _ => True

instance (s : Pipeline) : (act : StageAct) → Decidable (Answers s act)
  | .retry accepts => inferInstanceAs (Decidable (accepts = true))
  | .stepIF _ isStalled => inferInstanceAs (Decidable (isStalled = _))
  | .stepID isStalled => inferInstanceAs (Decidable (isStalled = _))
  | .stepEXE isStalled => inferInstanceAs (Decidable (isStalled = _))
  | .stepMEM isStalled => inferInstanceAs (Decidable (isStalled = _))
  | .exec _ _ => inferInstanceAs (Decidable True)
  | .stepWB => inferInstanceAs (Decidable True)
  | .sync => inferInstanceAs (Decidable True)

inductive Stage where
  | IF | ID | EXE | MEM | WB
  deriving DecidableEq, Repr

def StageAct.stage : StageAct → Option Stage
  | .stepIF _ _ => some .IF
  | .stepID _ => some .ID
  | .stepEXE _ => some .EXE
  | .stepMEM _ => some .MEM
  | .stepWB => some .WB
  | _ => none

/-- Every stage steps once between two `sync`s; `stepped` are the stages that have stepped since the last one. -/
def oncePerTick (stepped : List Stage) : List StageAct → Bool
  | [] => true
  | act :: as =>
    match act.stage with
    | some x => !stepped.contains x && oncePerTick (x :: stepped) as
    | none => if act = .sync then stepped.length == 5 && oncePerTick [] as else oncePerTick stepped as

/-! ## Windows -/

/-- The pointers of a stage are the last packets it has sent on, perhaps without the very last shifts. -/
structure Windows (s : Pipeline) : Prop where
  ifStage : s.ifStage.pointers <:+ s.recycled ++ s.pastIF
  idStage : s.idStage.pointers <:+ s.recycled ++ s.pastID
  exeStage : s.exeStage.pointers <:+ s.recycled ++ s.pastEXE

section

variable {imem : Imem} {dmem : BaseMemory} {s t : Pipeline}

theorem windows_init (imem : Imem) (dmem : BaseMemory) : Windows (.init imem dmem) :=
  ⟨List.nil_suffix, List.nil_suffix, List.nil_suffix⟩

/-- A window that moves on with what it is a window on. -/
theorem suffix_append {w w' a x : List Ptr} (hw : w <:+ a) (hs : w' <:+ w ++ x) : w' <:+ a ++ x :=
  hs.trans (List.suffix_append_self_iff.mpr hw)

theorem Windows.stepIF {isStalled : Bool} (h : Windows s) (hs : s.stepIF isStalled = .next t) : Windows t := by
  unfold Pipeline.stepIF at hs
  split at hs
  · cases hs
  · next p port hp =>
    split at hs
    · next ifStage hst =>
      cases hs
      refine ⟨?_, h.idStage, h.exeStage⟩
      have := suffix_append h.ifStage (IFStage.pointers_step hst)
      simpa [Pipeline.pastIF, Pipeline.pastID, Pipeline.pastEXE] using this
    · next ifStage hst =>
      cases hs
      refine ⟨?_, h.idStage, h.exeStage⟩
      show ifStage.pointers <:+ s.recycled ++ s.pastIF
      simpa using suffix_append h.ifStage (IFStage.pointers_step hst)

theorem Windows.stepID {isStalled : Bool} (h : Windows s) : Windows (s.stepID isStalled) := by
  unfold Pipeline.stepID
  split
  · exact h
  · next p ps hp =>
    split
    · next idStage hst =>
      refine ⟨?_, ?_, h.exeStage⟩
      · have := h.ifStage
        simpa [Pipeline.pastIF, Pipeline.pastID, Pipeline.pastEXE, PipeRegister.held_eq_cons hp] using this
      · have := suffix_append h.idStage (IDStage.pointers_step hst)
        simpa [Pipeline.pastID, Pipeline.pastEXE] using this
    · next idStage hst =>
      refine ⟨h.ifStage, ?_, h.exeStage⟩
      show idStage.pointers <:+ s.recycled ++ s.pastID
      simpa using suffix_append h.idStage (IDStage.pointers_step hst)

theorem Windows.stepEXE {isStalled : Bool} (h : Windows s) : Windows (s.stepEXE isStalled) := by
  unfold Pipeline.stepEXE
  split
  · exact h
  · next p ps hp =>
    split
    · next exeStage hst =>
      refine ⟨?_, ?_, ?_⟩
      · have := h.ifStage
        simpa [Pipeline.pastIF, Pipeline.pastID, Pipeline.pastEXE, PipeRegister.held_eq_cons hp] using this
      · have := h.idStage
        simpa [Pipeline.pastID, Pipeline.pastEXE, PipeRegister.held_eq_cons hp] using this
      · have := suffix_append h.exeStage (EXEStage.pointers_step hst)
        simpa [Pipeline.pastEXE] using this
    · next exeStage hst =>
      refine ⟨h.ifStage, h.idStage, ?_⟩
      show exeStage.pointers <:+ s.recycled ++ s.pastEXE
      simpa using suffix_append h.exeStage (EXEStage.pointers_step hst)

/-- The packets a stage has sent on stay as they are. -/
theorem Windows.of_eq (h : Windows s) (hi : t.ifStage = s.ifStage) (hd : t.idStage = s.idStage)
    (hx : t.exeStage = s.exeStage) (hid : t.prID2EXE.held = s.prID2EXE.held) (hif : t.prIF2ID.held = s.prIF2ID.held)
    (hp : t.recycled ++ t.pastEXE = s.recycled ++ s.pastEXE) : Windows t := by
  have hpd : t.recycled ++ t.pastID = s.recycled ++ s.pastID := by
    unfold Pipeline.pastID
    rw [← List.append_assoc, hp, hid, List.append_assoc]
  refine ⟨?_, ?_, ?_⟩
  · rw [hi]
    unfold Pipeline.pastIF
    rw [← List.append_assoc, hpd, hif, List.append_assoc]
    exact h.ifStage
  · rw [hd, hpd]
    exact h.idStage
  · rw [hx, hp]
    exact h.exeStage

theorem Windows.stepMEM {isStalled : Bool} (h : Windows s) : Windows (s.stepMEM isStalled) := by
  unfold Pipeline.stepMEM
  split
  · exact h
  · next p ps hp =>
    split
    · refine h.of_eq rfl rfl rfl rfl rfl ?_
      simp [Pipeline.pastEXE, PipeRegister.held_eq_cons hp]
    · exact h.of_eq rfl rfl rfl rfl rfl rfl

theorem Windows.stepWB (h : Windows s) : Windows s.stepWB := by
  unfold Pipeline.stepWB
  split
  · exact h
  · next p ps hp =>
    refine h.of_eq rfl rfl rfl rfl rfl ?_
    simp [Pipeline.pastEXE, PipeRegister.held_eq_cons hp]

theorem windows_step {act : StageAct} (h : Windows s) (hs : s.step act = .next t) : Windows t := by
  cases act with
  | exec accepts object =>
    obtain ⟨i, cpu, -, -, -, rfl⟩ := Pipeline.exec_eq_next hs
    exact h.of_eq rfl rfl rfl rfl rfl rfl
  | retry accepts =>
    obtain ⟨cpu, -, rfl⟩ := Pipeline.retry_eq_next hs
    exact h.of_eq rfl rfl rfl rfl rfl rfl
  | stepIF isPopValid isStalled =>
    rcases Pipeline.stepIF_eq_next hs with hif | rfl
    · exact h.stepIF hif
    · exact h
  | stepID isStalled => exact Outcome.next.inj hs ▸ h.stepID
  | stepEXE isStalled => exact Outcome.next.inj hs ▸ h.stepEXE
  | stepMEM isStalled => exact Outcome.next.inj hs ▸ h.stepMEM
  | stepWB => exact Outcome.next.inj hs ▸ h.stepWB
  | sync => refine Outcome.next.inj hs ▸ h.of_eq rfl rfl rfl ?_ ?_ ?_ <;> simp [Pipeline.sync, Pipeline.pastEXE]

/-- What is past a stage is in flight. -/
theorem nodup_past (h : Delivers imem dmem s) :
    (s.recycled ++ s.pastEXE).Nodup ∧ (s.recycled ++ s.pastID).Nodup ∧ (s.recycled ++ s.pastIF).Nodup := by
  have hn : (s.recycled ++ s.inFlight).Nodup := h.line.nodup_pointers
  unfold Pipeline.inFlight Pipeline.pastIF Pipeline.pastID at *
  simp only [← List.append_assoc] at *
  have h1 := hn.of_append_left.of_append_left
  exact ⟨h1.of_append_left.of_append_left, h1.of_append_left, h1⟩

/-- What a step reads are packets the stage has sent on. -/
theorem mem_of_mem_reads (hw : Windows s) {act : StageAct} {p : Ptr} (hp : p ∈ s.reads act) :
    p ∈ s.recycled ++ s.inFlight := by
  have hsub : ∀ {w past : List Ptr}, w <:+ s.recycled ++ past → past ⊆ s.inFlight → w ⊆ s.recycled ++ s.inFlight := by
    intro w past hw hp q hq
    rcases List.mem_append.mp (hw.subset hq) with hq | hq
    · exact List.mem_append_left _ hq
    · exact List.mem_append_right _ (hp hq)
  cases act with
  | stepIF isPopValid isStalled =>
    dsimp only [Pipeline.reads] at hp
    split at hp
    · exact hsub hw.ifStage (by simp [Pipeline.inFlight]) hp
    · cases hp
  | stepID isStalled =>
    dsimp only [Pipeline.reads] at hp
    split at hp
    · cases hp
    · exact hsub hw.idStage (by simp [Pipeline.inFlight, Pipeline.pastIF]) hp
  | stepEXE isStalled =>
    dsimp only [Pipeline.reads] at hp
    split at hp
    · cases hp
    · exact hsub hw.exeStage (by simp [Pipeline.inFlight, Pipeline.pastIF, Pipeline.pastID]) hp
  | exec | retry | stepMEM | stepWB | sync => cases hp

/-- A pointer that has not been recycled shows the instruction it was made for; another may show any later one. -/
theorem executed_of_fresh (h : Delivers imem dmem s) (hw : Windows s) {act : StageAct} {p : Ptr} (hp : p ∈ s.reads act)
    (hf : p ∉ s.recycled) : s.executed[p.serial]? = some (p.deref s.heap) := by
  rcases List.mem_append.mp (mem_of_mem_reads hw hp) with hr | hin
  · exact absurd hr hf
  · exact h.line.deref_eq hin

theorem readsFresh_iff (h : Delivers imem dmem s) (hw : Windows s) (act : StageAct) :
    ReadsFresh s act ↔ Kept s act := by
  obtain ⟨hx, hd, hi⟩ := nodup_past h
  have hnil : (∀ p ∈ ([] : List Ptr), p ∉ s.recycled) ↔ ([] : List Ptr).length ≤ (s.past act).length := by simp
  unfold ReadsFresh Kept
  cases act with
  | stepIF isPopValid isStalled =>
    cases isPopValid with
    | false => exact hnil
    | true => exact window_fresh_iff hi hw.ifStage
  | stepID isStalled =>
    dsimp only [Pipeline.reads]
    split
    · exact hnil
    · exact window_fresh_iff hd hw.idStage
  | stepEXE isStalled =>
    dsimp only [Pipeline.reads]
    split
    · exact hnil
    · exact window_fresh_iff hx hw.exeStage
  | exec | retry | stepMEM | stepWB | sync => exact hnil

end

/-- **When the pointers are fresh.** In every run, no step of IFStage, IDStage or EXEStage reads a recycled packet exactly
when every such step with an instruction at its input finds in the pipe registers past the stage at least as many
packets as the stage has pointers. -/
theorem readsFresh_iff_kept (imem : Imem) (dmem : BaseMemory) (as : List StageAct) :
    Along Pipeline.step ReadsFresh (.init imem dmem) as ↔ Along Pipeline.step Kept (.init imem dmem) as := by
  refine along_congr (I := fun s => Delivers imem dmem s ∧ Windows s) ?_ ?_ as
    ⟨delivers_init imem dmem, windows_init imem dmem⟩
  · rintro s a t ⟨hd, hw⟩ hs
    exact ⟨delivers_step hd hs, windows_step hw hs⟩
  · rintro s a ⟨hd, hw⟩
    exact readsFresh_iff hd hw a

/-- The program `addi x1, x0, 1; addi x2, x0, 2; addi x3, x0, 3; hcf`. -/
def straightLine : Imem := .ofList
  [{ op := .ADDI, a1 := { reg := 1 }, a2 := { reg := 0 }, a3 := { imm := 1 } },
    { op := .ADDI, a1 := { reg := 2 }, a2 := { reg := 0 }, a3 := { imm := 2 } },
    { op := .ADDI, a1 := { reg := 3 }, a2 := { reg := 0 }, a3 := { imm := 3 } }, { op := .HCF }]

/-- The stages' steps in one tick in the order in which the simulators are registered. -/
def tick (isPopValid stallIF stallID stallEXE stallMEM : Bool) : List StageAct :=
  [.stepIF isPopValid stallIF, .stepID stallID, .stepEXE stallEXE, .stepMEM stallMEM, .stepWB, .sync]

/-- Seven ticks; at the start of the seventh the first instruction has been recycled. -/
def sevenTicks : List StageAct :=
  [.exec true 0] ++ tick false false false false false ++
  [.exec true 1] ++ tick true false false false false ++
  [.exec true 2] ++ tick true true false false false ++
  [.exec false 3] ++ tick true false true false false ++
  [.retry true] ++ tick true true false true false ++
  tick true false true false true ++
  tick true true false true false

/-- In the seventh tick IFStage still has its pointer to the first instruction, now as the one in MEM. -/
theorem not_readsFresh_straightLine : ¬ ∀ (imem : Imem) (dmem : BaseMemory) (as : List StageAct),
    oncePerTick [] as = true → Along Pipeline.step Answers (.init imem dmem) as →
      Along Pipeline.step ReadsFresh (.init imem dmem) as := by
  intro h
  have hx := h straightLine ⟨0, fun _ => 0⟩ sevenTicks (by decide +kernel) (by decide +kernel)
  exact absurd hx (by decide +kernel)

end SocModel.Stage5
