import SocModel.Chisel.Pipeline

/-!
# The data-hazard interlock

EXE takes an instruction only if no instruction in front of it has still to write a register that it reads. So its
operands, read before those write-backs, are what the registers hold after them.

* `State.retired` : the register file after the write-backs of WB, MEM and EXE, whatever the loads among them bring;
* `Carried` : where an instruction that entered EXE is, until it is in WB;
* `operands_sound` : the operands EXE takes are those of the retired register file, which is the register file by the
  time the instruction is in WB.
-/

namespace SocModel.Chisel

open Lib Opcode

/-- A cycle, whether `HCF` is in WB or not. -/
def clock (memory : Addr → BitVec 8) (s : State) (inp : Input) : Outcome Empty State := .next (cycle memory s inp)

/-! ## Write-backs -/

/-- The write of WB into the register file. -/
def writeBack (w : RegWB) (regs : BitVec 5 → Word) : BitVec 5 → Word := fun r =>
  if r = 0 then 0
  else if useRd w.inst && r == rd w.inst then
    match wWBSel w.inst with
    | .pcPlus4 => w.pcPlus4.setWidth 32
    | .aluOut => w.aluOut
    | .ldData => w.ldData
  else regs r

/-- What WB takes from MEM. -/
def RegMEM.toWb (m : RegMEM) (ldData : Word) : RegWB where
  pcPlus4 := m.pc + 4
  inst := m.inst
  aluOut := m.aluOut
  ldData := ldData

namespace State

/-- What MEM takes from EXE. -/
def toMem (s : State) : RegMEM where
  pc := s.exe.pc
  inst := s.exe.inst
  aluOut := s.exeAluOut
  dmWdata := s.exe.rs2

/-- The register file once the instructions in WB, MEM and EXE have written back; a load in MEM brings `ldMem`, one in
EXE `ldExe`. -/
def retired (s : State) (ldMem ldExe : Word) : BitVec 5 → Word :=
  writeBack (s.toMem.toWb ldExe) (writeBack (s.mem.toWb ldMem) (writeBack s.wb s.regs))

theorem nextRegs_eq (s : State) : s.nextRegs = writeBack s.wb s.regs := by
  funext r
  unfold nextRegs writeBack wbWdata
  rfl

end State

@[simp] theorem writeBack_zero (w : RegWB) (regs : BitVec 5 → Word) : writeBack w regs 0 = 0 := rfl

theorem writeBack_of_ne {w : RegWB} {r : BitVec 5} (regs : BitVec 5 → Word) (hr : r ≠ 0)
    (h : ¬ (useRd w.inst = true ∧ r = rd w.inst)) : writeBack w regs r = regs r := by
  unfold writeBack
  rw [if_neg hr, if_neg (by simpa using h)]

theorem writeBack_idem (w : RegWB) (regs : BitVec 5 → Word) :
    writeBack w (writeBack w regs) = writeBack w regs := by
  funext r
  rcases eq_or_ne r 0 with rfl | hr
  · rfl
  · unfold writeBack
    rw [if_neg hr, if_neg hr]
    split <;> rfl

/-- An instruction that writes no register. -/
theorem writeBack_of_not_useRd {w : RegWB} {regs : BitVec 5 → Word} (h : useRd w.inst = false) (h0 : regs 0 = 0) :
    writeBack w regs = regs := by
  funext r
  rcases eq_or_ne r 0 with rfl | hr
  · exact h0.symm
  · exact writeBack_of_ne regs hr fun hw => by simp [h] at hw

theorem useRd_of_hcf {s : State} (h : s.hcf = true) : useRd s.wb.inst = false := by
  have hop : opcode s.wb.inst = HCF := by simpa [State.hcf] using h
  rw [useRd, hop]
  rfl

/-! ## Reads -/

/-- The opcodes of the instructions that read `rs1`. -/
def readsRs1 (i : Word) : Prop := opcode i ∈ [LOAD, STORE, BRANCH, JALR, OP_IMM, OP]

/-- The opcodes of the instructions that read `rs2`. -/
def readsRs2 (i : Word) : Prop := opcode i ∈ [STORE, BRANCH, OP]

theorem useRs1_of_readsRs1 {i : Word} (h : readsRs1 i) : useRs1 i = true := by
  simp only [readsRs1, List.mem_cons, List.not_mem_nil, or_false] at h
  unfold useRs1
  rcases h with h | h | h | h | h | h <;> rw [h] <;> rfl

theorem useRs2_of_readsRs2 {i : Word} (h : readsRs2 i) : useRs2 i = true := by
  simp only [readsRs2, List.mem_cons, List.not_mem_nil, or_false] at h
  unfold useRs2
  rcases h with h | h | h <;> rw [h] <;> rfl

/-- A write-back that does not overlap with `i` leaves the registers that `i` reads alone. -/
theorem writeBack_rs1 {i : Word} {w : RegWB} (h : overlap i w.inst = false) (hu : useRs1 i = true)
    {regs : BitVec 5 → Word} (h0 : regs 0 = 0) : writeBack w regs (rs1 i) = regs (rs1 i) := by
  rcases eq_or_ne (rs1 i) 0 with hr | hr
  · rw [hr, writeBack_zero, h0]
  · refine writeBack_of_ne regs hr ?_
    rintro ⟨hd, he⟩
    have hno := (Bool.or_eq_false_iff.mp h).1
    rw [hu, hd, he] at hno
    rw [he] at hr
    exact hr (by simpa using hno)

theorem writeBack_rs2 {i : Word} {w : RegWB} (h : overlap i w.inst = false) (hu : useRs2 i = true)
    {regs : BitVec 5 → Word} (h0 : regs 0 = 0) : writeBack w regs (rs2 i) = regs (rs2 i) := by
  rcases eq_or_ne (rs2 i) 0 with hr | hr
  · rw [hr, writeBack_zero, h0]
  · refine writeBack_of_ne regs hr ?_
    rintro ⟨hd, he⟩
    have hno := (Bool.or_eq_false_iff.mp h).2
    rw [hu, hd, he] at hno
    rw [he] at hr
    exact hr (by simpa using hno)

section

variable {s : State}

/-- The interlock, at the cycle in which EXE takes the instruction in ID. -/
theorem not_overlap_of_issues {dmValid : Bool} (h : s.issues dmValid = true) :
    overlap s.id.inst s.exe.inst = false ∧ overlap s.id.inst s.mem.inst = false ∧
      overlap s.id.inst s.wb.inst = false := by
  simp only [State.issues, State.stallDH, Bool.and_eq_true, Bool.not_eq_true', Bool.or_eq_false_iff] at h
  exact ⟨h.2.2.1.1, h.2.2.1.2, h.2.2.2⟩

theorem retired_rs1 {dmValid : Bool} (h : s.issues dmValid = true) (h0 : s.regs 0 = 0) (hu : readsRs1 s.id.inst)
    (ldMem ldExe : Word) : s.retired ldMem ldExe (rs1 s.id.inst) = s.regs (rs1 s.id.inst) := by
  obtain ⟨he, hm, hw⟩ := not_overlap_of_issues h
  have hu := useRs1_of_readsRs1 hu
  rw [State.retired, writeBack_rs1 (w := s.toMem.toWb ldExe) he hu rfl,
    writeBack_rs1 (w := s.mem.toWb ldMem) hm hu rfl, writeBack_rs1 hw hu h0]

theorem retired_rs2 {dmValid : Bool} (h : s.issues dmValid = true) (h0 : s.regs 0 = 0) (hu : readsRs2 s.id.inst)
    (ldMem ldExe : Word) : s.retired ldMem ldExe (rs2 s.id.inst) = s.regs (rs2 s.id.inst) := by
  obtain ⟨he, hm, hw⟩ := not_overlap_of_issues h
  have hu := useRs2_of_readsRs2 hu
  rw [State.retired, writeBack_rs2 (w := s.toMem.toWb ldExe) he hu rfl,
    writeBack_rs2 (w := s.mem.toWb ldMem) hm hu rfl, writeBack_rs2 hw hu h0]

end

/-! ## The way to WB -/

/-- Where an instruction that entered EXE is; `gone` when it left WB or was erased. -/
inductive Stage where
  | exe | mem | wb | gone
  deriving DecidableEq, Repr

/-- Where the instruction is after the cycle. -/
def State.carry (s : State) (dmValid : Bool) : Stage → Stage
  | .exe =>
    if s.flush then if s.hcf || s.stallMA dmValid then .gone else .mem
    else if s.stallMA dmValid then .exe
    else if s.hcf then .gone else .mem
  | .mem => if s.hcf || s.stallMA dmValid then .mem else .wb
  | .wb => if s.hcf then .wb else .gone
  | .gone => .gone

structure Carried where
  cpu : State
  stage : Stage

def Carried.step (memory : Addr → BitVec 8) (c : Carried) (inp : Input) : Outcome Empty Carried :=
  .next ⟨cycle memory c.cpu inp, c.cpu.carry inp.dmValid c.stage⟩

/-- The operands EXE takes from ID in a cycle, against the register file the older instructions leave. -/
structure Sound (memory : Addr → BitVec 8) (s : State) (inp : Input) : Prop where
  rs1 : readsRs1 s.id.inst → ∀ ldMem ldExe, (cycle memory s inp).exe.rs1 = s.retired ldMem ldExe (rs1 s.id.inst)
  rs2 : readsRs2 s.id.inst → ∀ ldMem ldExe, (cycle memory s inp).exe.rs2 = s.retired ldMem ldExe (rs2 s.id.inst)
  /-- The retired register file is the one in any state in which the instruction is in WB. -/
  settled : ∀ (inps : List Input) (u : State),
    Reaches (Carried.step memory) ⟨cycle memory s inp, .exe⟩ inps ⟨u, .wb⟩ →
      ∃ ldMem ldExe, u.regs = s.retired ldMem ldExe

/-- What is still to be written in front of the instruction leads to a retired register file of `s`. -/
def Settles (s : State) (c : Carried) : Prop :=
  match c.stage with
  | .exe => ∃ ldMem, ∀ ldExe,
      writeBack (c.cpu.mem.toWb ldExe) (writeBack c.cpu.wb c.cpu.regs) = s.retired ldMem ldExe
  | .mem => ∃ ldMem ldExe, writeBack c.cpu.wb c.cpu.regs = s.retired ldMem ldExe
  | .wb => ∃ ldMem ldExe, c.cpu.regs = s.retired ldMem ldExe
  | .gone => True

section

variable {memory : Addr → BitVec 8} {s : State} {inp : Input}

theorem settles_issued (h : s.issues inp.dmValid = true) : Settles s ⟨cycle memory s inp, .exe⟩ := by
  obtain ⟨⟨-, hma⟩, hh, -⟩ := issues_iff.mp h
  refine ⟨inp.dmRdata, fun ldExe => ?_⟩
  have hm : (cycle memory s inp).mem = s.toMem := by simp [cycle, State.nextMem, hh, hma, State.toMem]
  have hw : (cycle memory s inp).wb = s.mem.toWb inp.dmRdata := by
    simp [cycle, State.nextWb, hh, hma, RegMEM.toWb]
  rw [hm, hw, show (cycle memory s inp).regs = s.nextRegs from rfl, State.nextRegs_eq]
  rfl

/-- A bubble in WB writes nothing. -/
theorem writeBack_bubble (w : RegWB) (regs : BitVec 5 → Word) : writeBack {} (writeBack w regs) = writeBack w regs :=
  writeBack_of_not_useRd (by decide) rfl

/-- MEM and WB hold, or a bubble is behind WB: the write of WB is done. -/
theorem writeBack_next (hw : s.nextWb inp = s.wb ∨ s.nextWb inp = {}) :
    writeBack (cycle memory s inp).wb (cycle memory s inp).regs = writeBack s.wb s.regs := by
  show writeBack (s.nextWb inp) s.nextRegs = writeBack s.wb s.regs
  rw [State.nextRegs_eq]
  rcases hw with hw | hw <;> rw [hw]
  · exact writeBack_idem _ _
  · exact writeBack_bubble _ _

theorem nextWb_of_held (h : (s.hcf || s.stallMA inp.dmValid) = true) : s.nextWb inp = s.wb ∨ s.nextWb inp = {} := by
  unfold State.nextWb
  rcases hh : s.hcf with _ | _
  · rw [hh, Bool.false_or] at h
    simp [h]
  · exact .inl rfl

theorem nextMem_of_held (h : (s.hcf || s.stallMA inp.dmValid) = true) : s.nextMem inp = s.mem := by
  unfold State.nextMem
  rw [if_pos h]

theorem nextMem_of_moves (h : (s.hcf || s.stallMA inp.dmValid) = false) : s.nextMem inp = s.toMem := by
  unfold State.nextMem
  rw [h]
  rfl

theorem nextWb_of_moves (h : (s.hcf || s.stallMA inp.dmValid) = false) : s.nextWb inp = s.mem.toWb inp.dmRdata := by
  obtain ⟨hh, hma⟩ := Bool.or_eq_false_iff.mp h
  unfold State.nextWb
  rw [hh, hma]
  rfl

/-- MEM and WB move on, and the instruction with them. -/
theorem Settles.moved {u : State} {stage : Stage} (h : Settles s ⟨u, stage⟩)
    (hmoves : (u.hcf || u.stallMA inp.dmValid) = false) :
    Settles s ⟨cycle memory u inp, u.carry inp.dmValid stage⟩ := by
  obtain ⟨hh, hma⟩ := Bool.or_eq_false_iff.mp hmoves
  have hw : (cycle memory u inp).wb = u.mem.toWb inp.dmRdata := nextWb_of_moves hmoves
  have hr : (cycle memory u inp).regs = writeBack u.wb u.regs := u.nextRegs_eq
  cases stage with
  | exe =>
    obtain ⟨ldMem, hall⟩ := h
    have hc : u.carry inp.dmValid .exe = .mem := by
      unfold State.carry
      simp only [hma, hh, Bool.or_self, Bool.false_eq_true, if_false, ite_self]
    rw [hc]
    refine ⟨ldMem, inp.dmRdata, ?_⟩
    show writeBack (cycle memory u inp).wb (cycle memory u inp).regs = _
    rw [hw, hr]
    exact hall inp.dmRdata
  | mem =>
    obtain ⟨ldMem, ldExe, hall⟩ := h
    have hc : u.carry inp.dmValid .mem = .wb := by
      unfold State.carry
      simp only [hmoves, Bool.false_eq_true, if_false]
    rw [hc]
    exact ⟨ldMem, ldExe, hr.trans hall⟩
  | wb =>
    have hc : u.carry inp.dmValid .wb = .gone := by
      unfold State.carry
      simp only [hh, Bool.false_eq_true, if_false]
    rw [hc]
    trivial
  | gone => trivial

/-- MEM holds its instruction, and so does WB, or it has written. -/
theorem Settles.held {u : State} {stage : Stage} (h : Settles s ⟨u, stage⟩)
    (hheld : (u.hcf || u.stallMA inp.dmValid) = true) :
    Settles s ⟨cycle memory u inp, u.carry inp.dmValid stage⟩ := by
  have hm : (cycle memory u inp).mem = u.mem := nextMem_of_held hheld
  have hw : writeBack (cycle memory u inp).wb (cycle memory u inp).regs = writeBack u.wb u.regs :=
    writeBack_next (nextWb_of_held hheld)
  cases stage with
  | exe =>
    obtain ⟨ldMem, hall⟩ := h
    have hc : u.carry inp.dmValid .exe = .exe ∨ u.carry inp.dmValid .exe = .gone := by
      unfold State.carry
      rcases hf : u.flush with _ | _
      · rcases hma : u.stallMA inp.dmValid with _ | _
        · rw [hma, Bool.or_false] at hheld
          simp [hheld]
        · simp
      · simp [hheld]
    rcases hc with hc | hc <;> rw [hc]
    · refine ⟨ldMem, fun ldExe => ?_⟩
      show writeBack ((cycle memory u inp).mem.toWb ldExe)
        (writeBack (cycle memory u inp).wb (cycle memory u inp).regs) = _
      rw [hm, hw]
      exact hall ldExe
    · trivial
  | mem =>
    obtain ⟨ldMem, ldExe, hall⟩ := h
    have hc : u.carry inp.dmValid .mem = .mem := by
      unfold State.carry
      simp only [hheld, if_true]
    rw [hc]
    exact ⟨ldMem, ldExe, hw.trans hall⟩
  | wb =>
    obtain ⟨ldMem, ldExe, hall⟩ := h
    rcases hh : u.hcf with _ | _
    · have hc : u.carry inp.dmValid .wb = .gone := by
        unfold State.carry
        simp only [hh, Bool.false_eq_true, if_false]
      rw [hc]
      trivial
    · have hc : u.carry inp.dmValid .wb = .wb := by
        unfold State.carry
        simp only [hh, if_true]
      have h0 : u.regs 0 = 0 := by
        rw [show u.regs = _ from hall]
        rfl
      rw [hc]
      refine ⟨ldMem, ldExe, ?_⟩
      show u.nextRegs = _
      rw [u.nextRegs_eq, writeBack_of_not_useRd (useRd_of_hcf hh) h0]
      exact hall
  | gone => trivial

/-- **One cycle on the way to WB.** -/
theorem Settles.step {c : Carried} (h : Settles s c) (inp : Input) :
    Settles s ⟨cycle memory c.cpu inp, c.cpu.carry inp.dmValid c.stage⟩ := by
  rcases hheld : c.cpu.hcf || c.cpu.stallMA inp.dmValid with _ | _
  · exact h.moved hheld
  · exact h.held hheld

/-- **Main result.** In every cycle of every run in which EXE takes the instruction in ID, each operand it reads is the
value of its register after the write-backs of the instructions in EXE, MEM and WB. -/
theorem operands_sound (memory : Addr → BitVec 8) (inps : List Input) (s : State)
    (hr : Reaches (clock memory) reset inps s) (inp : Input) (hi : s.issues inp.dmValid = true) :
    Sound memory s inp := by
  have h0 : s.regs 0 = 0 := by
    refine hr.inv' (I := fun s => s.regs 0 = 0) ?_ rfl
    intro s inp t _ hs
    obtain rfl := Outcome.next.inj hs
    rfl
  have hexe : (cycle memory s inp).exe = s.decoded := (front_of_issues memory hi).2.2
  refine ⟨fun hu ldMem ldExe => ?_, fun hu ldMem ldExe => ?_, fun inps u hu => ?_⟩
  · rw [hexe, retired_rs1 hi h0 hu]
    rfl
  · rw [hexe, retired_rs2 hi h0 hu]
    rfl
  · refine hu.inv' (I := Settles s) ?_ (settles_issued hi)
    intro c inp c' hc hs
    obtain rfl := Outcome.next.inj hs
    exact hc.step inp

end

/-- `addi x1, x0, 5` and `add x2, x1, x1` behind it. -/
def addTwice : Addr → BitVec 8 := fun a =>
  ([0x93, 0x00, 0x50, 0x00, 0x33, 0x81, 0x10, 0x00] : List (BitVec 8)).getD a.toNat 0

/-- The state after `n` cycles without an answer of the data memory. -/
def after (memory : Addr → BitVec 8) (n : Nat) : State := (List.replicate n ⟨false, 0⟩).foldl (cycle memory) reset

theorem operands_sound_addTwice : (after addTwice 5).issues false = true ∧ Sound addTwice (after addTwice 5) ⟨false, 0⟩ :=
  ⟨by decide +kernel, operands_sound addTwice (List.replicate 5 ⟨false, 0⟩) _ rfl ⟨false, 0⟩ (by decide +kernel)⟩

end SocModel.Chisel
