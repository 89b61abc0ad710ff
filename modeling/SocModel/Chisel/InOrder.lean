import SocModel.Chisel.Pipeline

/-!
# No instruction lost or duplicated

`InOrder` : the instructions that entered EXE are those that entered MEM followed by the one in EXE, the same
between MEM and WB, and every `JAL` or `JALR` that entered WB wrote its link register or is there.

`Reg_EXE` flushes before it looks at `Stall_MA`, while `Reg_MEM` holds on `Stall_MA`. So a jump or taken branch
that redirects the fetch while the access in MEM is unanswered is erased, and never enters MEM.

* `inOrder_cycle` : a cycle keeps the order unless it flushes and stalls at once;
* `inOrder_iff` : the runs that lose nothing.
-/

namespace SocModel.Chisel

open Lib

/-- `JAL` and `JALR`. -/
def isLink (i : Word) : Bool := opcode i == Opcode.JAL || opcode i == Opcode.JALR

/-- The write of its link register that an instruction owes. -/
def Entry.link (e : Entry) : RegWrite := ⟨e.inst, rd e.inst, (e.pc + 4).setWidth 32⟩

namespace State

def inExe (s : State) : List Entry := took true s.exe.pc s.exe.inst

def inMem (s : State) : List Entry := took true s.mem.pc s.mem.inst

/-- The link register that WB is writing. -/
def linkInWb (s : State) : List RegWrite :=
  if isLink s.wb.inst then [⟨s.wb.inst, rd s.wb.inst, s.wb.pcPlus4.setWidth 32⟩] else []

end State

structure InOrder (s : State) : Prop where
  mem : s.exeLog = s.memLog ++ s.inExe
  wb : s.memLog = s.wbLog ++ s.inMem
  links : (s.wbLog.filter (isLink ·.inst)).map Entry.link = s.writes.filter (isLink ·.inst) ++ s.linkInWb

instance (s : State) : Decidable (InOrder s) :=
  decidable_of_iff (s.exeLog = s.memLog ++ s.inExe ∧ s.memLog = s.wbLog ++ s.inMem ∧
      (s.wbLog.filter (isLink ·.inst)).map Entry.link = s.writes.filter (isLink ·.inst) ++ s.linkInWb)
    ⟨fun h => ⟨h.1, h.2.1, h.2.2⟩, fun h => ⟨h.mem, h.wb, h.links⟩⟩

theorem inOrder_reset : InOrder reset := by decide

/-! ## Jumps -/

theorem useRd_of_isLink {i : Word} (h : isLink i = true) : useRd i = true := by
  simp only [isLink, Bool.or_eq_true, beq_iff_eq] at h
  rcases h with h | h <;> rw [useRd, h] <;> rfl

theorem wWBSel_of_isLink {i : Word} (h : isLink i = true) : wWBSel i = .pcPlus4 := by
  simp only [isLink, Bool.or_eq_true, beq_iff_eq] at h
  rcases h with h | h <;> rw [wWBSel, h] <;> rfl

theorem ne_zero_of_isLink {i : Word} (h : isLink i = true) : i ≠ 0#32 := by
  rintro rfl
  exact absurd h (by decide)

theorem ne_zero_of_eEn {i : Word} (h : eEn i = true) : i ≠ 0#32 := by
  rintro rfl
  exact absurd h (by decide)

/-- What the register file's log gets of the instruction in WB, as far as jumps go. -/
theorem filter_write (s : State) :
    (if useRd s.wb.inst then [(⟨s.wb.inst, rd s.wb.inst, s.wbWdata⟩ : RegWrite)] else []).filter
      (isLink ·.inst) = s.linkInWb := by
  unfold State.linkInWb
  by_cases h : isLink s.wb.inst = true
  · rw [if_pos (useRd_of_isLink h), if_pos h, State.wbWdata, wWBSel_of_isLink h]
    simp [h]
  · rw [if_neg h]
    split <;> simp [h]

/-- The link registers a stage register takes on. -/
theorem filter_took (pc : Addr) (inst : Word) :
    ((took true pc inst).filter (isLink ·.inst)).map Entry.link =
      if isLink inst then [⟨inst, rd inst, (pc + 4).setWidth 32⟩] else [] := by
  unfold took
  by_cases h : isLink inst = true
  · simp [h, ne_zero_of_isLink h, Entry.link]
  · simp only [Bool.true_and]
    split <;> simp [h]

@[simp] theorem took_false (pc : Addr) (inst : Word) : took false pc inst = [] := rfl

@[simp] theorem took_zero (b : Bool) (pc : Addr) : took b pc 0#32 = [] := by
  cases b <;> rfl

/-! ## One cycle -/

section Cycle

variable {memory : Addr → BitVec 8} {s : State} {inp : Input}

/-- MEM and WB hold: EXE has to hold as well. -/
theorem inOrder_cycle_stalled (h : InOrder s) (hh : s.hcf = false) (hma : s.stallMA inp.dmValid = true)
    (hf : s.flush = false) : InOrder (cycle memory s inp) where
  mem := by
    simpa [cycle, State.issues, State.nextExe, State.inExe, hh, hma, hf] using h.mem
  wb := by
    simpa [cycle, State.nextMem, State.inMem, hh, hma] using h.wb
  links := by
    have hw : (cycle memory s inp).linkInWb = [] := by
      simp only [State.linkInWb, cycle, State.nextWb, hh, hma, Bool.false_eq_true, if_false, if_true]
      rfl
    rw [hw, List.append_nil]
    simp only [cycle, List.filter_append, hh, hma, Bool.false_or, Bool.not_true, took_false, List.append_nil]
    rw [filter_write, h.links]

/-- MEM and WB move on: what was in EXE is in MEM, and EXE takes the instruction in ID or a bubble. -/
theorem inOrder_cycle_moves (h : InOrder s) (hh : s.hcf = false) (hma : s.stallMA inp.dmValid = false) :
    InOrder (cycle memory s inp) where
  mem := by
    have hm : (cycle memory s inp).memLog = s.exeLog := by
      simp only [cycle, hh, hma, Bool.or_false, Bool.not_false]
      exact h.mem.symm
    rw [hm]
    exact congrArg (s.exeLog ++ ·) (took_nextExe hma).symm
  wb := by
    have hw : (cycle memory s inp).wbLog = s.memLog := by
      simp only [cycle, hh, hma, Bool.or_false, Bool.not_false]
      exact h.wb.symm
    rw [hw]
    simp [cycle, State.inMem, State.nextMem, hh, hma]
  links := by
    have hw : (cycle memory s inp).linkInWb =
        if isLink s.mem.inst then [⟨s.mem.inst, rd s.mem.inst, (s.mem.pc + 4).setWidth 32⟩] else [] := by
      simp [State.linkInWb, cycle, State.nextWb, hh, hma]
    rw [hw]
    simp only [cycle, List.filter_append, List.map_append, hh, hma, Bool.or_false, Bool.not_false]
    rw [filter_write, filter_took, h.links]

theorem inOrder_cycle (h : InOrder s) (hh : s.hcf = false)
    (hc : ¬ (s.flush = true ∧ s.stallMA inp.dmValid = true)) : InOrder (cycle memory s inp) := by
  by_cases hma : s.stallMA inp.dmValid = true
  · exact inOrder_cycle_stalled h hh hma (by simpa [hma] using hc)
  · exact inOrder_cycle_moves h hh (by simpa using hma)

/-- A flush while MEM waits erases the jump: it left EXE and did not enter MEM. -/
theorem not_inOrder_cycle (h : InOrder s) (hh : s.hcf = false) (hf : s.flush = true)
    (hma : s.stallMA inp.dmValid = true) : ¬ InOrder (cycle memory s inp) := by
  intro h'
  have hen : eEn s.exe.inst = true := by
    simp only [State.flush, Bool.and_eq_true] at hf
    exact hf.1.1
  have hin : s.inExe = [⟨s.exe.pc, s.exe.inst⟩] := by
    simp [State.inExe, took, ne_zero_of_eEn hen]
  have hmem := h'.mem
  simp only [cycle, State.issues, State.nextExe, State.inExe, hf, hma, hh, Bool.not_true, Bool.false_and,
    Bool.or_true, took_false, List.append_nil, if_true] at hmem
  have := h.mem
  rw [hmem, hin] at this
  simp at this

end Cycle

/-! ## Runs -/

/-- No jump or taken branch redirects the fetch while the access in MEM waits for its answer. -/
def NoLostJump (s : State) (inp : Input) : Prop := ¬ (s.flush = true ∧ s.stallMA inp.dmValid = true)

theorem step_eq_next {memory : Addr → BitVec 8} {s t : State} {inp : Input}
    (h : step memory s inp = .next t) : s.hcf = false ∧ t = cycle memory s inp := by
  unfold step at h
  split at h
  · cases h
  · next hh =>
    cases h
    exact ⟨by simpa using hh, rfl⟩

/-- **No instruction lost or duplicated.** Until `HCF` reaches WB, a run keeps every instruction that entered
EXE, in order, exactly when it never flushes and waits for the data memory in the same cycle. -/
theorem inOrder_iff (memory : Addr → BitVec 8) (inps : List Input) :
    Always (step memory) (fun _ => False) InOrder reset inps ↔ Along (step memory) NoLostJump reset inps := by
  refine always_iff_along (I := InOrder) (fun _ h => h) ?_ (fun _ _ e => e.elim) ?_ inps inOrder_reset
  · intro s inp t h hc hs
    obtain ⟨hh, rfl⟩ := step_eq_next hs
    exact inOrder_cycle h hh hc
  · intro s inp t h hc hs
    obtain ⟨hh, rfl⟩ := step_eq_next hs
    obtain ⟨hf, hma⟩ := not_not.mp hc
    exact not_inOrder_cycle h hh hf hma

/-- `lw x1, 0(x0)` and `jal x5, 16` behind it. -/
def loadThenJump : Addr → BitVec 8 := fun a =>
  ([0x83, 0x20, 0x00, 0x00, 0xef, 0x02, 0x00, 0x01] : List (BitVec 8)).getD a.toNat 0

/-- The jump redirects the fetch in the cycle in which the load waits in MEM, and is gone. -/
theorem inOrder_loadThenJump : ¬ ∀ (memory : Addr → BitVec 8) (inps : List Input),
    Always (step memory) (fun _ => False) InOrder reset inps := by
  intro h
  have hr := (h loadThenJump (List.replicate 4 ⟨false, 0⟩)).last rfl
  exact absurd hr (by decide +kernel)

end SocModel.Chisel
