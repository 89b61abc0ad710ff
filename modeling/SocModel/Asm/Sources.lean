import SocModel.Asm.Compile
import SocModel.Isa.Programs

/-!
# Sources on the instruction-level machine

A source is assembled into instructions and data, and the machine runs them as the text means.

* `sourceMemory` : the data memory behind the first pass;
* `source_runs` : runs of a source, command by command, and its end.
-/

namespace SocModel.Asm

open Lib
open Rv32i (Cmd Inst Slot Machine Program)

/-- The data memory that a source is run with. -/
def sourceMemory (cfg : Config) (s : State) : BaseMemory := ⟨cfg.memorySize, s.mem⟩

/-- **The assembler preserves the meaning of a source.** Its program is in the instruction memory, and the machine is
behind each of the commands in the state that RV32I has there, and stopped where the program ends, as long as the switch
does the commands as they are defined. -/
theorem source_runs (cfg : Config) (file : List Char) (s : State) (imem : Imem) (h : Source cfg file s imem) :
    Assembled imem (programOf cfg (sourceStmts file)) ∧
      ∀ k m, RunsExactly (programOf cfg (sourceStmts file)) (sourceMemory cfg s) k →
        Machine.after (programOf cfg (sourceStmts file)) s.mem k = some m →
        (∃ a, Arch.after imem (sourceMemory cfg s) (Machine.slots (programOf cfg (sourceStmts file)) s.mem k) = .next a ∧
          Boundary (programOf cfg (sourceStmts file)) (sourceMemory cfg s) k a m) ∧
        (programOf cfg (sourceStmts file) m.pc = some .halt → ∃ b,
          Arch.after imem (sourceMemory cfg s) (Machine.slots (programOf cfg (sourceStmts file)) s.mem k + 1) = .next b ∧
          b.halted = true ∧ Left (programOf cfg (sourceStmts file)) (sourceMemory cfg s) k m b.rf b.dmem.mem) := by
  have hload := assembled_source h
  refine ⟨hload, fun k m hrun hm => ⟨boundary_after hload hrun hm, fun hend => ?_⟩⟩
  exact halts_after hload hrun hm hend

/-- A loop over a word of the data section. -/
def addThrice : List Char :=
  ".text\nla x1, v\nli x2, 3\nlw x3, 0(x1)\nloop: addi x3, x3, 5\naddi x2, x2, -1\nbnez x2, loop\nsw x3, 0(x1)\nhcf\n.data\nv: .word 7\n".toList

def addThriceStmts : List (Nat × Stmt) :=
  [(1, .directive ".text".toList [])] ++
    ([(2, .instr "la".toList "x1, v\n".toList), (3, .instr "li".toList "x2, 3\n".toList),
      (4, .instr "lw".toList "x3, 0(x1)\n".toList), (5, .label "loop".toList),
      (5, .instr "addi".toList "x3, x3, 5\n".toList), (6, .instr "addi".toList "x2, x2, -1\n".toList),
      (7, .instr "bnez".toList "x2, loop\n".toList), (8, .instr "sw".toList "x3, 0(x1)\n".toList),
      (9, .instr "hcf".toList [])] ++
    [(10, .directive ".data".toList []), (11, .label "v".toList), (11, .directive ".word".toList "7\n".toList)])

theorem sourceStmts_addThrice : sourceStmts addThrice = addThriceStmts := by decide +kernel

/-- Both passes accept the file, and `ok` holds of what the first one leaves. -/
def acceptedAs (file : List Char) (ok : State → Bool) : Bool :=
  (parse {} file).toOption.any fun s => (normalizeLabels s.labels s.imem).toOption.isSome && ok s

theorem exists_of_acceptedAs {file : List Char} {ok : State → Bool} (h : acceptedAs file ok = true) :
    ∃ s imem, parse {} file = .ok s ∧ normalizeLabels s.labels s.imem = .ok imem ∧ ok s = true := by
  unfold acceptedAs at h
  rcases hp : parse {} file with e | s
  · rw [hp] at h
    cases h
  · rw [hp] at h
    rcases hn : normalizeLabels s.labels s.imem with e | imem
    · simp [hn, Except.toOption] at h
    · exact ⟨s, imem, rfl, hn, by simpa [hn, Except.toOption] using h⟩

theorem source_addThrice {ok : State → Bool} (h : acceptedAs addThrice ok = true) :
    ∃ s imem, Source {} addThrice s imem ∧ ok s = true := by
  obtain ⟨s, imem, hp, hn, hok⟩ := exists_of_acceptedAs h
  have hone : OneText (sourceStmts addThrice) :=
    ⟨_, _, _, sourceStmts_addThrice, by decide +kernel, by decide +kernel, by decide +kernel⟩
  refine ⟨s, imem, ⟨by decide, by decide +kernel, ?_, hone, hp, hn⟩, hok⟩
  rw [sourceStmts_addThrice]
  decide +kernel

theorem source_runs_addThrice : ∃ s imem m b,
    Machine.after (programOf {} (sourceStmts addThrice)) s.mem 13 = some m ∧ m.regs 3 = 22 ∧
      Arch.after imem (sourceMemory {} s) (Machine.slots (programOf {} (sourceStmts addThrice)) s.mem 13 + 1) = .next b ∧
      b.halted = true ∧ Left (programOf {} (sourceStmts addThrice)) (sourceMemory {} s) 13 m b.rf b.dmem.mem := by
  obtain ⟨s, imem, hs, hok⟩ := @source_addThrice
    (fun s => decide (RunsExactly (programOf {} addThriceStmts) (sourceMemory {} s) 13) &&
      (Machine.after (programOf {} addThriceStmts) s.mem 13).any fun m : Machine =>
        decide (m.regs 3 = 22 ∧ programOf {} addThriceStmts m.pc = some .halt)) (by decide +kernel)
  rw [Bool.and_eq_true, decide_eq_true_eq, Option.any_eq_true, ← sourceStmts_addThrice] at hok
  obtain ⟨hrun, m, hm, hend⟩ := hok
  obtain ⟨h3, hend⟩ := of_decide_eq_true hend
  obtain ⟨b, hb, hh, hleft⟩ := ((source_runs {} addThrice s imem hs).2 13 m hrun hm).2 hend
  exact ⟨s, imem, m, b, hm, h3, hb, hh, hleft⟩

end SocModel.Asm
