import SocModel.Asm.Sources
import SocModel.Soc.Programs

/-!
# Sources on the CPU on the bus

From the text of a program to the registers and the data memory that the system leaves.

* `SharedStmt` : what the CPU does without the CFU, `sharedOnly_source` : sources of nothing else;
* `soc_runs_source` : sources that come to their end.
-/

namespace SocModel.Soc

open Lib Bus Asm
open Rv32i (Cmd Inst Machine Program)

/-! ## The operations in the instruction memory -/

/-- No instruction of the CFU, and no multiplication. -/
def SharedStmt : Stmt → Prop
  | .instr tok _ => Shared (parseOp tok)
  | _ => True

instance : (st : Stmt) → Decidable (SharedStmt st)
  | .instr .. => inferInstanceAs (Decidable (_ ∧ _ ∧ _))
  | .label _ | .directive .. => isTrue trivial

section

variable {cfg : Config} {s : Asm.State}

/-- The slots of such a statement hold operations that both CPU models have, those of the pseudo-instructions among
them. -/
theorem keepsCode_shared {p : Nat × Stmt} (h : SharedStmt p.2) : KeepsCode (fun i => Shared i.op) p := by
  obtain ⟨line, st⟩ := p
  rintro tok rest fs rfl hfs f hf i -
  obtain ⟨op, hop, hslot⟩ := lineSlots_from hfs f hf
  rw [(hslot i).op_eq]
  have hpseudo : ∀ op ∈ pseudoOps, Shared op := by
    unfold Shared
    decide
  rcases hop with rfl | hop
  · exact h
  · exact hpseudo op hop

/-- A source without such instructions leaves none in the instruction memory. -/
theorem sharedOnly_source {file : List Char} {imem : Imem} (h : Source cfg file s imem)
    (hp : ∀ p ∈ sourceStmts file, SharedStmt p.2) : SharedOnly imem := by
  intro k i hi
  have hall := forall_code_run h.run (fun p hmem => keepsCode_shared (hp p hmem)) fun _ => ⟨rfl, nofun, nofun⟩
  unfold Imem.fetch at hi
  split at hi
  · next hk =>
    obtain rfl := Except.ok.inj hi
    have hres := h.resolved ((normalizeFrom_resolved h.normalized).1 ▸ hk)
    unfold Resolved at hres
    split at hres
    · rw [hres]
      exact hall k
    · rw [(normalizeInstr_resolve hres).op]
      exact hall k
  · cases hi

end

/-! ## The run -/

/-- **From the text to the result.** Let the program of a source come to its end after `k` commands that the switch does as
they are defined, its accesses in the data memory. Then for every latency, every state that the CPU on the bus and its data
memory reach with what the assembler leaves is one of that run, nothing that can happen there is undefined behaviour, and
the end is still within reach, with every store in the memory. -/
theorem soc_runs_source (lat : Nat) (cfg : Config) (file : List Char) (s : Asm.State) (imem : Imem)
    (h : Source cfg file s imem) (hsh : ∀ p ∈ sourceStmts file, SharedStmt p.2) (k : Nat) (m : Machine)
    (hm : Machine.after (programOf cfg (sourceStmts file)) s.mem k = some m)
    (hend : programOf cfg (sourceStmts file) m.pc = some .halt)
    (hrun : RunsExactly (programOf cfg (sourceStmts file)) (sourceMemory cfg s) k)
    (hdm : Machine.Throughout (programOf cfg (sourceStmts file)) s.mem k OnDataMemory) :
    ∀ as t, Reaches (CpuMemory.step lat) (CpuMemory.init imem (sourceMemory cfg s)) as t →
      Runs (programOf cfg (sourceStmts file)) (sourceMemory cfg s) k m t ∧
      (∀ act e, CpuMemory.step lat t act ≠ .fault e) ∧
      ∃ bs u, Reaches (CpuMemory.step lat) t bs u ∧
        u.executed.length = Machine.slots (programOf cfg (sourceStmts file)) s.mem k + 1 ∧ Drained u ∧
        Left (programOf cfg (sourceStmts file)) (sourceMemory cfg s) k m u.cpu.rf u.dm.base.mem :=
  fun _ _ hr => run_of_reaches (assembled_source h) hrun hm hend (sharedOnly_source h hsh) hdm hr

theorem soc_runs_source_addThrice : ∃ s imem, Source {} addThrice s imem ∧ ∃ m : Machine, m.regs 3 = 22 ∧
    ∀ as t, Reaches (CpuMemory.step 5) (CpuMemory.init imem (sourceMemory {} s)) as t →
      Runs (programOf {} (sourceStmts addThrice)) (sourceMemory {} s) 13 m t ∧
      (∀ act e, CpuMemory.step 5 t act ≠ .fault e) ∧
      ∃ bs u, Reaches (CpuMemory.step 5) t bs u ∧
        u.executed.length = Machine.slots (programOf {} (sourceStmts addThrice)) s.mem 13 + 1 ∧ Drained u ∧
        Left (programOf {} (sourceStmts addThrice)) (sourceMemory {} s) 13 m u.cpu.rf u.dm.base.mem := by
  obtain ⟨s, imem, hs, hok⟩ := @source_addThrice
    (fun s => decide (RunsExactly (programOf {} addThriceStmts) (sourceMemory {} s) 13 ∧
      Machine.Throughout (programOf {} addThriceStmts) s.mem 13 OnDataMemory) &&
      (Machine.after (programOf {} addThriceStmts) s.mem 13).any fun m : Machine =>
        decide (m.regs 3 = 22 ∧ programOf {} addThriceStmts m.pc = some .halt)) (by decide +kernel)
  rw [Bool.and_eq_true, decide_eq_true_eq, Option.any_eq_true, ← sourceStmts_addThrice] at hok
  obtain ⟨⟨hrun, hdm⟩, m, hm, hend⟩ := hok
  obtain ⟨h3, hend⟩ := of_decide_eq_true hend
  refine ⟨s, imem, hs, m, h3, soc_runs_source 5 {} addThrice s imem hs ?_ 13 m hm hend hrun hdm⟩
  rw [sourceStmts_addThrice]
  decide +kernel

end SocModel.Soc
