import SocModel.Chisel.Programs
import SocModel.Isa.Programs
import SocModel.Stage5.Refinement

/-!
# One RV32I program on both CPUs

The functional CPU of the 5-stage model and the chip that it stands for come to the same registers and the same data
memory.

* `cpus_agree` : for every program and every run of the functional CPU.
-/

namespace SocModel.Timing

open Lib Stage5
open Rv32i (Inst Machine Program)

/-- **The two CPUs agree.** Let both have the program, with equal data, and let it come to its end by instructions that
each of them does as they are defined, with no linking jump erased behind an access. From latency 3 on the chip has `HCF`
in WB within the cycles of its pace. Wherever the functional CPU has executed `HCF`, whatever the port of its first stage
took when, its registers but `x0` are those of the chip from then on and its data memory has the bytes of the chip's; and
it can get there from everywhere. -/
theorem cpus_agree (p : Program Inst) (program data : Chisel.Bytes) (imem : Imem) (dmem : BaseMemory) (memLatency : Nat)
    (hL : 3 ≤ memLatency) (hchip : Chisel.Loaded program p) (hload : Assembled imem p.cmds)
    (hdata : Chisel.SameBytes data dmem.mem) (k : Nat) (m : Machine) (h : Machine.after p dmem.mem k = some m)
    (hend : p m.pc = some .halt) (hfit : Machine.Throughout p dmem.mem k Chisel.Fits) (hrun : RunsExactly p.cmds dmem k)
    (hlink : Machine.Throughout p dmem.mem (k - 1) (Chisel.NoLinkBehind p)) :
    ∃ n ≤ Chisel.pace memLatency * (k + 4) + 4, Chisel.Arrives program data memLatency n ∧
      ∀ as s, Reaches step (init imem dmem) as s →
        (s.arch.halted = true →
          (∀ c r, r ≠ 0 → (Chisel.Top.after program data memLatency (n + c)).cpu.regs r = s.rf (cell r)) ∧
          Chisel.SameBytes (Chisel.Top.after program data memLatency n).dm.memory s.dmem.mem) ∧
        ∃ bs t, Reaches step s bs t ∧ t.arch.halted = true := by
  have hmatch := Chisel.matches_after hchip hdata hfit h
  obtain ⟨n, hn, harr, hmem, hregs⟩ := Chisel.halts_of_throughout hL hchip hdata h hend hfit hlink
  refine ⟨n, hn, harr, fun as s hs => ?_⟩
  have htr := tracks_of_reaches hs
  obtain ⟨j, hj⟩ := htr.arch
  have h' := Machine.after_cmds.trans h
  have hend' := Machine.cmds_eq_halt.mpr hend
  obtain ⟨b, hb, hh, -⟩ := halts_after hload hrun h' hend'
  rcases hhalt : s.arch.halted with _ | _
  · -- the functional CPU is before `HCF`
    have hle : j ≤ Machine.slots p.cmds dmem.mem k + 1 := by
      rcases after_cases hload hrun h' hend' hj with ⟨i, hi, -, -, rfl, -⟩ | ⟨hlt, -⟩ | ⟨rfl, -⟩
      · exact Nat.le_succ_of_le (Machine.slots_mono hi)
      · omega
      · exact Nat.le_refl _
    obtain ⟨bs, t, ht, -, rfl⟩ := exists_reaches htr hj hb hle
    exact ⟨nofun, bs, t, ht, hh⟩
  · have hleft : Left p.cmds dmem k m s.rf s.dmem.mem := by
      rcases after_cases hload hrun h' hend' hj with ⟨i, -, m', -, -, hbound⟩ | ⟨-, hno, -⟩ | ⟨-, -, hleft⟩
      · rw [hbound.halted] at hhalt
        cases hhalt
      · rw [hno] at hhalt
        cases hhalt
      · exact hleft
    refine ⟨fun _ => ⟨fun c r hr => ?_, ?_⟩, [], s, .refl s, hhalt⟩
    · rw [hregs c, hmatch.regs, hleft.rf r hr]
    · rw [hmem, hleft.mem]
      exact hmatch.memory

/-- The program of `storeAndLoad` as the assembler stores it. -/
def storeAndLoadCode : List Instr :=
  [{ op := .ADDI, a1 := { reg := 1 }, a2 := { reg := 0 }, a3 := { imm := 5 } },
    { op := .SW, a1 := { reg := 1 }, a2 := { reg := 0 }, a3 := { imm := 0 } },
    { op := .LW, a1 := { reg := 2 }, a2 := { reg := 0 }, a3 := { imm := 0 } },
    { op := .ADD, a1 := { reg := 3 }, a2 := { reg := 2 }, a3 := { reg := 1 } }, { op := .HCF }]

theorem assembled_storeAndLoad : Assembled (.ofList storeAndLoadCode) (Program.ofList Chisel.storeAndLoadInsts).cmds :=
  assembled_ofList (by decide) (by decide) rfl

theorem cpus_agree_storeAndLoad : ∃ n ≤ Chisel.pace 3 * (4 + 4) + 4,
    Chisel.Arrives Chisel.storeAndLoad (fun _ => 0) 3 n ∧
    ∀ as s, Reaches step (init (.ofList storeAndLoadCode) ⟨16, fun _ => 0⟩) as s →
      (s.arch.halted = true →
        (∀ c r, r ≠ 0 →
          (Chisel.Top.after Chisel.storeAndLoad (fun _ => 0) 3 (n + c)).cpu.regs r = s.rf (cell r)) ∧
        Chisel.SameBytes (Chisel.Top.after Chisel.storeAndLoad (fun _ => 0) 3 n).dm.memory s.dmem.mem) ∧
      ∃ bs t, Reaches step s bs t ∧ t.arch.halted = true :=
  cpus_agree (Program.ofList Chisel.storeAndLoadInsts) Chisel.storeAndLoad (fun _ => 0) (.ofList storeAndLoadCode)
    ⟨16, fun _ => 0⟩ 3 (Nat.le_refl 3) Chisel.loaded_storeAndLoad assembled_storeAndLoad (fun _ => rfl) 4
    ((Machine.after (Program.ofList Chisel.storeAndLoadInsts) (fun _ => 0) 4).getD (Machine.start fun _ => 0))
    rfl (by decide +kernel) (by decide +kernel) (by decide +kernel) (by decide +kernel)

end SocModel.Timing
