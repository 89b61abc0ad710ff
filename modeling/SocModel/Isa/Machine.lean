import SocModel.Isa.Exec
import SocModel.Lib.Machine
import SocModel.Mem.BaseMemory

/-!
# The instruction-level machine

What a program does, one whole instruction after the other: an abstract machine that both CPU models are compared
with. Its runs leave nothing to the environment, so a state is given by the number of instructions executed.

* `Arch.step` : one instruction, `Arch.after` : the state after `n` of them;
* `done_length_of_after`, `done_prefix_of_after` : the record of the instructions executed.
-/

namespace SocModel

open Lib

/-- Registers, pc, data memory, and the instructions executed with their addresses. -/
structure Arch where
  rf : Regfile
  pc : Word
  dmem : BaseMemory
  done : List (Word × Instr)

namespace Arch

/-- The last instruction was `HCF`. -/
def halted (a : Arch) : Bool := a.done.getLast?.any fun x => x.2.op == .HCF

/-- The state after the instruction at `pc`. -/
def retire (a : Arch) (i : Instr) (rf : Regfile) (pcNext : Word) (dmem : BaseMemory) : Arch :=
  ⟨rf, pcNext, dmem, a.done ++ [(a.pc, i)]⟩

/-- What comes after the switch: the access is done at once. -/
def complete (a : Arch) (i : Instr) : Effect → Except Fault Arch
  | .commit rf pcNext => .ok (a.retire i rf pcNext a.dmem)
  | .load addr => do
    let data ← a.dmem.memRead i.op addr
    let rf ← a.rf.write i.a1 data
    return a.retire i rf (a.pc + 4) a.dmem
  | .store addr data => do
    let dmem ← a.dmem.memWrite i.op addr data
    return a.retire i a.rf (a.pc + 4) dmem
  | .cfu _ _ => .error .assertion

def exec (imem : Imem) (a : Arch) : Except Fault Arch := do
  let i ← imem.fetch (a.pc.toNat / 4)
  let e ← execBase i a.pc a.rf
  a.complete i e

def step (imem : Imem) (a : Arch) : Outcome Fault Arch := if a.halted then .blocked else .ofExcept (a.exec imem)

def init (dmem : BaseMemory) : Arch := ⟨fun _ => 0, 0, dmem, []⟩

/-- The state after `n` instructions. -/
def after (imem : Imem) (dmem : BaseMemory) : Nat → Outcome Fault Arch
  | 0 => .next (init dmem)
  | n + 1 => (after imem dmem n).bind (step imem)

section

variable {imem : Imem} {dmem : BaseMemory} {a b : Arch} {n m : Nat}

theorem after_succ (h : after imem dmem n = .next a) : after imem dmem (n + 1) = a.step imem := by
  rw [after, h]
  rfl

theorem exists_after_of_succ (h : after imem dmem (n + 1) = .next b) :
    ∃ a, after imem dmem n = .next a ∧ a.step imem = .next b :=
  Outcome.bind_eq_next.mp h

theorem step_eq_next : a.step imem = .next b ↔ a.halted = false ∧ a.exec imem = .ok b := by
  unfold step
  rcases a.halted with _ | _
  · simp [Outcome.ofExcept_eq_next]
  · simp

theorem done_of_complete {i : Instr} {e : Effect} (h : a.complete i e = .ok b) : b.done = a.done ++ [(a.pc, i)] := by
  rcases e with ⟨rf, pcNext⟩ | addr | ⟨addr, data⟩ | ⟨x, y⟩ <;> unfold complete at h
  · exact Except.ok.inj h ▸ rfl
  · simp only [Except.bind_eq_ok] at h
    obtain ⟨data, -, rf, -, h⟩ := h
    exact Except.ok.inj h ▸ rfl
  · simp only [Except.bind_eq_ok] at h
    obtain ⟨dmem, -, h⟩ := h
    exact Except.ok.inj h ▸ rfl
  · cases h

theorem done_of_exec (h : a.exec imem = .ok b) :
    ∃ i, imem.fetch (a.pc.toNat / 4) = .ok i ∧ b.done = a.done ++ [(a.pc, i)] := by
  simp only [exec, Except.bind_eq_ok] at h
  obtain ⟨i, hi, e, -, h⟩ := h
  exact ⟨i, hi, done_of_complete h⟩

theorem done_length_of_after (h : after imem dmem n = .next a) : a.done.length = n := by
  induction n generalizing a with
  | zero => exact Outcome.next.inj h ▸ rfl
  | succ n ih =>
    obtain ⟨a', h', hs⟩ := exists_after_of_succ h
    obtain ⟨i, -, hd⟩ := done_of_exec (step_eq_next.mp hs).2
    rw [hd, List.length_append, ih h']
    rfl

/-- A run goes through every earlier state. -/
theorem exists_after_of_le (h : after imem dmem m = .next b) (hn : n ≤ m) :
    ∃ a, after imem dmem n = .next a ∧ a.done <+: b.done := by
  induction m generalizing b with
  | zero =>
    obtain rfl : n = 0 := by omega
    exact ⟨b, h, List.prefix_rfl⟩
  | succ m ih =>
    rcases Nat.lt_or_eq_of_le hn with hlt | rfl
    · obtain ⟨b', hb', hs⟩ := exists_after_of_succ h
      obtain ⟨a, ha, hp⟩ := ih hb' (by omega)
      obtain ⟨i, -, hd⟩ := done_of_exec (step_eq_next.mp hs).2
      exact ⟨a, ha, hp.trans (hd ▸ List.prefix_append _ _)⟩
    · exact ⟨b, h, List.prefix_rfl⟩

/-- Two states of the machine agree on what the one with fewer instructions has executed. -/
theorem done_prefix_of_after (ha : after imem dmem n = .next a) (hb : after imem dmem m = .next b) (hn : n ≤ m) :
    a.done <+: b.done := by
  obtain ⟨a', ha', hp⟩ := exists_after_of_le hb hn
  exact Outcome.next.inj (ha.symm.trans ha') ▸ hp

theorem size_of_after (h : after imem dmem n = .next a) : a.dmem.size = dmem.size := by
  induction n generalizing a with
  | zero => exact Outcome.next.inj h ▸ rfl
  | succ n ih =>
    obtain ⟨a', h', hs⟩ := exists_after_of_succ h
    have hx := (step_eq_next.mp hs).2
    simp only [exec, Except.bind_eq_ok] at hx
    obtain ⟨i, -, e, -, hx⟩ := hx
    rw [← ih h']
    rcases e with ⟨rf, pcNext⟩ | addr | ⟨addr, data⟩ | ⟨x, y⟩ <;> unfold complete at hx
    · exact Except.ok.inj hx ▸ rfl
    · simp only [Except.bind_eq_ok] at hx
      obtain ⟨data, -, rf, -, hx⟩ := hx
      exact Except.ok.inj hx ▸ rfl
    · simp only [Except.bind_eq_ok] at hx
      obtain ⟨dmem, hw, hx⟩ := hx
      exact Except.ok.inj hx ▸ (BaseMemory.memWrite_frame hw).1
    · cases hx

end

end Arch

end SocModel
