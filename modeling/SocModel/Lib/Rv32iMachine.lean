import SocModel.Lib.Bytes
import SocModel.Lib.Rv32i

/-!
# The machine of RV32I

Registers, `pc` and a memory of bytes; a program says what is at an address, a command or the end.

* `Inst.exec` : an instruction, `Cmd.exec` : a command of an assembler, `Command` : what a program can be made of;
* `Inst.result_congr`, `Inst.taken_congr` : an instruction depends on the registers it reads;
* `Machine.after` : the state after a number of commands, `Machine.Throughout` : a condition on a whole run;
* `Machine.after_sim` : a second machine that follows every command follows the run.
-/

namespace SocModel.Rv32i

open Lib

/-! ## Accesses -/

/-- The bytes of the access. -/
def Load.size : Load → Nat
  | LB | LBU => 1
  | LH | LHU => 2
  | LW => 4

def Store.size : Store → Nat
  | SB => 1
  | SH => 2
  | SW => 4

/-- The value of a load whose bytes spell `v`. -/
def Load.extend (v : Nat) : Load → Word
  | LB => (BitVec.ofNat 8 v).signExtend 32
  | LH => (BitVec.ofNat 16 v).signExtend 32
  | LBU | LHU | LW => BitVec.ofNat 32 v

/-- Clearing bit 0 of an even value. -/
theorem and_not_one_of_even {v : Word} (h : v.toNat % 2 = 0) : v &&& ~~~1#32 = v := by
  have h0 : v.getLsbD 0 = false := (getLsbD_zero_eq_false_iff v).mpr h
  ext k hk
  rw [BitVec.getElem_and, BitVec.getElem_not, BitVec.getElem_one]
  rcases k with _ | k
  · rw [← BitVec.getLsbD_eq_getElem, h0, Bool.false_and]
  · simp

/-! ## Instructions -/

structure Machine where
  pc : Word
  regs : Reg → Word
  mem : Lib.Store

/-- Register 0 keeps its value. -/
def setReg (regs : Reg → Word) (rd : Reg) (v : Word) : Reg → Word := if rd = 0 then regs else Function.update regs rd v

theorem setReg_zero (regs : Reg → Word) (rd : Reg) (v : Word) : setReg regs rd v 0 = regs 0 := by
  unfold setReg
  split
  · rfl
  · next h => exact Function.update_of_ne (Ne.symm h) _ _

namespace Inst

instance (x y : Word) : (i : Inst) → Decidable (i.taken x y)
  | branch o .. => inferInstanceAs (Decidable (o.eval x y))
  | jal .. | jalr .. => isTrue trivial
  | op .. | opImm .. | shiftImm .. | lui .. | auipc .. | load .. | store .. => isFalse id

variable (i : Inst) (m : Machine)

/-- What `rs1` and `rs2` hold. -/
def x : Word := m.regs i.fields.rs1

def y : Word := m.regs i.fields.rs2

/-- The value, address or target. -/
def output : Word := i.result m.pc (i.x m) (i.y m)

/-- The value for `rd`. -/
def value : Word :=
  match i with
  | load o .. => o.extend (Lib.load m.mem (i.output m).toNat o.size)
  | jal .. | jalr .. => m.pc + 4
  | _ => i.output m

def exec : Machine where
  pc := if i.taken (i.x m) (i.y m) then i.output m else m.pc + 4
  regs := if i.writesRd then setReg m.regs i.fields.rd (i.value m) else m.regs
  mem :=
    match i with
    | store o .. => Lib.store m.mem (i.output m).toNat o.size (i.y m).toNat
    | _ => m.mem

variable {i m}

theorem exec_zero : (i.exec m).regs 0 = m.regs 0 := by
  unfold exec
  dsimp only
  split
  · exact setReg_zero _ _ _
  · rfl

theorem result_congr {pc x y x' y' : Word} (hx : i.readsRs1 = true → x = x') (hy : i.readsRs2 = true → y = y') :
    i.result pc x y = i.result pc x' y' := by
  cases i with
  | op o rd rs1 rs2 => rw [hx rfl, hy rfl]
  | opImm | shiftImm | load | store | jalr =>
    unfold result
    rw [hx rfl]
  | lui | auipc | branch | jal => rfl

theorem taken_congr {x y x' y' : Word} (hx : i.readsRs1 = true → x = x') (hy : i.readsRs2 = true → y = y') :
    i.taken x y ↔ i.taken x' y' := by
  cases i with
  | branch o rs1 rs2 offset => rw [hx rfl, hy rfl]
  | _ => exact Iff.rfl

end Inst

/-! ## Commands -/

/-- What the programs of a language are made of. -/
class Command (ι : Type) where
  exec : ι → Machine → Machine
  exec_zero : ∀ i m, (exec i m).regs 0 = m.regs 0

instance : Command Inst := ⟨Inst.exec, fun _ _ => Inst.exec_zero⟩

/-- The commands of an assembler: instructions, branches and jumps to an address, and a constant of 32 bits, which takes
the place of two instructions. -/
inductive Cmd where
  | inst (i : Inst)
  | branch (o : Cond) (rs1 rs2 : Reg) (target : Word)
  | jal (rd : Reg) (target : Word)
  | const (rd : Reg) (v : Word)
  deriving DecidableEq, Repr

namespace Cmd

def exec (m : Machine) : Cmd → Machine
  | inst i => i.exec m
  | branch o rs1 rs2 target => { m with pc := if o.eval (m.regs rs1) (m.regs rs2) then target else m.pc + 4 }
  | jal rd target => { m with pc := target, regs := setReg m.regs rd (m.pc + 4) }
  | const rd v => { m with pc := m.pc + 8, regs := setReg m.regs rd v }

/-- The register that is written. -/
def dest : Cmd → Option Reg
  | inst i => if i.writesRd then some i.fields.rd else none
  | branch .. => none
  | jal rd _ => some rd
  | const rd _ => some rd

/-- The value for it. -/
def value (m : Machine) : Cmd → Word
  | inst i => i.value m
  | branch .. => 0
  | jal .. => m.pc + 4
  | const _ v => v

/-- A write to `x0` writes zero there. -/
def KeepsZero (m : Machine) (c : Cmd) : Prop := c.dest = some 0 → c.value m = 0

instance (m : Machine) (c : Cmd) : Decidable (KeepsZero m c) := by
  unfold KeepsZero
  infer_instance

/-- The instructions that it takes. -/
def slots : Cmd → Nat
  | const .. => 2
  | _ => 1

theorem slots_pos (c : Cmd) : 0 < c.slots := by
  cases c with
  | const => exact Nat.two_pos
  | _ => exact Nat.one_pos

/-- The register is read. -/
def Reads (r : Reg) : Cmd → Prop
  | inst i => i.readsRs1 = true ∧ i.fields.rs1 = r ∨ i.readsRs2 = true ∧ i.fields.rs2 = r
  | branch _ rs1 rs2 _ => rs1 = r ∨ rs2 = r
  | _ => False

instance (r : Reg) : (c : Cmd) → Decidable (c.Reads r)
  | inst _ | branch .. => inferInstanceAs (Decidable (_ ∨ _))
  | jal .. | const .. => isFalse id

variable {m : Machine} {c : Cmd}

theorem exec_regs : (c.exec m).regs = match c.dest with
    | some rd => setReg m.regs rd (c.value m)
    | none => m.regs := by
  cases c with
  | inst i =>
    unfold exec dest value Inst.exec
    dsimp only
    cases i.writesRd <;> rfl
  | _ => rfl

theorem exec_zero : (c.exec m).regs 0 = m.regs 0 := by
  rw [exec_regs]
  rcases c.dest with _ | rd
  · rfl
  · exact setReg_zero _ _ _

end Cmd

instance : Command Cmd := ⟨fun c m => c.exec m, fun _ _ => Cmd.exec_zero⟩

/-! ## Programs -/

/-- What is at an address. -/
inductive Slot (ι : Type) where
  | inst (i : ι)
  | halt
  deriving DecidableEq, Repr

abbrev Program (ι : Type) := Word → Option (Slot ι)

def Slot.map {ι κ : Type} (f : ι → κ) : Slot ι → Slot κ
  | inst i => .inst (f i)
  | halt => .halt

/-- The instructions as commands. -/
def Program.cmds (p : Program Inst) : Program Cmd := fun pc => (p pc).map (Slot.map .inst)

/-- The instructions from address 0 on, and the end behind them. -/
def Program.ofList (is : List Inst) : Program Inst := fun pc =>
  if pc.toNat % 4 = 0 ∧ pc.toNat / 4 ≤ is.length then some ((is[pc.toNat / 4]?.map .inst).getD .halt) else none

namespace Machine

def start (mem : Lib.Store) : Machine := ⟨0, fun _ => 0, mem⟩

section

variable {ι : Type} [Command ι] (p : Program ι)

/-- The next state; at the end, and where there is nothing, there is none. -/
def step (m : Machine) : Option Machine :=
  match p m.pc with
  | some (.inst i) => some (Command.exec i m)
  | _ => none

/-- The state after `k` commands. -/
def after (mem : Lib.Store) : Nat → Option Machine
  | 0 => some (start mem)
  | k + 1 => (after mem k).bind (step p)

variable {p} {mem : Lib.Store} {m m' : Machine} {k : Nat}

theorem step_eq_some : step p m = some m' ↔ ∃ i, p m.pc = some (.inst i) ∧ m' = Command.exec i m := by
  unfold step
  rcases p m.pc with _ | i | _
  · simp
  · simp [eq_comm]
  · simp

theorem after_succ_eq_some : after p mem (k + 1) = some m' ↔
    ∃ m i, after p mem k = some m ∧ p m.pc = some (.inst i) ∧ m' = Command.exec i m := by
  rw [after, Option.bind_eq_some_iff]
  simp only [step_eq_some]
  constructor
  · rintro ⟨m, hm, i, hi⟩
    exact ⟨m, i, hm, hi⟩
  · rintro ⟨m, i, hm, hi⟩
    exact ⟨m, hm, i, hi⟩

theorem zero_of_after (h : after p mem k = some m) : m.regs 0 = 0 := by
  induction k generalizing m with
  | zero =>
    obtain rfl := Option.some.inj h
    rfl
  | succ k ih =>
    obtain ⟨m', i, hm, -, rfl⟩ := after_succ_eq_some.mp h
    exact (Command.exec_zero i m').trans (ih hm)

/-- A run goes through its earlier states, with a command at each of them. -/
theorem exists_after_of_lt {j : Nat} (h : after p mem k = some m) (hj : j < k) :
    ∃ m' i, after p mem j = some m' ∧ p m'.pc = some (.inst i) := by
  induction k generalizing m with
  | zero => exact absurd hj (Nat.not_lt_zero j)
  | succ k ih =>
    obtain ⟨m', i, hm, hi, -⟩ := after_succ_eq_some.mp h
    rcases Nat.lt_succ_iff_lt_or_eq.mp hj with hlt | rfl
    · exact ih hm hlt
    · exact ⟨m', i, hm, hi⟩

theorem exists_after_of_le {j : Nat} (h : after p mem k = some m) (hj : j ≤ k) : ∃ m', after p mem j = some m' := by
  rcases Nat.lt_or_eq_of_le hj with hlt | rfl
  · obtain ⟨m', -, hm', -⟩ := exists_after_of_lt h hlt
    exact ⟨m', hm'⟩
  · exact ⟨m, h⟩

/-- Every command of the run, `k` of them, and the state that it finds satisfy `P`. -/
def Throughout (p : Program ι) (mem : Lib.Store) (k : Nat) (P : Machine → ι → Prop) : Prop :=
  ∀ j < k, ∀ m i, after p mem j = some m → p m.pc = some (.inst i) → P m i

theorem throughout_succ {P : Machine → ι → Prop} {i : ι} (hm : after p mem k = some m) (hi : p m.pc = some (.inst i)) :
    Throughout p mem (k + 1) P ↔ Throughout p mem k P ∧ P m i := by
  constructor
  · exact fun h => ⟨fun j hj => h j (Nat.lt_succ_of_lt hj), h k k.lt_succ_self m i hm hi⟩
  · rintro ⟨h, hP⟩ j hj m' i' hm' hi'
    rcases Nat.lt_succ_iff_lt_or_eq.mp hj with hlt | rfl
    · exact h j hlt m' i' hm' hi'
    · obtain rfl := Option.some.inj (hm.symm.trans hm')
      obtain rfl : i = i' := by simpa using hi.symm.trans hi'
      exact hP

theorem Throughout.of_le {P : Machine → ι → Prop} (h : Throughout p mem k P) {j : Nat} (hj : j ≤ k) :
    Throughout p mem j P :=
  fun j' hj' => h j' (Nat.lt_of_lt_of_le hj' hj)

/-- The command that the state is at satisfies `P` with it. -/
def allows (p : Program ι) (P : Machine → ι → Prop) [∀ m i, Decidable (P m i)] (m : Machine) : Bool :=
  match p m.pc with
  | some (.inst i) => decide (P m i)
  | _ => true

omit [Command ι] in
theorem allows_eq_true_iff {P : Machine → ι → Prop} [∀ m i, Decidable (P m i)] :
    allows p P m = true ↔ ∀ i, p m.pc = some (.inst i) → P m i := by
  unfold allows
  rcases p m.pc with _ | i | _ <;> simp

omit [Command ι] in
theorem all_allows_iff {o : Option Machine} {P : Machine → ι → Prop} [∀ m i, Decidable (P m i)] :
    o.all (allows p P) = true ↔ ∀ m i, o = some m → p m.pc = some (.inst i) → P m i := by
  rw [Option.all_eq_true]
  refine forall_congr' fun m => ?_
  rw [allows_eq_true_iff]
  exact ⟨fun h i hm => h hm i, fun h hm i => h i hm⟩

instance (p : Program ι) (mem : Lib.Store) (k : Nat) (P : Machine → ι → Prop) [∀ m i, Decidable (P m i)] :
    Decidable (Throughout p mem k P) :=
  decidable_of_iff (∀ j < k, (after p mem j).all (allows p P) = true) (forall₂_congr fun _ _ => all_allows_iff)

/-- **The simulation rule.** What holds of the two machines at the start, and is kept by every command of the run that the
second one follows, holds all along the run. -/
theorem after_sim {σ : Type*} {R : Machine → σ → Prop} (follow : Nat → σ) (h0 : R (start mem) (follow 0))
    (hstep : ∀ j < k, ∀ m i, after p mem j = some m → p m.pc = some (.inst i) → R m (follow j) →
      R (Command.exec i m) (follow (j + 1)))
    (h : after p mem k = some m) : R m (follow k) := by
  induction k generalizing m with
  | zero =>
    obtain rfl := Option.some.inj h
    exact h0
  | succ k ih =>
    obtain ⟨m', i, hm, hi, rfl⟩ := after_succ_eq_some.mp h
    exact hstep k k.lt_succ_self m' i hm hi (ih (fun j hj => hstep j (hj.trans k.lt_succ_self)) hm)

end

/-! ### Commands of several instructions -/

section

variable (p : Program Cmd) (mem : Lib.Store)

/-- The instructions that the first commands take. -/
def slots : Nat → Nat
  | 0 => 0
  | k + 1 => slots k +
    match (after p mem k).bind fun m => p m.pc with
    | some (.inst c) => c.slots
    | _ => 0

variable {p mem} {k n : Nat} {m : Machine} {c : Cmd}

theorem slots_succ (hm : after p mem k = some m) (hc : p m.pc = some (.inst c)) :
    slots p mem (k + 1) = slots p mem k + c.slots := by
  simp [slots, hm, hc]

theorem slots_mono {j : Nat} (hj : j ≤ k) : slots p mem j ≤ slots p mem k := by
  induction hj with
  | refl => exact Nat.le_refl _
  | step _ ih => exact ih.trans (Nat.le_add_right _ _)

/-- A number of instructions up to there ends with a command, or within one. -/
theorem slots_cases (h : after p mem k = some m) (hn : n ≤ slots p mem k) : n = slots p mem k ∨
    ∃ j < k, ∃ m c, after p mem j = some m ∧ p m.pc = some (.inst c) ∧ slots p mem j ≤ n ∧ n < slots p mem j + c.slots := by
  induction k generalizing m with
  | zero => exact .inl (Nat.le_zero.mp hn)
  | succ k ih =>
    obtain ⟨m', c, hm, hc, -⟩ := after_succ_eq_some.mp h
    rw [slots_succ hm hc] at hn ⊢
    rcases Nat.lt_or_ge n (slots p mem k) with hlt | hge
    · rcases ih hm hlt.le with rfl | ⟨j, hj, hrest⟩
      · exact absurd hlt (Nat.lt_irrefl _)
      · exact .inr ⟨j, Nat.lt_succ_of_lt hj, hrest⟩
    · rcases Nat.lt_or_eq_of_le hn with hlt | heq
      · exact .inr ⟨k, k.lt_succ_self, m', c, hm, hc, hge, hlt⟩
      · exact .inl heq

/-- No command reads `x0` behind one that left another value than zero there. -/
def ZeroSafe (p : Program Cmd) (mem : Lib.Store) (k : Nat) : Prop :=
  ∀ j < k, ¬ Throughout p mem j Cmd.KeepsZero → ∀ m c, after p mem j = some m → p m.pc = some (.inst c) → ¬ c.Reads 0

theorem ZeroSafe.of_le (h : ZeroSafe p mem k) {j : Nat} (hj : j ≤ k) : ZeroSafe p mem j :=
  fun j' hj' => h j' (Nat.lt_of_lt_of_le hj' hj)

instance (p : Program Cmd) (mem : Lib.Store) (k : Nat) : Decidable (ZeroSafe p mem k) :=
  decidable_of_iff
    (∀ j < k, ¬ Throughout p mem j Cmd.KeepsZero → (after p mem j).all (allows p fun _ c => ¬ c.Reads 0) = true)
    (forall₂_congr fun _ _ => forall_congr' fun _ => all_allows_iff)

end

/-! ### Instructions as commands -/

section

variable {p : Program Inst} {mem : Lib.Store} {k : Nat}

theorem cmds_eq_halt {pc : Word} : p.cmds pc = some .halt ↔ p pc = some .halt := by
  unfold Program.cmds
  rcases p pc with _ | i | _ <;> simp [Slot.map]

theorem after_cmds : after p.cmds mem k = after p mem k := by
  induction k with
  | zero => rfl
  | succ k ih =>
    rw [after, after, ih]
    congr 1
    funext m
    unfold step Program.cmds
    rcases p m.pc with _ | i | _ <;> rfl

end

end Machine

end SocModel.Rv32i
