import SocModel.Isa.Commands

/-!
# Programs on the instruction-level machine

A program of commands in the instruction memory, and the instruction-level machine that runs it. A constant is two
instructions, so the machine has states in between.

* `Boundary` : the state of the machine behind a number of commands;
* `boundary_after` : it is so all along a run, `halts_after` : and behind `HCF`;
* `after_cases` : every state that the machine has.
-/

namespace SocModel

open Lib
open Rv32i (Cmd Inst Machine Program)

section

variable {p : Program Cmd} {imem : Imem} {dmem : BaseMemory} {j k n : Nat} {m : Machine} {a : Arch} {x : Cmd}

/-- The machine behind `j` commands, at the next one. -/
structure Boundary (p : Program Cmd) (dmem : BaseMemory) (j : Nat) (a : Arch) (m : Machine) : Prop where
  agrees : Agrees (Machine.Throughout p dmem.mem j Cmd.KeepsZero) a m
  size : a.dmem.size = dmem.size
  halted : a.halted = false

/-- The conditions on the run: the switch does every command as it is defined, and `x0` is read as zero. -/
structure RunsExactly (p : Program Cmd) (dmem : BaseMemory) (k : Nat) : Prop where
  exact : Machine.Throughout p dmem.mem k (Exact dmem.size)
  zero : Machine.ZeroSafe p dmem.mem k

instance (p : Program Cmd) (dmem : BaseMemory) (k : Nat) : Decidable (RunsExactly p dmem k) :=
  decidable_of_iff (Machine.Throughout p dmem.mem k (Exact dmem.size) ∧ Machine.ZeroSafe p dmem.mem k)
    ⟨fun h => ⟨h.1, h.2⟩, fun h => ⟨h.exact, h.zero⟩⟩

theorem RunsExactly.of_le (h : RunsExactly p dmem k) (hj : j ≤ k) : RunsExactly p dmem j :=
  ⟨h.exact.of_le hj, h.zero.of_le hj⟩

/-- What the run leaves in the registers and in the memory. -/
structure Left (p : Program Cmd) (dmem : BaseMemory) (k : Nat) (m : Machine) (regs : Regfile) (bytes : Store) : Prop where
  rf : ∀ r, r ≠ 0 → regs (cell r) = m.regs r
  zero : Machine.Throughout p dmem.mem k Cmd.KeepsZero → regs (cell 0) = 0
  mem : bytes = m.mem

/-! ### One command -/

theorem type_ne_hcf (i : Inst) : i.type ≠ .HCF := by
  cases i with
  | op o | opImm o | shiftImm o | load o | store o | branch o => cases o <;> simp [Inst.type] <;> decide
  | lui | auipc | jal | jalr => simp [Inst.type]

theorem halted_of_exec {b : Arch} {c : Instr} (hc : imem.fetch (a.pc.toNat / 4) = .ok c) (h : a.exec imem = .ok b)
    (hop : c.op ≠ .HCF) : b.halted = false := by
  obtain ⟨c', hc', hdone⟩ := Arch.done_of_exec h
  obtain rfl := Except.ok.inj (hc.symm.trans hc')
  unfold Arch.halted
  rw [hdone]
  simp [hop]

theorem after_exec {b : Arch} (ha : Arch.after imem dmem n = .next a) (hh : a.halted = false) (h : a.exec imem = .ok b) :
    Arch.after imem dmem (n + 1) = .next b :=
  (Arch.after_succ ha).trans (Arch.step_eq_next.mpr ⟨hh, h⟩)

/-- A command that is one instruction. -/
theorem Boundary.of_does (h : Boundary p dmem j a m) (hm : Machine.after p dmem.mem j = some m)
    (hx : p m.pc = some (.inst x)) (hslots : x.slots = 1) {c : Instr} (hc : imem.fetch (a.pc.toNat / 4) = .ok c)
    (hop : c.op ≠ .HCF) (hd : Does (Machine.Throughout p dmem.mem j Cmd.KeepsZero) a m c x)
    (ha : Arch.after imem dmem (Machine.slots p dmem.mem j) = .next a) :
    ∃ b, Arch.after imem dmem (Machine.slots p dmem.mem (j + 1)) = .next b ∧ Boundary p dmem (j + 1) b (x.exec m) := by
  obtain ⟨b, hb, hag, hsize⟩ := hd
  have hexec : a.exec imem = .ok b := Except.bind_eq_ok.mpr ⟨c, hc, hb⟩
  refine ⟨b, ?_, ?_, hsize.trans h.size, halted_of_exec hc hexec hop⟩
  · rw [Machine.slots_succ hm hx, hslots]
    exact after_exec ha h.halted hexec
  · rw [Machine.throughout_succ hm hx]
    exact hag

/-- Between the two instructions of a constant. -/
def Between (imem : Imem) (a : Arch) : Prop :=
  a.halted = false ∧ ∃ c, imem.fetch (a.pc.toNat / 4) = .ok c ∧ c.op = .ADDI

/-- **One command.** -/
theorem Boundary.step (hload : Assembled imem p) (hrun : RunsExactly p dmem k) (hj : j < k) (h : Boundary p dmem j a m)
    (hm : Machine.after p dmem.mem j = some m) (hx : p m.pc = some (.inst x))
    (ha : Arch.after imem dmem (Machine.slots p dmem.mem j) = .next a) :
    (∃ b, Arch.after imem dmem (Machine.slots p dmem.mem (j + 1)) = .next b ∧ Boundary p dmem (j + 1) b (x.exec m)) ∧
      (x.slots = 2 → ∃ b, Arch.after imem dmem (Machine.slots p dmem.mem j + 1) = .next b ∧ Between imem b) := by
  have h0 := Machine.zero_of_after hm
  have hread : x.Reads 0 → Machine.Throughout p dmem.mem j Cmd.KeepsZero := fun hr => by
    by_contra hno
    exact hrun.zero j hj hno m x hm hx hr
  have hat : StoredAt imem a.pc x := by
    rw [h.agrees.pc]
    exact hload m.pc _ hx
  have hexact : Exact a.dmem.size m x := by
    rw [h.size]
    exact hrun.exact j hj m x hm hx
  cases x with
  | inst i =>
    obtain ⟨c, hc, hd⟩ := hat
    exact ⟨h.of_does hm hx rfl hc (by rw [hd.1]; exact type_ne_hcf i) (h.agrees.does_inst h0 hd hexact hread) ha, nofun⟩
  | branch o rs1 rs2 target =>
    obtain ⟨c, hc, hop, h1, h2, h3⟩ := hat
    refine ⟨h.of_does hm hx rfl hc (by rw [hop]; cases o <;> nofun)
      (h.agrees.does_branch h0 hop h1 h2 hread (.inl rfl) (.inr rfl) rfl ?_ rfl) ha, nofun⟩
    rw [h3]
    rfl
  | jal rd target =>
    obtain ⟨c, hc, hop, h1, h2⟩ := hat
    exact ⟨h.of_does hm hx rfl hc (by rw [hop]; nofun) (h.agrees.does_jal hop h1 rfl rfl h2.symm rfl) ha, nofun⟩
  | const rd v =>
    obtain ⟨c, c', hc, hc', hop, h1, h2, hop', h1', h2', h3'⟩ := hat
    obtain ⟨rf, b, he, hb, hag, hsize⟩ := h.agrees.does_const hop h1 h2 hop' h1' h2' h3'
    have hexec : a.exec imem = .ok (a.retire c rf (a.pc + 4) a.dmem) :=
      Except.bind_eq_ok.mpr ⟨c, hc, Except.bind_eq_ok.mpr ⟨_, he, rfl⟩⟩
    have hh := halted_of_exec hc hexec (by rw [hop]; nofun)
    have hmid := after_exec ha h.halted hexec
    have hexec' : (a.retire c rf (a.pc + 4) a.dmem).exec imem = .ok b := Except.bind_eq_ok.mpr ⟨c', hc', hb⟩
    refine ⟨⟨b, ?_, ?_, hsize.trans h.size, ?_⟩, fun _ => ⟨_, hmid, hh, c', hc', hop'⟩⟩
    · rw [Machine.slots_succ hm hx]
      exact after_exec hmid hh hexec'
    · rw [Machine.throughout_succ hm hx]
      exact hag
    · exact halted_of_exec (a := a.retire c rf (a.pc + 4) a.dmem) hc' hexec' (by rw [hop']; nofun)

/-- A list of instructions is stored if what is at each word denotes them, with `HCF` behind them. -/
theorem assembled_ofList {is : List Inst} {cs : List Instr} (hlen : is.length < cs.length)
    (hdenotes : ∀ j (hj : j < is.length), Denotes (BitVec.ofNat 32 (4 * j)) (cs.getD j {}) is[j])
    (hend : (cs.getD is.length {}).op = .HCF) : Assembled (.ofList cs) (Program.ofList is).cmds := by
  intro pc slot hslot
  obtain ⟨slot', hslot', rfl⟩ := Option.map_eq_some_iff.mp hslot
  unfold Program.ofList at hslot'
  split at hslot'
  · next hpc =>
    obtain ⟨hmod, hle⟩ := hpc
    have haddr : pc = BitVec.ofNat 32 (4 * (pc.toNat / 4)) := by
      have := pc.isLt
      apply BitVec.eq_of_toNat_eq
      rw [BitVec.toNat_ofNat]
      omega
    have hfetch : (Imem.ofList cs).fetch (pc.toNat / 4) = .ok (cs.getD (pc.toNat / 4) {}) :=
      if_pos (Nat.lt_of_le_of_lt hle hlen)
    rcases Nat.lt_or_eq_of_le hle with hlt | heq
    · rw [List.getElem?_eq_getElem hlt] at hslot'
      obtain rfl := Option.some.inj hslot'
      have hd := hdenotes _ hlt
      rw [← haddr] at hd
      exact ⟨_, hfetch, hd⟩
    · rw [List.getElem?_eq_none (by omega)] at hslot'
      obtain rfl := Option.some.inj hslot'
      refine ⟨_, hfetch, ?_⟩
      rw [heq]
      exact hend
  · cases hslot'

/-! ### Runs -/

variable (hload : Assembled imem p) (hrun : RunsExactly p dmem k) (h : Machine.after p dmem.mem k = some m)

include hload hrun h

/-- **A run.** -/
theorem boundary_after : ∃ a, Arch.after imem dmem (Machine.slots p dmem.mem k) = .next a ∧ Boundary p dmem k a m := by
  refine Machine.after_sim (R := fun m j => ∃ a, Arch.after imem dmem (Machine.slots p dmem.mem j) = .next a ∧
    Boundary p dmem j a m) id ⟨Arch.init dmem, rfl, ⟨rfl, fun _ _ => rfl, fun _ => rfl, rfl⟩, rfl, rfl⟩ ?_ h
  rintro j hj m x hm hx ⟨a, ha, hb⟩
  exact (hb.step hload hrun hj hm hx ha).1

omit hload hrun h in
theorem execBase_hcf {c : Instr} (h : c.op = .HCF) (pc : Word) (rf : Regfile) :
    execBase c pc rf = .ok (.commit rf (pc + 4)) := by
  unfold execBase
  rw [h]

/-- Where the program ends, `HCF` leaves everything but `pc` as it is. -/
theorem halts_after (hend : p m.pc = some .halt) :
    ∃ b, Arch.after imem dmem (Machine.slots p dmem.mem k + 1) = .next b ∧ b.halted = true ∧
      Left p dmem k m b.rf b.dmem.mem := by
  obtain ⟨a, ha, hb⟩ := boundary_after hload hrun h
  obtain ⟨c, hc, hop⟩ := hload m.pc _ hend
  rw [← hb.agrees.pc] at hc
  have he := execBase_hcf hop a.pc a.rf
  have hexec : a.exec imem = .ok (a.retire c a.rf (a.pc + 4) a.dmem) :=
    Except.bind_eq_ok.mpr ⟨c, hc, Except.bind_eq_ok.mpr ⟨_, he, rfl⟩⟩
  refine ⟨a.retire c a.rf (a.pc + 4) a.dmem, after_exec ha hb.halted hexec, ?_, hb.agrees.rf, hb.agrees.zero, hb.agrees.mem⟩
  unfold Arch.halted Arch.retire
  simp [hop]

/-- **Every state of the instruction-level machine**: behind some of the commands, between two instructions, or behind
`HCF`. -/
theorem after_cases (hend : p m.pc = some .halt) (ha : Arch.after imem dmem n = .next a) :
    (∃ j ≤ k, ∃ m', Machine.after p dmem.mem j = some m' ∧ n = Machine.slots p dmem.mem j ∧ Boundary p dmem j a m') ∨
      n < Machine.slots p dmem.mem k ∧ Between imem a ∨
      n = Machine.slots p dmem.mem k + 1 ∧ a.halted = true ∧ Left p dmem k m a.rf a.dmem.mem := by
  rcases Nat.lt_or_ge (Machine.slots p dmem.mem k) n with hlt | hle
  · obtain ⟨b, hb, hh, hleft⟩ := halts_after hload hrun h hend
    rcases Nat.lt_or_eq_of_le hlt with hlt | rfl
    · -- behind `HCF` there is no state
      obtain ⟨c, hc, -⟩ := Arch.exists_after_of_le ha hlt
      have := (Arch.step_eq_next.mp ((Arch.after_succ hb).symm.trans hc)).1
      rw [hh] at this
      cases this
    · obtain rfl := Outcome.next.inj (ha.symm.trans hb)
      exact .inr (.inr ⟨rfl, hh, hleft⟩)
  · rcases Machine.slots_cases h hle with rfl | ⟨j, hj, m', x, hm', hx, hge, hlt⟩
    · obtain ⟨b, hb, hbound⟩ := boundary_after hload hrun h
      obtain rfl := Outcome.next.inj (ha.symm.trans hb)
      exact .inl ⟨k, Nat.le_refl k, m, h, rfl, hbound⟩
    · obtain ⟨b, hb, hbound⟩ := boundary_after hload (hrun.of_le hj.le) hm'
      rcases Nat.lt_or_eq_of_le hge with hgt | rfl
      · have hslots : x.slots = 2 := by
          cases x <;> simp only [Cmd.slots] at hlt ⊢ <;> omega
        obtain rfl : n = Machine.slots p dmem.mem j + 1 := by omega
        obtain ⟨b', hb', hbetween⟩ := (hbound.step hload hrun hj hm' hx hb).2 hslots
        obtain rfl := Outcome.next.inj (ha.symm.trans hb')
        refine .inr (.inl ⟨?_, hbetween⟩)
        have hle : Machine.slots p dmem.mem (j + 1) ≤ Machine.slots p dmem.mem k := Machine.slots_mono hj
        rw [Machine.slots_succ hm' hx] at hle
        omega
      · obtain rfl := Outcome.next.inj (ha.symm.trans hb)
        exact .inl ⟨j, hj.le, m', hm', rfl, hbound⟩

end

end SocModel
