import SocModel.Isa.Programs
import SocModel.Soc.Refinement

/-!
# The CPU on the bus runs programs

Its registers and its data memory against the machine of RV32I, for every latency of the data memory and every order in
which packets arrive and events run.

* `OnDataMemory` : the accesses that the crossbar routes to the data memory;
* `accesses_of_denotes`, `allowed_of_run` : what the program asks of the bus;
* `Runs` : the states of a run, `run_of_reaches` : the states that are reached, `soc_runs` : programs that come to the end.
-/

namespace SocModel.Soc

open Lib Bus
open Rv32i (Cmd Inst Machine Program)

/-- The crossbar routes the access to the data memory. -/
def OnDataMemory (m : Machine) (x : Cmd) : Prop :=
  match x with
  | .inst i => match i with
    | .load .. | .store .. => slaveIndex (i.output m) = getIndex .dm
    | _ => True
  | _ => True

instance (m : Machine) : (x : Cmd) → Decidable (OnDataMemory m x)
  | .inst (.load ..) | .inst (.store ..) => Nat.decEq _ _
  | .inst (.op ..) | .inst (.opImm ..) | .inst (.shiftImm ..) | .inst (.lui ..) | .inst (.auipc ..)
  | .inst (.branch ..) | .inst (.jal ..) | .inst (.jalr ..) | .branch .. | .jal .. | .const .. => isTrue trivial

section

variable {lat : Nat} {p : Program Cmd} {imem : Imem} {dmem : BaseMemory} {k : Nat} {m : Machine} {a : Arch} {s : CpuMemory}

theorem isLoad_type (i : Inst) : i.type.isLoad = true ↔ ∃ o rd rs1 imm, i = .load o rd rs1 imm := by
  cases i with
  | load o rd rs1 imm => cases o <;> simp [Inst.type, Rv32i.Load.type, InstrType.isLoad]
  | op o | opImm o | shiftImm o | store o | branch o =>
    cases o <;> simp [Inst.type, Rv32i.Op.type, Rv32i.OpImm.type, Rv32i.ShiftImm.type, Rv32i.Store.type,
      Rv32i.Cond.type, InstrType.isLoad]
  | lui | auipc | jal | jalr => simp [Inst.type, InstrType.isLoad]

theorem isStore_type (i : Inst) : i.type.isStore = true ↔ ∃ o rs1 rs2 imm, i = .store o rs1 rs2 imm := by
  cases i with
  | store o rs1 rs2 imm => cases o <;> simp [Inst.type, Rv32i.Store.type, InstrType.isStore]
  | op o | opImm o | shiftImm o | load o | branch o =>
    cases o <;> simp [Inst.type, Rv32i.Op.type, Rv32i.OpImm.type, Rv32i.ShiftImm.type, Rv32i.Load.type,
      Rv32i.Cond.type, InstrType.isStore]
  | lui | auipc | jal | jalr => simp [Inst.type, InstrType.isStore]

/-- An instruction that is no access. -/
theorem accesses_of_op {c : Instr} {e : Effect} {size : Nat} {pc : Word} {rf : Regfile} (hl : c.op.isLoad = false)
    (hs : c.op.isStore = false) (he : execBase c pc rf = .ok e) : Accesses size c.op e := by
  rcases execBase_shape_or he with hshape | rfl
  · cases hshape with
    | write | keep | cfu => trivial
    | load hop =>
      rw [hl] at hop
      cases hop
    | store hop =>
      rw [hs] at hop
      cases hop
  · trivial

/-- The access of an instruction is the one that it is defined to make. -/
theorem accesses_of_denotes {clean : Prop} {c : Instr} {i : Inst} {e : Effect} (h : Agrees clean a m)
    (h0 : m.regs 0 = 0) (hz : (Cmd.inst i).Reads 0 → clean) (hd : Denotes a.pc c i) (hx : Exact a.dmem.size m (.inst i))
    (hdm : OnDataMemory m (.inst i)) (he : execBase c a.pc a.rf = .ok e) : Accesses a.dmem.size c.op e := by
  by_cases hl : c.op.isLoad = true
  · rw [hd.1] at hl
    obtain ⟨o, rd, rs1, imm, rfl⟩ := (isLoad_type i).mp hl
    obtain rfl := Except.ok.inj (he.symm.trans (h.effect_load h0 hd hz))
    refine ⟨?_, hdm⟩
    rw [show c.op = o.type from hd.1, readWidth_type]
    exact hx
  by_cases hs : c.op.isStore = true
  · rw [hd.1] at hs
    obtain ⟨o, rs1, rs2, imm, rfl⟩ := (isStore_type i).mp hs
    obtain rfl := Except.ok.inj (he.symm.trans (h.effect_store h0 hd hz))
    refine ⟨?_, hdm⟩
    rw [show c.op = o.type from hd.1, writeWidth_type]
    exact hx
  exact accesses_of_op (Bool.eq_false_iff.mpr hl) (Bool.eq_false_iff.mpr hs) he

variable (hload : Assembled imem p) (hrun : RunsExactly p dmem k) (h : Machine.after p dmem.mem k = some m)
  (hend : p m.pc = some .halt)

include hload hrun h hend

/-- Whatever state of the run the CPU is in, the program allows what comes next. -/
theorem allowed_of_run (hsh : SharedOnly imem) (hdm : Machine.Throughout p dmem.mem k OnDataMemory) {n : Nat}
    (ha : Arch.after imem dmem n = .next a) : Allowed imem a where
  shared i hi := hsh _ i hi
  accesses hh c e hc he := by
    rcases after_cases hload hrun h hend ha with ⟨j, hle, m', hm', -, hb⟩ | ⟨-, -, c', hc', hop⟩ | ⟨-, hhalt, -⟩
    · rcases Nat.lt_or_eq_of_le hle with hlt | rfl
      · obtain ⟨m1, x, hm1, hx⟩ := Machine.exists_after_of_lt h hlt
        obtain rfl := Option.some.inj (hm1.symm.trans hm')
        have hat : StoredAt imem a.pc x := by
          rw [hb.agrees.pc]
          exact hload m1.pc _ hx
        cases x with
        | inst i =>
          obtain ⟨c', hc', hd⟩ := hat
          obtain rfl := Except.ok.inj (hc.symm.trans hc')
          refine accesses_of_denotes hb.agrees (Machine.zero_of_after hm1) (fun hr => ?_) hd ?_ (hdm j hlt m1 _ hm1 hx) he
          · by_contra hno
            exact hrun.zero j hlt hno m1 _ hm1 hx hr
          · rw [hb.size]
            exact hrun.exact j hlt m1 _ hm1 hx
        | branch o rs1 rs2 target =>
          obtain ⟨c', hc', hop, -⟩ := hat
          obtain rfl := Except.ok.inj (hc.symm.trans hc')
          exact accesses_of_op (by rw [hop]; cases o <;> rfl) (by rw [hop]; cases o <;> rfl) he
        | jal rd target =>
          obtain ⟨c', hc', hop, -⟩ := hat
          obtain rfl := Except.ok.inj (hc.symm.trans hc')
          exact accesses_of_op (by rw [hop]; rfl) (by rw [hop]; rfl) he
        | const rd v =>
          obtain ⟨c', -, hc', -, hop, -⟩ := hat
          obtain rfl := Except.ok.inj (hc.symm.trans hc')
          exact accesses_of_op (by rw [hop]; rfl) (by rw [hop]; rfl) he
      · obtain rfl := Option.some.inj (h.symm.trans hm')
        obtain ⟨c', hc', hop⟩ := hload m.pc _ hend
        rw [← hb.agrees.pc] at hc'
        obtain rfl := Except.ok.inj (hc.symm.trans hc')
        exact accesses_of_op (by rw [hop]; rfl) (by rw [hop]; rfl) he
    · obtain rfl := Except.ok.inj (hc.symm.trans hc')
      exact accesses_of_op (by rw [hop]; rfl) (by rw [hop]; rfl) he
    · rw [hh] at hhalt
      cases hhalt

omit hload hrun h hend in
/-- The state is one of the run of `k` commands that ends in `m`. -/
structure Runs (p : Program Cmd) (dmem : BaseMemory) (k : Nat) (m : Machine) (s : CpuMemory) : Prop where
  /-- `HCF` is the last instruction. -/
  bounded : s.executed.length ≤ Machine.slots p dmem.mem k + 1
  /-- With no load under way, everything is as behind the commands executed. -/
  boundary : s.cpu.loads = [] → ∀ j ≤ k, s.executed.length = Machine.slots p dmem.mem j →
    ∃ m', Machine.after p dmem.mem j = some m' ∧ s.cpu.pc = m'.pc ∧ Left p dmem j m' s.cpu.rf s.landed.mem
  /-- Behind `HCF`, as at the end. -/
  ended : s.executed.length = Machine.slots p dmem.mem k + 1 → s.cpu.loads = [] ∧ Left p dmem k m s.cpu.rf s.landed.mem

theorem runs_of_sim {n : Nat} (ha : Arch.after imem dmem n = .next a) (hs : Sim lat imem a s) : Runs p dmem k m s := by
  have hlen := Arch.done_length_of_after ha
  have hcases := after_cases hload hrun h hend ha
  rcases hs.phase with hr | ⟨q, hl⟩
  · have hn : s.executed.length = n := by rw [hr.executed, hlen]
    rw [← hn] at ha
    refine ⟨?_, fun _ j hj heq => ?_, fun heq => ⟨hr.loads, ?_⟩⟩
    · rw [hn]
      rcases hcases with ⟨j, hj, -, -, rfl, -⟩ | ⟨hlt, -⟩ | ⟨rfl, -⟩
      · exact Nat.le_succ_of_le (Machine.slots_mono hj)
      · omega
      · exact Nat.le_refl _
    · obtain ⟨m', hm'⟩ := Machine.exists_after_of_le h hj
      obtain ⟨b, hb, hbound⟩ := boundary_after hload (hrun.of_le hj) hm'
      rw [heq] at ha
      obtain rfl := Outcome.next.inj (ha.symm.trans hb)
      refine ⟨m', hm', hs.pc.trans hbound.agrees.pc, ?_⟩
      rw [hs.rf, hs.landed]
      exact ⟨hbound.agrees.rf, hbound.agrees.zero, hbound.agrees.mem⟩
    · obtain ⟨b, hb, -, hleft⟩ := halts_after hload hrun h hend
      rw [heq] at ha
      obtain rfl := Outcome.next.inj (ha.symm.trans hb)
      rw [hs.rf, hs.landed]
      exact hleft
  · have hn : s.executed.length = n + 1 := by rw [hl.executed, List.length_append, hlen, List.length_singleton]
    -- `HCF` is no load
    have hlt : n < Machine.slots p dmem.mem k := by
      rcases hcases with ⟨j, hj, m', hm', rfl, hb⟩ | ⟨hlt, -⟩ | ⟨-, hhalt, -⟩
      · rcases Nat.lt_or_eq_of_le hj with hlt | rfl
        · obtain ⟨m1, x, hm1, hx⟩ := Machine.exists_after_of_lt h hlt
          have hle : Machine.slots p dmem.mem (j + 1) ≤ Machine.slots p dmem.mem k := Machine.slots_mono hlt
          rw [Machine.slots_succ hm1 hx] at hle
          have := x.slots_pos
          omega
        · obtain rfl := Option.some.inj (h.symm.trans hm')
          obtain ⟨c, hc, hop⟩ := hload m.pc _ hend
          rw [← hb.agrees.pc, hl.fetch] at hc
          obtain rfl := Except.ok.inj hc
          cases (execBase_hcf hop a.pc a.rf).symm.trans hl.effect
      · exact hlt
      · rw [hl.halted] at hhalt
        cases hhalt
    refine ⟨by omega, fun hnil => ?_, fun hk => by omega⟩
    have := hl.loads
    rw [hnil] at this
    cases this

/-- **Every state that is reached** is one of the run, has no undefined behaviour ahead and the end within reach. -/
theorem run_of_reaches (hsh : SharedOnly imem) (hdm : Machine.Throughout p dmem.mem k OnDataMemory)
    {as : List CpuMemory.Act} (hr : Reaches (CpuMemory.step lat) (CpuMemory.init imem dmem) as s) :
    Runs p dmem k m s ∧ (∀ act e, CpuMemory.step lat s act ≠ .fault e) ∧
      ∃ bs t, Reaches (CpuMemory.step lat) s bs t ∧ t.executed.length = Machine.slots p dmem.mem k + 1 ∧ Drained t ∧
        Left p dmem k m t.cpu.rf t.dm.base.mem := by
  have hal : ∀ n a, Arch.after imem dmem n = .next a → Allowed imem a := fun n a ha =>
    allowed_of_run hload hrun h hend hsh hdm ha
  obtain ⟨b, hb, -, -⟩ := halts_after hload hrun h hend
  obtain ⟨n, a, ha, hs⟩ := sim_of_reaches hal hr
  have hcases := after_cases hload hrun h hend ha
  -- the machine has a next state until `HCF` is executed
  have hnext : a.halted = false → n ≤ Machine.slots p dmem.mem k := by
    intro hh
    rcases hcases with ⟨j, hj, -, -, rfl, -⟩ | ⟨hlt, -⟩ | ⟨-, hhalt, -⟩
    · exact Machine.slots_mono hj
    · exact hlt.le
    · rw [hh] at hhalt
      cases hhalt
  refine ⟨runs_of_sim hload hrun h hend ha hs, fun act e hf => ?_, ?_⟩
  · rcases hs.step_cases (hal n a ha) act with hbl | ⟨t, ht, -⟩ | ⟨e', -, hh, hx⟩
    · rw [hf] at hbl
      cases hbl
    · rw [hf] at ht
      cases ht
    · obtain ⟨c, hc, -⟩ := Arch.exists_after_of_le hb (Nat.succ_le_succ (hnext hh))
      rw [(Arch.step_eq_next.mp ((Arch.after_succ ha).symm.trans hc)).2] at hx
      cases hx
  · have hbehind : Behind lat imem dmem (Machine.slots p dmem.mem k + 1) n a s := by
      rcases hh : a.halted with _ | _
      · have hle := hnext hh
        exact ⟨ha, hs, Nat.le_succ_of_le hle, .inr (Nat.lt_succ_of_le hle)⟩
      · have hn : n = Machine.slots p dmem.mem k + 1 := by
          rcases hcases with ⟨j, -, m', -, -, hbound⟩ | ⟨-, hno, -⟩ | ⟨hn, -⟩
          · rw [hbound.halted] at hh
            cases hh
          · rw [hno] at hh
            cases hh
          · exact hn
        refine ⟨ha, hs, hn.le, .inl ?_⟩
        rcases hs.phase with hready | ⟨q, hl⟩
        · exact hready.loads
        · rw [hl.halted] at hh
          cases hh
    obtain ⟨bs, t, ht, hst, hdr⟩ := catches_up hal hb hbehind
    have hlen : t.executed.length = Machine.slots p dmem.mem k + 1 := by
      rw [(hdr.ready hst).executed, Arch.done_length_of_after hb]
    obtain ⟨-, hleft⟩ := (runs_of_sim hload hrun h hend hb hst).ended hlen
    refine ⟨bs, t, ht, hlen, hdr, ?_⟩
    rwa [CpuMemory.landed, hdr.waiting] at hleft

end

/-- **The CPU on the bus runs the program.** Let the program come to its end after `k` commands that the switch does as
they are defined, its accesses in the data memory. Then for every latency, every state that the CPU and its data memory
reach is one of that run, nothing that can happen there is undefined behaviour, and the end is still within reach, with
every store in the memory. -/
theorem soc_runs (lat : Nat) (p : Program Cmd) (imem : Imem) (dmem : BaseMemory) (hsh : SharedOnly imem)
    (hload : Assembled imem p) (k : Nat) (m : Machine) (h : Machine.after p dmem.mem k = some m)
    (hend : p m.pc = some .halt) (hrun : RunsExactly p dmem k) (hdm : Machine.Throughout p dmem.mem k OnDataMemory) :
    ∀ as s, Reaches (CpuMemory.step lat) (CpuMemory.init imem dmem) as s →
      Runs p dmem k m s ∧ (∀ act e, CpuMemory.step lat s act ≠ .fault e) ∧
      ∃ bs t, Reaches (CpuMemory.step lat) s bs t ∧ t.executed.length = Machine.slots p dmem.mem k + 1 ∧ Drained t ∧
        Left p dmem k m t.cpu.rf t.dm.base.mem :=
  fun _ _ hr => run_of_reaches hload hrun h hend hsh hdm hr

/-- The instructions of `storeThenLoad`. -/
def storeThenLoadInsts : List Inst := [.store .SW 0 0 4, .load .LW 1 0 4]

theorem assembled_storeThenLoad : Assembled storeThenLoad (Program.ofList storeThenLoadInsts).cmds :=
  assembled_ofList (by decide) (by decide) rfl

theorem soc_runs_storeThenLoad : ∃ m : Machine, m.pc = 8 ∧
    ∀ as s, Reaches (CpuMemory.step 5) (CpuMemory.init storeThenLoad ⟨16, fun _ => 0⟩) as s →
      Runs (Program.ofList storeThenLoadInsts).cmds ⟨16, fun _ => 0⟩ 2 m s ∧ (∀ act e, CpuMemory.step 5 s act ≠ .fault e) ∧
      ∃ bs t, Reaches (CpuMemory.step 5) s bs t ∧
        t.executed.length = Machine.slots (Program.ofList storeThenLoadInsts).cmds (fun _ => 0) 2 + 1 ∧ Drained t ∧
        Left (Program.ofList storeThenLoadInsts).cmds ⟨16, fun _ => 0⟩ 2 m t.cpu.rf t.dm.base.mem :=
  ⟨(Machine.after (Program.ofList storeThenLoadInsts).cmds (fun _ => 0) 2).getD (Machine.start fun _ => 0),
    by decide +kernel,
    soc_runs 5 (Program.ofList storeThenLoadInsts).cmds storeThenLoad ⟨16, fun _ => 0⟩ sharedOnly_storeThenLoad
      assembled_storeThenLoad 2 _ rfl (by decide +kernel) (by decide +kernel) (by decide +kernel)⟩

end SocModel.Soc
