import SocModel.Asm.Labels
import SocModel.Cpu.ExactlyOnce
import SocModel.Isa.Rv32

/-!
# Instruction fetch

`fetchInstr` reads `imem[pc / 4]` and checks no bound: the assembler keeps the program inside the array, and nothing
keeps `pc` there. An instruction that is not implemented is passed over like any other, and so is the end of the
program.

* `Instr.goesTo` : where the CPU goes on after an instruction, `completes` : the instruction a step completes;
* `Moves` : what one step does to `pc` and to the scheduled events, `step_moves` : every step does that;
* `StaysInside` : a completed instruction leads to a slot of the array, or ends the program;
* `fetch_iff` : the fetches of a run of an assembled program, `not_fetchInside_jump` : a jump into the data.
-/

namespace SocModel

open Lib Bus

/-- The register that `o` names, zero when it names none. -/
def Regfile.value (rf : Regfile) (o : Operand) : Word := (rf.read o).toOption.getD 0

/-- Where the CPU goes on after `i`. `JALR` reads `rs1` after the link. -/
def Instr.goesTo (i : Instr) (pc : Word) (rf : Regfile) : Word :=
  match i.op with
  | .JAL => i.a2.imm
  | .JALR => (if i.a2.reg = i.a1.reg then pc + 4 else rf.value i.a2) + i.a3.imm
  | op => if op.taken (rf.value i.a1) (rf.value i.a2) then i.a3.imm else pc + 4

/-- The instruction leads to one of the slots: by the label of a jump or of a taken branch, by the address of `JALR`,
or behind itself. -/
def Instr.LeadsInside (slots : Nat) (i : Instr) (pc : Word) (rf : Regfile) : Prop :=
  match i.op with
  | .JAL => i.a2.imm.toNat / 4 < slots
  | .JALR => ((if i.a2.reg = i.a1.reg then pc + 4 else rf.value i.a2) + i.a3.imm).toNat / 4 < slots
  | op =>
    if op.taken (rf.value i.a1) (rf.value i.a2) then i.a3.imm.toNat / 4 < slots else (pc + 4).toNat / 4 < slots

theorem Instr.leadsInside_iff {slots : Nat} {i : Instr} {pc : Word} {rf : Regfile} :
    i.LeadsInside slots pc rf ↔ (i.goesTo pc rf).toNat / 4 < slots := by
  unfold LeadsInside goesTo
  split
  · rfl
  · rfl
  · split <;> rfl

/-- The instruction is not completed when it is executed. -/
def Instr.waits (i : Instr) (port : Port) : Bool :=
  i.op.isLoad || i.op.isCfu || i.op.isStore && !port.transfers

theorem Regfile.value_of_read {rf : Regfile} {o : Operand} {x : Word} (h : rf.read o = .ok x) : rf.value o = x := by
  unfold Regfile.value
  rw [h]
  rfl

theorem Regfile.read_write {rf rf' : Regfile} {o o' : Operand} {v : Word} (h : rf.write o v = .ok rf') :
    rf'.read o' = if o'.reg = o.reg then .ok v else rf.read o' := by
  obtain ⟨k, hk, rfl⟩ := write_eq_ok.mp h
  unfold Regfile.read
  split
  · next ho =>
    rw [regIndex_eq_ok.mpr (ho.trans hk)]
    exact congrArg Except.ok (Function.update_self k v rf)
  · next ho =>
    cases hj : regIndex o'.reg with
    | error e => rfl
    | ok j =>
      have hne : j ≠ k := fun hjk => ho ((regIndex_eq_ok.mp hj).trans (hjk ▸ hk.symm))
      exact congrArg Except.ok (Function.update_of_ne hne v rf)

/-! ## The next `pc` of the switch -/

namespace Effect

variable {i : Instr} {pc pc' v : Word} {rf rf' : Regfile} {f : Word → Word → Except Fault Word}

theorem pc_opRR (h : opRR f i pc rf = .ok (.commit rf' pc')) : pc' = pc + 4 := by
  simp only [opRR, Except.bind_eq_ok] at h
  obtain ⟨x, -, y, -, v, -, rf1, -, h⟩ := h
  cases h
  rfl

theorem pc_opRI (h : opRI f i pc rf = .ok (.commit rf' pc')) : pc' = pc + 4 := by
  simp only [opRI, Except.bind_eq_ok] at h
  obtain ⟨x, -, v, -, rf1, -, h⟩ := h
  cases h
  rfl

theorem pc_opU {g : Regfile → Except Fault Word} (h : opU v g i rf = .ok (.commit rf' pc')) :
    ∃ rf1, rf.write i.a1 v = .ok rf1 ∧ g rf1 = .ok pc' := by
  simp only [opU, Except.bind_eq_ok] at h
  obtain ⟨rf1, hw, pc1, hg, h⟩ := h
  cases h
  exact ⟨_, hw, hg⟩

theorem pc_branch {taken : Word → Word → Bool} (h : branch taken i pc rf = .ok (.commit rf' pc')) :
    pc' = if taken (rf.value i.a1) (rf.value i.a2) then i.a3.imm else pc + 4 := by
  simp only [branch, Except.bind_eq_ok] at h
  obtain ⟨x, hx, y, hy, h⟩ := h
  cases h
  rw [Regfile.value_of_read hx, Regfile.value_of_read hy]

theorem pc_jalr (h : opU (pc + 4) (fun rf => do let x ← rf.read i.a2; return x + i.a3.imm) i rf =
    .ok (.commit rf' pc')) : pc' = (if i.a2.reg = i.a1.reg then pc + 4 else rf.value i.a2) + i.a3.imm := by
  obtain ⟨rf1, hw, hg⟩ := pc_opU h
  obtain ⟨x, hx, hg⟩ := Except.bind_eq_ok.mp hg
  cases hg
  rw [Regfile.read_write hw] at hx
  split at hx
  · next hr =>
    cases hx
    rw [if_pos hr]
  · next hr => rw [if_neg hr, Regfile.value_of_read hx]

end Effect

/-- The case of the switch that commits goes on at the target. -/
theorem execBase_pc {i : Instr} {pc pc' : Word} {rf rf' : Regfile} (h : execBase i pc rf = .ok (.commit rf' pc')) :
    pc' = i.goesTo pc rf := by
  unfold execBase at h
  unfold Instr.goesTo
  cases hop : i.op <;> simp only [hop] at h ⊢
  case JAL =>
    obtain ⟨rf1, -, hg⟩ := Effect.pc_opU h
    exact (Except.ok.inj hg).symm
  case JALR => exact Effect.pc_jalr h
  case AUIPC | LUI =>
    obtain ⟨rf1, -, hg⟩ := Effect.pc_opU h
    exact (Except.ok.inj hg).symm
  case LB | LBU | LH | LHU | LW =>
    obtain ⟨x, -, h⟩ := Except.bind_eq_ok.mp h
    cases h
  case SB | SH | SW =>
    obtain ⟨x, -, h⟩ := Except.bind_eq_ok.mp h
    obtain ⟨d, -, h⟩ := Except.bind_eq_ok.mp h
    cases h
  case BEQ | BGE | BGEU | BLT | BLTU | BNE => exact Effect.pc_branch h
  all_goals first
    | exact Effect.pc_opRR h
    | exact Effect.pc_opRI h
    | (cases h; rfl)

namespace Cpu

theorem execute_pc {i : Instr} {pc pc' : Word} {rf rf' : Regfile} (h : execute i pc rf = .ok (.commit rf' pc')) :
    pc' = i.goesTo pc rf := by
  unfold execute at h
  split at h
  · obtain ⟨x, -, h⟩ := Except.bind_eq_ok.mp h
    obtain ⟨y, -, h⟩ := Except.bind_eq_ok.mp h
    cases h
  · split at h
    · next hop =>
      rw [Effect.pc_opRR h]
      unfold Instr.goesTo
      rw [hop]
      rfl
    · exact execBase_pc h

/-! ## What a step does to `pc` -/

/-- The instruction that the step completes, unless a register index or a shift amount stops it. -/
def completes (s : State) : Act → Option Instr
  | .exec port => do
    let i ← (fetchInstr s).toOption
    let _ ← (execute i s.pc s.rf).toOption
    if i.waits port then none else some i
  | .retry port =>
    match s.requestQueue with
    | .writeReq p :: _ => if port.transfers then p.payloads.head?.map (·.instr) else none
    | _ => none
  | .readResp k _ => do
    let p ← s.loads[k]?
    let q ← p.payloads.head?
    let _ ← (regIndex q.a1.reg).toOption
    some q.instr
  | .writeResp _ => none
  | .cfuResp k _ => do
    let r ← s.cfus[k]?
    let _ ← (regIndex r.instr.a1.reg).toOption
    some r.instr

/-- Where the CPU goes on after the completed instruction. -/
def resumesAt (s : State) : Act → Word
  | .exec _ => (s.imem.code (s.pc.toNat / 4)).goesTo s.pc s.rf
  | _ => s.pc + 4

/-- The scheduled events besides the one the step runs. -/
def eventsLeft (s : State) : Act → Nat
  | .exec _ => s.events - 1
  | _ => s.events

/-- The step completes `o`, or nothing. -/
structure Moves (s t : State) (o : Option Instr) (pc : Word) (left : Nat) : Prop where
  imem : t.imem = s.imem
  stays : o = none → t.pc = s.pc ∧ t.events = left
  goes : ∀ i, o = some i → t.pc = pc ∧ t.events = if i.op = .HCF then left else left + 1

theorem Moves.waiting {s t : State} {pc : Word} {left : Nat} (hi : t.imem = s.imem) (hp : t.pc = s.pc)
    (he : t.events = left) : Moves s t none pc left :=
  ⟨hi, fun _ => ⟨hp, he⟩, fun _ h => by cases h⟩

theorem Moves.completing {s t : State} {i : Instr} {pc : Word} {left : Nat} (hi : t.imem = s.imem) (hp : t.pc = pc)
    (he : t.events = if i.op = .HCF then left else left + 1) : Moves s t (some i) pc left :=
  ⟨hi, (fun h => by cases h), fun j h => Option.some.inj h ▸ ⟨hp, he⟩⟩

theorem send_keeps (port : Port) (p : Packet) (s : State) :
    (s.send port p).imem = s.imem ∧ (s.send port p).pc = s.pc ∧ (s.send port p).events = s.events := by
  unfold State.send
  split
  · cases p <;> exact ⟨rfl, rfl, rfl⟩
  · exact ⟨rfl, rfl, rfl⟩

theorem busMemWrite_keeps (port : Port) (i : Instr) (op : InstrType) (addr data : Word) (s : State) :
    (busMemWrite port i op addr data s).1.imem = s.imem ∧ (busMemWrite port i op addr data s).1.pc = s.pc ∧
      (busMemWrite port i op addr data s).1.events = s.events := send_keeps _ _ _

theorem waits_of_isStore {i : Instr} (h : i.op.isStore = true) (port : Port) : i.waits port = !port.transfers := by
  unfold Instr.waits
  cases hop : i.op <;> simp_all [InstrType.isStore, InstrType.isLoad, InstrType.isCfu]

theorem goesTo_of_isStore {i : Instr} (h : i.op.isStore = true) (pc : Word) (rf : Regfile) :
    i.goesTo pc rf = pc + 4 := by
  unfold Instr.goesTo
  cases hop : i.op <;> simp_all [InstrType.isStore, InstrType.taken]

theorem waits_of_writesRd {i : Instr} (h : i.op.writesRd = true) (port : Port) : i.waits port = false := by
  unfold Instr.waits
  cases hop : i.op <;> simp_all [InstrType.writesRd, InstrType.isLoad, InstrType.isCfu, InstrType.isStore]

theorem waits_of_not_hasRd {i : Instr} (h : i.op.hasRd = false) (hs : i.op.isStore = false) (port : Port) :
    i.waits port = false := by
  unfold Instr.waits
  simp_all [InstrType.hasRd]

theorem moves_complete {s s' : State} {port : Port} {i : Instr} {e : Effect} (he : execute i s.pc s.rf = .ok e)
    (hi : s'.imem = s.imem) (hp : s'.pc = s.pc) :
    Moves s (complete port i s' e) (if i.waits port then none else some i) (i.goesTo s.pc s.rf) s'.events := by
  have hshape := execute_shape he
  cases e with
  | commit rf pc =>
    have hw : i.waits port = false := by
      cases hshape with
      | write hop => exact waits_of_writesRd hop port
      | keep hop hst => exact waits_of_not_hasRd hop hst port
    rw [hw, ← execute_pc he]
    exact .completing hi rfl rfl
  | load addr =>
    have hw : i.waits port = true := by
      cases hshape with
      | load hop => simp [Instr.waits, hop]
    rw [hw]
    obtain ⟨h1, h2, h3⟩ := send_keeps port _ (({ s' with nextTid := s'.nextTid + 1 }).logExec i _)
    exact .waiting (h1.trans hi) (h2.trans hp) h3
  | store addr data =>
    have hop : i.op.isStore = true := by
      cases hshape
      assumption
    have hgo : i.goesTo s.pc s.rf = s'.pc + 4 := hp ▸ goesTo_of_isStore hop _ _
    obtain ⟨h1, h2, h3⟩ := busMemWrite_keeps port i i.op addr data s'
    have hw : i.waits port = !port.transfers := waits_of_isStore hop port
    unfold complete
    cases ht : port.transfers with
    | true =>
      have hr : (busMemWrite port i i.op addr data s').2 = true := ht
      rw [hw, ht, hgo]
      simp only [hr, if_true]
      exact .completing (h1.trans hi) rfl (congrArg (fun n => if i.op = .HCF then n else n + 1) h3)
    | false =>
      have hr : (busMemWrite port i i.op addr data s').2 = false := ht
      rw [hw, ht]
      simp only [hr]
      exact .waiting (h1.trans hi) (h2.trans hp) h3
  | cfu x y =>
    have hw : i.waits port = true := by
      cases hshape with
      | cfu hop => simp [Instr.waits, hop]
    rw [hw]
    exact .waiting hi hp rfl

/-! ## The read requests -/

/-- The read requests that the CPU holds and those on the bus satisfy `P`. -/
structure Requests (P : Burst ReadReq → Prop) (s : State) : Prop where
  queue : ∀ p, .readReq p ∈ s.requestQueue → P p
  loads : ∀ p ∈ s.loads, P p

section

variable {P : Burst ReadReq → Prop} {s t : State}

theorem requests_init (imem : Imem) : Requests P (init imem) :=
  ⟨fun _ h => (by cases h), fun _ h => (by cases h)⟩

theorem Requests.handOver (h : Requests P s) {p : Packet} (hp : ∀ q, p = .readReq q → P q) :
    Requests P (s.handOver p) := by
  cases p with
  | readReq p =>
    refine ⟨h.queue, fun q hq => ?_⟩
    rcases List.mem_append.mp hq with hm | hm
    · exact h.loads q hm
    · exact List.mem_singleton.mp hm ▸ hp p rfl
  | writeReq p => exact ⟨h.queue, h.loads⟩
  | readResp p => exact ⟨h.queue, h.loads⟩
  | writeResp p => exact ⟨h.queue, h.loads⟩

theorem Requests.send (h : Requests P s) (port : Port) {p : Packet} (hp : ∀ q, p = .readReq q → P q) :
    Requests P (s.send port p) := by
  unfold State.send
  split
  · exact h.handOver hp
  · refine ⟨fun q hq => ?_, h.loads⟩
    rcases List.mem_append.mp hq with hm | hm
    · exact h.queue q hm
    · exact hp q (List.mem_singleton.mp hm).symm

theorem Requests.complete (h : Requests P s) (port : Port) {i : Instr} {e : Effect}
    (hP : ∀ addr n, P (constructMemReadpktNonBurst i i.op addr i.a1 .cpu n)) : Requests P (complete port i s e) := by
  cases e with
  | commit rf pc => exact ⟨h.queue, h.loads⟩
  | load addr =>
    let p := Packet.readReq (constructMemReadpktNonBurst i i.op addr i.a1 .cpu s.nextTid)
    have hs : Requests P (({ s with nextTid := s.nextTid + 1 }).logExec i (some p)) := ⟨h.queue, h.loads⟩
    exact hs.send port fun q hq => Packet.readReq.inj hq ▸ hP _ _
  | store addr data =>
    let p := Packet.writeReq (constructMemWritepktNonBurst i i.op addr data .cpu s.nextTid)
    have hs : Requests P (({ s with nextTid := s.nextTid + 1 }).logExec i (some p)) := ⟨h.queue, h.loads⟩
    have hw : Requests P (busMemWrite port i i.op addr data s).1 := hs.send port fun q hq => by cases hq
    unfold Cpu.complete
    simp only
    split
    · exact ⟨hw.queue, hw.loads⟩
    · exact hw
  | cfu x y => exact ⟨h.queue, h.loads⟩

theorem Requests.masterPortRetry (h : Requests P s) {port : Port} (hs : masterPortRetry port s = .ok t) :
    Requests P t := by
  unfold Cpu.masterPortRetry at hs
  split at hs
  · exact Except.ok.inj hs ▸ h
  · split at hs
    · cases hs
    · next p q hq =>
      have ht := h.handOver (p := .readReq p) fun r hr => Packet.readReq.inj hr ▸ h.queue p (by simp [hq])
      refine Except.ok.inj hs ▸ ?_
      split
      · exact ⟨fun r hr => h.queue r (by simp [hq, hr]), ht.loads⟩
      · exact h
    · next p q hq =>
      split at hs
      · cases hs
      · refine Except.ok.inj hs ▸ ?_
        split
        · exact ⟨h.queue, h.loads⟩
        · exact h
    · cases hs

theorem memReadXBarRespHandler_keeps {p : Burst ReadResp} (h : memReadXBarRespHandler p s = .ok t) :
    t.requestQueue = s.requestQueue ∧ t.loads = s.loads := by
  unfold memReadXBarRespHandler at h
  generalize p.payloads = qs at h
  induction qs generalizing s with
  | nil =>
    cases h
    exact ⟨rfl, rfl⟩
  | cons q qs ih =>
    obtain ⟨u, hu, h⟩ := Except.bind_eq_ok.mp h
    obtain ⟨rf, -, hu⟩ := Except.bind_eq_ok.mp hu
    cases hu
    have hrest := ih h
    exact hrest

theorem requests_step {a : Act} (h : Requests P s)
    (hP : ∀ i addr n, P (constructMemReadpktNonBurst i i.op addr i.a1 .cpu n)) (hs : step s a = .next t) :
    Requests P t := by
  cases a with
  | exec port =>
    obtain ⟨i, e, -, -, rfl⟩ := execOneInstr_eq_ok (step_exec hs).2
    have h' : Requests P { s with events := s.events - 1, instCnt := s.instCnt + 1 } := ⟨h.queue, h.loads⟩
    exact h'.complete port (hP i)
  | retry port => exact h.masterPortRetry (Outcome.ofExcept_eq_next.mp hs)
  | readResp k data =>
    obtain ⟨p, hk, hs⟩ := step_readResp hs
    obtain ⟨hq, hl⟩ := memReadXBarRespHandler_keeps hs
    exact ⟨fun p hp => h.queue p (hq ▸ hp), fun p hp => h.loads p (List.mem_of_mem_eraseIdx (hl ▸ hp))⟩
  | writeResp k =>
    obtain rfl := step_writeResp hs
    exact ⟨h.queue, h.loads⟩
  | cfuResp k rd =>
    obtain ⟨r, -, hs⟩ := step_cfuResp hs
    obtain ⟨rf, -, hs⟩ := Except.bind_eq_ok.mp hs
    cases hs
    exact ⟨h.queue, h.loads⟩

end

/-- The packets of the CPU have one beat. -/
def Single : State → Prop := Requests fun p => ∃ q, p.payloads = [q]

theorem single_step {s t : State} {a : Act} (h : Single s) (hs : step s a = .next t) : Single t :=
  requests_step h (fun _ _ _ => ⟨_, rfl⟩) hs

/-! ## One step -/

theorem regIndex_of_write {rf rf' : Regfile} {o : Operand} {v : Word} (h : rf.write o v = .ok rf') :
    ∃ k, regIndex o.reg = .ok k := by
  obtain ⟨k, hk, -⟩ := Regfile.write_eq_ok.mp h
  exact ⟨k, regIndex_eq_ok.mpr hk⟩

theorem code_of_fetchInstr {s : State} {i : Instr} (h : fetchInstr s = .ok i) : s.imem.code (s.pc.toNat / 4) = i := by
  unfold fetchInstr Imem.fetch at h
  split at h
  · exact Except.ok.inj h
  · cases h

theorem moves_execOneInstr {s t : State} {port : Port}
    (hs : execOneInstr port { s with events := s.events - 1 } = .ok t) :
    Moves s t (completes s (.exec port)) (resumesAt s (.exec port)) (s.events - 1) := by
  obtain ⟨i, hi, hs⟩ := Except.bind_eq_ok.mp hs
  obtain ⟨e, he, hs⟩ := Except.bind_eq_ok.mp hs
  have hi : fetchInstr s = .ok i := hi
  have he : execute i s.pc s.rf = .ok e := he
  have hcode := code_of_fetchInstr hi
  have hc : completes s (.exec port) = if i.waits port then none else some i := by
    unfold completes
    rw [hi]
    simp only [Except.toOption, Option.bind_eq_bind, Option.bind_some, he]
  rw [hc, resumesAt, hcode]
  exact Except.ok.inj hs ▸ moves_complete he rfl rfl

theorem moves_masterPortRetry {s t : State} {port : Port} (hs : masterPortRetry port s = .ok t) :
    Moves s t (completes s (.retry port)) (s.pc + 4) s.events := by
  unfold masterPortRetry at hs
  dsimp only [completes]
  split at hs
  · next hst =>
    have htr : port.transfers = false := by simp [Port.transfers, hst]
    cases hs
    rw [htr]
    split <;> exact .waiting rfl rfl rfl
  · next hst =>
    have htr : port.transfers = port.accepts := by simp [Port.transfers, hst]
    rw [htr]
    cases hq : s.requestQueue with
    | nil =>
      rw [hq] at hs
      cases hs
    | cons p l =>
      rw [hq] at hs
      cases p with
      | readReq p =>
        cases hs
        split <;> exact .waiting rfl rfl rfl
      | writeReq p =>
        cases hp : p.payloads with
        | nil =>
          simp only [hp] at hs
          cases hs
        | cons q qs =>
          simp only [hp, Except.ok.injEq] at hs
          subst hs
          cases port.accepts with
          | true =>
            have hm : Moves s (commitInstr q.instr ((s.handOver (.writeReq p)).setPc (s.pc + 4))) (some q.instr)
                (s.pc + 4) s.events := .completing rfl rfl rfl
            simpa [hp] using hm
          | false =>
            have hm : Moves s s none (s.pc + 4) s.events := .waiting rfl rfl rfl
            simpa using hm
      | readResp p => cases hs
      | writeResp p => cases hs

/-- **One step.** Only the completion of an instruction moves `pc`, and it schedules the next fetch unless the
instruction is `HCF`. -/
theorem step_moves {s t : State} {a : Act} (h : Single s) (hs : step s a = .next t) :
    Moves s t (completes s a) (resumesAt s a) (eventsLeft s a) := by
  cases a with
  | exec port => exact moves_execOneInstr (step_exec hs).2
  | retry port => exact moves_masterPortRetry (Outcome.ofExcept_eq_next.mp hs)
  | readResp k data =>
    obtain ⟨p, hk, hs⟩ := step_readResp hs
    obtain ⟨q, hq⟩ := h.loads p (List.mem_of_getElem? hk)
    rw [memReadXBarRespHandler_single hq] at hs
    obtain ⟨rf, hw, hs⟩ := Except.bind_eq_ok.mp hs
    obtain ⟨r, hr⟩ := regIndex_of_write hw
    have hc : completes s (.readResp k data) = some q.instr := by
      simp only [completes, hk, hq, hr, Except.toOption, Option.bind_eq_bind, Option.bind_some, List.head?_cons]
    cases hs
    rw [hc]
    exact .completing rfl rfl rfl
  | writeResp k =>
    obtain rfl := step_writeResp hs
    exact .waiting rfl rfl rfl
  | cfuResp k rd =>
    obtain ⟨r, hk, hs⟩ := step_cfuResp hs
    obtain ⟨rf, hw, hs⟩ := Except.bind_eq_ok.mp hs
    obtain ⟨j, hj⟩ := regIndex_of_write hw
    have hc : completes s (.cfuResp k rd) = some r.instr := by
      simp only [completes, hk, hj, Except.toOption, Option.bind_eq_bind, Option.bind_some]
    cases hs
    rw [hc]
    exact .completing rfl rfl rfl

theorem regIndex_of_write_error {rf : Regfile} {o : Operand} {v : Word} {f : Regfile → State} {e : Fault}
    (h : (do let rf ← rf.write o v; return f rf) = .error e) : regIndex o.reg = .error .registerIndex ∧ e.OfInstr := by
  have hf : Faults Fault.OfInstr (do let rf ← rf.write o v; return f rf) := (rf.write_faults o v).bind fun _ => .ok _
  refine ⟨?_, hf e h⟩
  unfold Regfile.write regIndex at h
  unfold regIndex
  split at h
  · cases h
  · next ho => rw [dif_neg ho]

theorem masterPortRetry_stops {s : State} {port : Port} {e : Fault} (hs : masterPortRetry port s = .error e) :
    completes s (.retry port) = none ∧ e ≠ .imemIndex := by
  unfold masterPortRetry at hs
  dsimp only [completes]
  split at hs
  · cases hs
  · cases hq : s.requestQueue with
    | nil =>
      rw [hq] at hs
      cases hs
      exact ⟨rfl, by decide⟩
    | cons p l =>
      rw [hq] at hs
      cases p with
      | readReq p => cases hs
      | writeReq p =>
        cases hp : p.payloads with
        | nil =>
          simp only [hp, Except.error.injEq] at hs
          subst hs
          exact ⟨by simp [hp], by decide⟩
        | cons q qs =>
          simp only [hp] at hs
          cases hs
      | readResp p | writeResp p =>
        cases hs
        exact ⟨rfl, by decide⟩

theorem execOneInstr_stops {s : State} {port : Port} {e : Fault}
    (hs : execOneInstr port { s with events := s.events - 1 } = .error e) :
    completes s (.exec port) = none ∧ (e = .imemIndex → s.imem.size ≤ s.pc.toNat / 4) := by
  dsimp only [completes]
  cases hf : fetchInstr s with
  | error f =>
    refine ⟨rfl, fun _ => ?_⟩
    unfold fetchInstr Imem.fetch at hf
    split at hf
    · cases hf
    · next hlt => exact not_lt.mp hlt
  | ok i =>
    have hf : fetchInstr { s with events := s.events - 1 } = .ok i := hf
    rw [execOneInstr, hf] at hs
    have hfault : Faults Fault.OfInstr (processInstr port i { s with events := s.events - 1 }) :=
      (execute_faults i s.pc s.rf).bind fun _ => .ok _
    refine ⟨?_, fun he => (he ▸ hfault e hs : Fault.OfInstr .imemIndex).elim⟩
    cases he : execute i s.pc s.rf with
    | error f => simp only [Except.toOption, Option.bind_eq_bind, Option.bind_some, he, Option.bind_none]
    | ok f =>
      have hp : processInstr port i { s with events := s.events - 1 } = .error e := hs
      unfold processInstr at hp
      rw [show execute i _ _ = .ok f from he] at hp
      cases hp

/-- A step that faults completes nothing, and the fault is a fetch only where `pc` is outside. -/
theorem step_stops {s : State} {a : Act} {e : Fault} (h : Single s) (hs : step s a = .fault e) :
    completes s a = none ∧ (e = .imemIndex → s.events ≠ 0 ∧ s.imem.size ≤ s.pc.toNat / 4) := by
  have hi : e.OfInstr → e ≠ .imemIndex := by
    rintro he rfl
    exact he
  cases a with
  | exec port =>
    simp only [step] at hs
    split at hs
    · cases hs
    · next hev =>
      obtain ⟨hc, he⟩ := execOneInstr_stops (ofExcept_eq_fault.mp hs)
      exact ⟨hc, fun h => ⟨hev, he h⟩⟩
  | retry port =>
    obtain ⟨hc, he⟩ := masterPortRetry_stops (ofExcept_eq_fault.mp hs)
    exact ⟨hc, fun h => absurd h he⟩
  | readResp k data =>
    simp only [step] at hs
    split at hs
    · cases hs
    · next p hk =>
      obtain ⟨q, hq⟩ := h.loads p (List.mem_of_getElem? hk)
      rw [ofExcept_eq_fault, memReadXBarRespHandler_single hq] at hs
      obtain ⟨hr, he⟩ := regIndex_of_write_error hs
      refine ⟨?_, fun h => absurd h (hi he)⟩
      simp only [completes, hk, hq, hr, Except.toOption, Option.bind_eq_bind, Option.bind_some, List.head?_cons,
        Option.bind_none]
  | writeResp k =>
    simp only [step] at hs
    split at hs <;> cases hs
  | cfuResp k rd =>
    simp only [step] at hs
    split at hs
    · cases hs
    · next r hk =>
      obtain ⟨hr, he⟩ := regIndex_of_write_error (ofExcept_eq_fault.mp hs)
      refine ⟨?_, fun h => absurd h (hi he)⟩
      simp only [completes, hk, hr, Except.toOption, Option.bind_eq_bind, Option.bind_some, Option.bind_none]

/-! ## Runs -/

/-- The next fetch reads the array. -/
def FetchInside (cfg : Asm.Config) (s : State) : Prop := s.events ≠ 0 → s.pc.toNat / 4 < cfg.dataOffset / 4

/-- The instruction that the step completes ends the program, or leads to a slot of the array. What a response or a
retry completes goes on behind itself. -/
def StaysInside (cfg : Asm.Config) (s : State) (a : Act) : Prop :=
  ∀ i, completes s a = some i → (i.op = .HCF ∧ eventsLeft s a = 0) ∨
    match a with
    | .exec _ => i.LeadsInside (cfg.dataOffset / 4) s.pc s.rf
    | _ => (s.pc + 4).toNat / 4 < cfg.dataOffset / 4

theorem code_of_completes {s : State} {port : Port} {i : Instr} (h : completes s (.exec port) = some i) :
    s.imem.code (s.pc.toNat / 4) = i := by
  obtain ⟨j, hj, h⟩ := Option.bind_eq_some_iff.mp h
  obtain ⟨e, -, h⟩ := Option.bind_eq_some_iff.mp h
  have hcode : s.imem.code (s.pc.toNat / 4) = j := by
    cases hf : fetchInstr s with
    | error e =>
      rw [hf] at hj
      cases hj
    | ok j' =>
      rw [hf] at hj
      exact (code_of_fetchInstr hf).trans (Option.some.inj hj)
  split at h
  · cases h
  · exact hcode.trans (Option.some.inj h)

theorem staysInside_iff {cfg : Asm.Config} {s : State} {a : Act} :
    StaysInside cfg s a ↔ ∀ i ∈ completes s a,
      (i.op = .HCF ∧ eventsLeft s a = 0) ∨ (resumesAt s a).toNat / 4 < cfg.dataOffset / 4 := by
  refine forall_congr' fun i => imp_congr_right fun hi => or_congr_right ?_
  cases a with
  | exec port => rw [resumesAt, code_of_completes hi, Instr.leadsInside_iff]
  | retry port | readResp k data | writeResp k | cfuResp k rd => rfl

instance (cfg : Asm.Config) (s : State) (a : Act) : Decidable (StaysInside cfg s a) :=
  decidable_of_iff _ staysInside_iff.symm

/-- Between two steps of an assembled program. -/
structure Inside (cfg : Asm.Config) (s : State) : Prop where
  size : s.imem.size = cfg.dataOffset / 4
  single : Single s
  fetch : FetchInside cfg s

theorem eventsLeft_le (s : State) (a : Act) : eventsLeft s a ≤ s.events := by
  cases a with
  | exec port => exact Nat.sub_le _ _
  | retry port | readResp k data | writeResp k | cfuResp k rd => exact le_rfl

theorem inside_step {cfg : Asm.Config} {s t : State} {a : Act} (h : Inside cfg s) (hc : StaysInside cfg s a)
    (hs : step s a = .next t) : Inside cfg t := by
  have hm := step_moves h.single hs
  refine ⟨(congrArg Imem.size hm.imem).trans h.size, single_step h.single hs, fun he => ?_⟩
  cases hi : completes s a with
  | none =>
    obtain ⟨hpc, hev⟩ := hm.stays hi
    have hle := eventsLeft_le s a
    rw [hpc]
    exact h.fetch (by omega)
  | some i =>
    obtain ⟨hpc, hev⟩ := hm.goes i hi
    rw [hpc]
    rcases staysInside_iff.mp hc i hi with ⟨hop, h0⟩ | hin
    · rw [if_pos hop] at hev
      exact absurd (hev.trans h0) he
    · exact hin

/-- A step that the condition excludes leaves a fetch outside. -/
theorem step_leaves {cfg : Asm.Config} {s t : State} {a : Act} (h : Inside cfg s) (hc : ¬ StaysInside cfg s a)
    (hs : step s a = .next t) : ¬ FetchInside cfg t := by
  have hm := step_moves h.single hs
  simp only [staysInside_iff, not_forall, not_or] at hc
  obtain ⟨i, hi, hlast, hout⟩ := hc
  obtain ⟨hpc, hev⟩ := hm.goes i hi
  intro hf
  rw [FetchInside, hpc] at hf
  refine hout (hf ?_)
  rw [hev]
  split
  · next hop => exact fun h0 => hlast ⟨hop, h0⟩
  · omega

theorem inside_fault {cfg : Asm.Config} {s : State} {a : Act} {e : Fault} (h : Inside cfg s)
    (hs : step s a = .fault e) : StaysInside cfg s a ↔ e ≠ .imemIndex := by
  obtain ⟨hc, he⟩ := step_stops h.single hs
  refine iff_of_true (fun i hi => ?_) fun heq => ?_
  · rw [hc] at hi
    cases hi
  · obtain ⟨hev, hout⟩ := he heq
    have hin := h.fetch hev
    rw [← h.size] at hin
    omega

theorem size_of_assemble {cfg : Asm.Config} {file : List Char} {imem : Imem} {mem : Store}
    (h : Asm.assemble cfg file = .ok (imem, mem)) : imem.size = cfg.dataOffset / 4 := by
  obtain ⟨s, hs, h⟩ := Except.bind_eq_ok.mp h
  obtain ⟨m, hm, h⟩ := Except.bind_eq_ok.mp h
  cases h
  rw [(Asm.normalizeFrom_resolved hm).1]
  exact Asm.size_run (Asm.parse_eq cfg file ▸ hs)

/-- **Instruction fetch.** The fetches of a run of an assembled program stay in the instruction memory exactly when
there is one, and every instruction the run completes leads to a slot of it or ends the program. -/
theorem fetch_iff {cfg : Asm.Config} {file : List Char} {imem : Imem} {mem : Store}
    (h : Asm.assemble cfg file = .ok (imem, mem)) (as : List Act) :
    Always step (· = .imemIndex) (FetchInside cfg) (init imem) as ↔
      4 ≤ cfg.dataOffset ∧ Along step (StaysInside cfg) (init imem) as := by
  by_cases h4 : 4 ≤ cfg.dataOffset
  · have hpos : 0 < cfg.dataOffset / 4 := Nat.div_pos h4 (by decide)
    have hinit : Inside cfg (init imem) := ⟨size_of_assemble h, requests_init imem, fun _ => by simpa [init] using hpos⟩
    rw [and_iff_right h4]
    exact always_iff_along (fun _ hs => hs.fetch) (fun _ _ _ => inside_step) (fun _ _ _ => inside_fault)
      (fun _ _ _ => step_leaves) as hinit
  · refine iff_of_false (fun hall => ?_) fun hc => h4 hc.1
    have hin : (0 : Nat) / 4 < cfg.dataOffset / 4 := hall.head Nat.one_ne_zero
    omega

theorem exists_of_assemble_any (file : List Char) {P : Imem → Bool}
    (h : (Asm.assemble {} file).toOption.any (fun r => P r.1) = true) :
    ∃ imem mem, Asm.assemble {} file = .ok (imem, mem) ∧ P imem = true := by
  rcases ha : Asm.assemble {} file with e | r
  · rw [ha] at h
    cases h
  · rw [ha] at h
    exact ⟨r.1, r.2, rfl, h⟩

theorem fetch_iff_call : ∃ imem mem, Asm.assemble {} "jal ra, f\nhcf\nf: ret\n".toList = .ok (imem, mem) ∧
    Always step (· = .imemIndex) (FetchInside {}) (init imem) (List.replicate 3 (.exec ⟨false, true⟩)) := by
  obtain ⟨imem, mem, ha, hc⟩ := exists_of_assemble_any "jal ra, f\nhcf\nf: ret\n".toList
    (P := fun imem => decide (Along step (StaysInside {}) (init imem) (List.replicate 3 (.exec ⟨false, true⟩))))
    (by decide +kernel)
  exact ⟨imem, mem, ha, (fetch_iff ha _).mpr ⟨by decide, of_decide_eq_true hc⟩⟩

/-- A jump to the first word of the data: the next fetch reads behind the array. -/
theorem not_fetchInside_jump : ¬ ∀ (cfg : Asm.Config) (file : List Char) (imem : Imem) (mem : Store),
    Asm.assemble cfg file = .ok (imem, mem) →
      ∀ as, Always step (· = .imemIndex) (FetchInside cfg) (init imem) as := by
  intro h
  obtain ⟨imem, mem, ha, hx⟩ := exists_of_assemble_any "j v\n.data\nv: .word 1\n".toList
    (P := fun imem => (step (init imem) (.exec ⟨false, true⟩)).holds fun t => t.events == 1 && t.pc == 8192)
    (by decide +kernel)
  obtain ⟨t, hs, ht⟩ := Outcome.exists_of_holds hx
  have hrun := (h _ _ imem mem ha [.exec ⟨false, true⟩]).2
  rw [hs] at hrun
  obtain ⟨hev, hpc⟩ := (Bool.and_eq_true _ _).mp ht
  have hin := hrun.head (by rw [beq_iff_eq.mp hev]; decide)
  rw [beq_iff_eq.mp hpc] at hin
  exact absurd hin (by decide)

end Cpu

end SocModel
