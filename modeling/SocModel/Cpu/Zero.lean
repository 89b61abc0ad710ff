import SocModel.Asm.Emulator
import SocModel.Cpu.Model
import SocModel.Stage5.Cpu

/-!
# Register `x0`

Neither CPU guards `rf[0]`: a case of the switch, a load response and a response of the custom function unit
write whatever register `rd` names. `x0` keeps its zero over the runs that execute no instruction with
`rd = x0`, and the assembler itself emits such instructions for `j` and `ret`.

* `DestNotZero` : the instruction delivers no value to `x0`;
* `Cpu.zeroInv_step`, `Stage5.zero_step` : what one step keeps;
* `x0_zero` : over whole runs of both CPUs, `x0_zero_jump` : a program that loses the zero.
-/

namespace SocModel

open Lib Bus

/-- `x0` holds zero, and every operand that names it reads zero. -/
def ReadsZero (rf : Regfile) : Prop := rf 0 = 0 ∧ ∀ o : Operand, o.reg = 0 → rf.read o = .ok 0

theorem readsZero_iff {rf : Regfile} : ReadsZero rf ↔ rf 0 = 0 := by
  refine ⟨And.left, fun h => ⟨h, fun o ho => ?_⟩⟩
  rw [Regfile.read, regIndex_eq_ok_zero.mpr ho]
  exact congrArg Except.ok h

/-- An instruction that delivers a value names another destination than `x0`. -/
def Instr.DestNotZero (i : Instr) : Prop := i.op.hasRd = true → i.a1.reg ≠ 0

instance (i : Instr) : Decidable i.DestNotZero :=
  inferInstanceAs (Decidable (_ → _))

instance decidableForallOk {ε α : Type} (x : Except ε α) (P : α → Prop) [DecidablePred P] :
    Decidable (∀ a, x = .ok a → P a) :=
  match x with
  | .error _ => isTrue nofun
  | .ok a => decidable_of_iff (P a) ⟨fun h _ ha => Except.ok.inj ha ▸ h, fun h => h a rfl⟩

theorem InstrType.hasRd_of_isLoad {op : InstrType} (h : op.isLoad = true) : op.hasRd = true := by
  simp [InstrType.hasRd, h]

theorem InstrType.hasRd_of_isCfu {op : InstrType} (h : op.isCfu = true) : op.hasRd = true := by
  simp [InstrType.hasRd, h]

namespace Cpu

/-- The next instruction delivers no value to `x0`. -/
def NoZeroDest (s : State) : Act → Prop
  | .exec _ => ∀ i, fetchInstr s = .ok i → i.DestNotZero
  | _ => True

instance (s : State) : (a : Act) → Decidable (NoZeroDest s a)
  | .exec _ => decidableForallOk (fetchInstr s) Instr.DestNotZero
  | .retry _ | .readResp .. | .writeResp _ | .cfuResp .. => isTrue trivial

/-- The requests of a packet that answer with a value for a register do not name `x0`. -/
def Packet.NoZeroDest : Packet → Prop
  | .readReq p => ∀ q ∈ p.payloads, q.a1.reg ≠ 0
  | _ => True

/-- `x0` is zero and no response on its way goes to it. -/
structure ZeroInv (s : State) : Prop where
  zero : s.rf 0 = 0
  queue : ∀ p ∈ s.requestQueue, Packet.NoZeroDest p
  loads : ∀ p ∈ s.loads, ∀ q ∈ p.payloads, q.a1.reg ≠ 0
  cfus : ∀ r ∈ s.cfus, r.instr.a1.reg ≠ 0

theorem zeroInv_init (imem : Imem) : ZeroInv (init imem) where
  zero := rfl
  queue := by simp [init]
  loads := by simp [init]
  cfus := by simp [init]

theorem ZeroInv.commitInstr {s : State} (h : ZeroInv s) (i : Instr) : ZeroInv (commitInstr i s) :=
  ⟨h.zero, h.queue, h.loads, h.cfus⟩

theorem ZeroInv.setPc {s : State} (h : ZeroInv s) (pc : Word) : ZeroInv (s.setPc pc) :=
  ⟨h.zero, h.queue, h.loads, h.cfus⟩

theorem ZeroInv.logExec {s : State} (h : ZeroInv s) (i : Instr) (r : Option Packet) :
    ZeroInv (s.logExec i r) :=
  ⟨h.zero, h.queue, h.loads, h.cfus⟩

theorem ZeroInv.handOver {s : State} {p : Packet} (h : ZeroInv s) (hp : Packet.NoZeroDest p) :
    ZeroInv (s.handOver p) := by
  cases p with
  | readReq p =>
    refine ⟨h.zero, h.queue, fun p' hp' => ?_, h.cfus⟩
    rcases List.mem_append.mp hp' with hm | hm
    · exact h.loads p' hm
    · exact List.mem_singleton.mp hm ▸ hp
  | writeReq p => exact ⟨h.zero, h.queue, h.loads, h.cfus⟩
  | readResp p => exact ⟨h.zero, h.queue, h.loads, h.cfus⟩
  | writeResp p => exact ⟨h.zero, h.queue, h.loads, h.cfus⟩

theorem ZeroInv.send {s : State} {p : Packet} (h : ZeroInv s) (port : Port) (hp : Packet.NoZeroDest p) :
    ZeroInv (s.send port p) := by
  unfold State.send
  split
  · exact h.handOver hp
  · refine ⟨h.zero, fun p' hp' => ?_, h.loads, h.cfus⟩
    rcases List.mem_append.mp hp' with hm | hm
    · exact h.queue p' hm
    · exact List.mem_singleton.mp hm ▸ hp

theorem zeroInv_complete {s : State} {port : Port} {i : Instr} {e : Effect} (h : ZeroInv s)
    (hi : i.DestNotZero) (he : e.Shape i s.rf) :
    ZeroInv (complete port i { s with instCnt := s.instCnt + 1 } e) := by
  have h' : ZeroInv { s with instCnt := s.instCnt + 1 } := ⟨h.zero, h.queue, h.loads, h.cfus⟩
  cases e with
  | commit rf pc =>
    have hrf : ZeroInv { s with rf, instCnt := s.instCnt + 1 } :=
      ⟨(he.rf_zero hi).trans h.zero, h.queue, h.loads, h.cfus⟩
    exact ((hrf.logExec i none).commitInstr i).setPc pc
  | load addr =>
    cases he with
    | load hop =>
      have hd : Packet.NoZeroDest (.readReq (constructMemReadpktNonBurst i i.op addr i.a1 .cpu s.nextTid)) := by
        intro q hq
        rw [List.mem_singleton.mp hq]
        exact hi (InstrType.hasRd_of_isLoad hop)
      have hs : ZeroInv { s with instCnt := s.instCnt + 1, nextTid := s.nextTid + 1 } :=
        ⟨h.zero, h.queue, h.loads, h.cfus⟩
      exact (hs.logExec i _).send port hd
  | store addr data =>
    have hs : ZeroInv { s with instCnt := s.instCnt + 1, nextTid := s.nextTid + 1 } :=
      ⟨h.zero, h.queue, h.loads, h.cfus⟩
    let p := Packet.writeReq (constructMemWritepktNonBurst i i.op addr data .cpu s.nextTid)
    have hw := (hs.logExec i (some p)).send port (p := p) trivial
    unfold complete busMemWrite
    simp only
    split
    · exact (hw.commitInstr i).setPc _
    · exact hw
  | cfu x y =>
    cases he with
    | cfu hop =>
      refine ⟨h.zero, h.queue, h.loads, fun r hr => ?_⟩
      rcases List.mem_append.mp hr with hm | hm
      · exact h.cfus r hm
      · rw [List.mem_singleton.mp hm]
        exact hi (InstrType.hasRd_of_isCfu hop)

theorem zeroInv_masterPortRetry {s t : State} {port : Port} (h : ZeroInv s)
    (hs : masterPortRetry port s = .ok t) : ZeroInv t := by
  unfold masterPortRetry at hs
  split at hs
  · exact Except.ok.inj hs ▸ h
  · split at hs
    · cases hs
    · next p q hq =>
      have hp := h.queue (.readReq p) (by simp [hq])
      have ht := h.handOver hp
      refine Except.ok.inj hs ▸ ?_
      split
      · exact ⟨ht.zero, fun p' hp' => h.queue p' (by simp [hq, hp']), ht.loads, ht.cfus⟩
      · exact h
    · next p q hq =>
      split at hs
      · cases hs
      · refine Except.ok.inj hs ▸ ?_
        split
        · exact ((h.handOver (p := .writeReq p) trivial).setPc _).commitInstr _
        · exact h
    · cases hs

/-- The write of a response handler. -/
theorem zeroInv_respond {s t : State} {i : Instr} {o : Operand} {v : Word} (h : ZeroInv s) (ho : o.reg ≠ 0)
    (hs : (do let rf ← s.rf.write o v; return (commitInstr i { s with rf }).setPc (s.pc + 4)) = .ok t) :
    ZeroInv t := by
  obtain ⟨rf, hw, hs⟩ := Except.bind_eq_ok.mp hs
  have hrf : ZeroInv { s with rf } := ⟨(Regfile.write_zero hw ho).trans h.zero, h.queue, h.loads, h.cfus⟩
  exact Except.ok.inj hs ▸ (hrf.commitInstr i).setPc _

theorem zeroInv_memReadXBarRespHandler {s t : State} {p : Burst ReadResp} (h : ZeroInv s)
    (hp : ∀ q ∈ p.payloads, q.a1.reg ≠ 0) (hs : memReadXBarRespHandler p s = .ok t) : ZeroInv t := by
  unfold memReadXBarRespHandler at hs
  revert hp hs
  induction p.payloads generalizing s with
  | nil =>
    intro _ hs
    exact Except.ok.inj hs ▸ h
  | cons q qs ih =>
    intro hp hs
    obtain ⟨m, hm, hs⟩ := Except.bind_eq_ok.mp hs
    exact ih (zeroInv_respond h (hp q (by simp)) hm) (fun q' hq' => hp q' (by simp [hq'])) hs

theorem zeroInv_step {s t : State} {a : Act} (h : ZeroInv s) (ha : NoZeroDest s a)
    (hs : step s a = .next t) : ZeroInv t := by
  cases a with
  | exec port =>
    obtain ⟨i, e, hi, he, rfl⟩ := execOneInstr_eq_ok (step_exec hs).2
    have h' : ZeroInv { s with events := s.events - 1 } := ⟨h.zero, h.queue, h.loads, h.cfus⟩
    exact zeroInv_complete h' (ha i hi) (execute_shape he)
  | retry port => exact zeroInv_masterPortRetry h (Outcome.ofExcept_eq_next.mp hs)
  | readResp k data =>
    obtain ⟨p, hk, hs⟩ := step_readResp hs
    have h' : ZeroInv { s with loads := s.loads.eraseIdx k } :=
      ⟨h.zero, h.queue, fun p' hp' => h.loads p' (List.mem_of_mem_eraseIdx hp'), h.cfus⟩
    refine zeroInv_memReadXBarRespHandler h' (fun q hq => ?_) hs
    obtain ⟨q', hq', rfl⟩ := List.mem_map.mp hq
    exact h.loads p (List.mem_of_getElem? hk) q' hq'
  | writeResp k =>
    obtain rfl := step_writeResp hs
    exact ⟨h.zero, h.queue, h.loads, h.cfus⟩
  | cfuResp k rd =>
    obtain ⟨r, hk, hs⟩ := step_cfuResp hs
    have h' : ZeroInv { s with cfus := s.cfus.eraseIdx k } :=
      ⟨h.zero, h.queue, h.loads, fun r' hr' => h.cfus r' (List.mem_of_mem_eraseIdx hr')⟩
    exact zeroInv_respond h' (h.cfus r (List.mem_of_getElem? hk)) hs

end Cpu

namespace Stage5

/-- The next instruction delivers no value to `x0`. -/
def NoZeroDest (s : State) : Act → Prop
  | .exec _ => ∀ i, fetchInstr s = .ok i → i.DestNotZero
  | .retry _ => True

instance (s : State) : (a : Act) → Decidable (NoZeroDest s a)
  | .exec _ => decidableForallOk (fetchInstr s) Instr.DestNotZero
  | .retry _ => isTrue trivial

@[simp] theorem finish_rf (accepts : Bool) (i : Instr) (pcNext : Word) (s : State) :
    (finish accepts i pcNext s).rf = s.rf := by
  cases accepts <;> rfl

theorem zero_processInstr {s t : State} {accepts : Bool} {i : Instr} (h : s.rf 0 = 0) (hi : i.DestNotZero)
    (hs : processInstr accepts i s = .ok t) : t.rf 0 = 0 := by
  obtain ⟨e, he, hs⟩ := Except.bind_eq_ok.mp hs
  cases e with
  | commit rf pc =>
    cases hs
    rw [finish_rf]
    rcases execBase_shape_or he with hshape | hkeep
    · exact (hshape.rf_zero hi).trans h
    · cases hkeep
      exact h
  | load addr =>
    obtain ⟨m, hm, hs⟩ := Except.bind_eq_ok.mp hs
    cases hs
    obtain ⟨data, -, hm⟩ := Except.bind_eq_ok.mp hm
    obtain ⟨rf, hw, hm⟩ := Except.bind_eq_ok.mp hm
    cases hm
    rw [finish_rf]
    rcases execBase_shape_or he with hshape | hkeep
    · cases hshape with
      | load hop => exact (Regfile.write_zero hw (hi (InstrType.hasRd_of_isLoad hop))).trans h
    · cases hkeep
  | store addr data =>
    obtain ⟨m, hm, hs⟩ := Except.bind_eq_ok.mp hs
    cases hs
    obtain ⟨dmem, -, hm⟩ := Except.bind_eq_ok.mp hm
    cases hm
    rw [finish_rf]
    exact h
  | cfu x y => cases hs

theorem zero_step {s t : State} {a : Act} (h : s.rf 0 = 0) (ha : NoZeroDest s a)
    (hs : step s a = .next t) : t.rf 0 = 0 := by
  cases a with
  | exec accepts =>
    simp only [step] at hs
    split at hs
    · cases hs
    · obtain ⟨i, hi, hs⟩ := Except.bind_eq_ok.mp (Outcome.ofExcept_eq_next.mp hs)
      exact zero_processInstr (s := { s with events := s.events - 1 }) h (ha i hi) hs
  | retry accepts =>
    simp only [step, Outcome.ofExcept_eq_next] at hs
    unfold retrySendInstPacket at hs
    split at hs
    · exact Except.ok.inj hs ▸ h
    · split at hs
      · exact Except.ok.inj hs ▸ h
      · cases hs

end Stage5

/-- **Register `x0`.** It reads zero in every state of every run, of either CPU, that executes no instruction
delivering a value to `x0`. -/
theorem x0_zero (imem : Imem) :
    (∀ as, Along Cpu.step Cpu.NoZeroDest (Cpu.init imem) as →
      Always Cpu.step (fun _ => False) (fun s => ReadsZero s.rf) (Cpu.init imem) as) ∧
    (∀ dmem as, Along Stage5.step Stage5.NoZeroDest (Stage5.init imem dmem) as →
      Always Stage5.step (fun _ => False) (fun s => ReadsZero s.rf) (Stage5.init imem dmem) as) :=
  ⟨fun _ => Always.of_inv (fun _ hs => readsZero_iff.mpr hs.zero) (fun _ _ _ => Cpu.zeroInv_step) (by simp)
      (Cpu.zeroInv_init imem),
    fun _ _ => Always.of_inv (I := fun s => s.rf 0 = 0) (fun _ hs => readsZero_iff.mpr hs)
      (fun _ _ _ => Stage5.zero_step) (by simp) rfl⟩

/-- `addi x1, x0, 5`, `sw x1, 8(x0)`, `lw x2, 8(x0)`, `add x3, x2, x0` and `hcf`. -/
def fiveThere : Imem := .ofList
  [{ op := .ADDI, a1 := { reg := 1 }, a2 := { reg := 0 }, a3 := { imm := 5 } },
    { op := .SW, a1 := { reg := 1 }, a2 := { reg := 0 }, a3 := { imm := 8 } },
    { op := .LW, a1 := { reg := 2 }, a2 := { reg := 0 }, a3 := { imm := 8 } },
    { op := .ADD, a1 := { reg := 3 }, a2 := { reg := 2 }, a3 := { reg := 0 } }, { op := .HCF }]

/-- The store and the load are sent at once and answered, the load with what was stored. -/
def fiveThereRun : List Cpu.Act :=
  [.exec ⟨false, true⟩, .exec ⟨false, true⟩, .writeResp 0, .exec ⟨false, true⟩, .readResp 0 fun _ => 5,
    .exec ⟨false, true⟩, .exec ⟨false, true⟩]

/-- The port refuses the packet of the load once. -/
def fiveThereCalls : List Stage5.Act :=
  [.exec true, .exec true, .exec false, .retry true, .exec true, .exec true]

theorem x0_zero_fiveThere :
    (∃ s, Reaches Cpu.step (Cpu.init fiveThere) fiveThereRun s ∧ s.rf 3 = 5 ∧ s.commits.length = 5 ∧
      Always Cpu.step (fun _ => False) (fun s => ReadsZero s.rf) (Cpu.init fiveThere) fiveThereRun) ∧
    ∃ s, Reaches Stage5.step (Stage5.init fiveThere ⟨16, fun _ => 0⟩) fiveThereCalls s ∧ s.rf 3 = 5 ∧ s.sent.length = 5 ∧
      Always Stage5.step (fun _ => False) (fun s => ReadsZero s.rf) (Stage5.init fiveThere ⟨16, fun _ => 0⟩)
        fiveThereCalls := by
  have hsoc : (run Cpu.step (Cpu.init fiveThere) fiveThereRun).holds
      (fun s => decide (s.rf 3 = 5 ∧ s.commits.length = 5)) = true := by decide +kernel
  have hstage : (run Stage5.step (Stage5.init fiveThere ⟨16, fun _ => 0⟩) fiveThereCalls).holds
      (fun s => decide (s.rf 3 = 5 ∧ s.sent.length = 5)) = true := by decide +kernel
  obtain ⟨s, hs, hx⟩ := Outcome.exists_of_holds hsoc
  obtain ⟨t, ht, hy⟩ := Outcome.exists_of_holds hstage
  obtain ⟨h3, hlen⟩ := of_decide_eq_true hx
  obtain ⟨h3', hlen'⟩ := of_decide_eq_true hy
  exact ⟨⟨s, hs, h3, hlen, (x0_zero fiveThere).1 fiveThereRun (by decide +kernel)⟩,
    t, ht, h3', hlen', (x0_zero fiveThere).2 ⟨16, fun _ => 0⟩ fiveThereCalls (by decide +kernel)⟩

/-- A jump to the next instruction, which then copies `x0`. -/
def jumpProgram : List Char := "j end\nend: add a0, x0, x0\nhcf\n".toList

/-- The jump leaves 4 in `x0`. -/
theorem x0_zero_jump : ¬ ∀ (file : List Char) (imem : Imem) (mem : Store),
    Asm.assemble {} file = .ok (imem, mem) →
      (∀ as, Always Cpu.step (fun _ => False) (fun s => ReadsZero s.rf) (Cpu.init imem) as) ∧
      (∀ as, Always Stage5.step (fun _ => False) (fun s => ReadsZero s.rf)
        (Stage5.init imem ⟨65536, mem⟩) as) := by
  intro h
  have hx : (Asm.assemble {} jumpProgram).toOption.any (fun r =>
      (Cpu.step (Cpu.init r.1) (.exec ⟨false, true⟩)).holds fun t => t.rf 0 == 4) = true := by decide +kernel
  rcases ha : Asm.assemble {} jumpProgram with e | r
  · rw [ha] at hx
    cases hx
  · rw [ha] at hx
    obtain ⟨t, hs, ht⟩ := Outcome.exists_of_holds hx
    have hrun := ((h jumpProgram r.1 r.2 ha).1 [.exec ⟨false, true⟩]).2
    rw [hs] at hrun
    exact absurd ((beq_iff_eq.mp ht).symm.trans hrun.head.1) (by decide)

end SocModel
