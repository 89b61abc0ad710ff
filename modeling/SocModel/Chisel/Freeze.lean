import SocModel.Chisel.DataMem
import SocModel.Chisel.InOrder
import Mathlib.Data.List.TakeWhile
import Mathlib.Data.Nat.Find

/-!
# What `HCF` stops

`HCF` in WB holds every stage register, and the register file with them. The data memory is not held: it serves the
access in MEM again and again, and that access belongs to the instruction behind `HCF`.

* `older` : the instructions in front of the first `HCF`, `Effects` : what they, and no others, have done;
* `Halts` : from `HCF` on nothing changes, and the run has done what the instructions in front of `HCF` do;
* `halts_iff` : the programs and memories that halt.
-/

namespace SocModel.Chisel

open Opcode

/-! ## The effect of the instructions in front of `HCF` -/

def notHcf (e : Entry) : Bool := opcode e.inst != HCF

def isStore (e : Entry) : Bool := opcode e.inst == STORE

/-- The instruction writes a register that keeps what is written. -/
def writesReg (i : Word) : Bool := useRd i && rd i != 0

/-- The instructions in front of the first `HCF`. -/
def older (es : List Entry) : List Entry := es.takeWhile notHcf

/-- A write of the log. -/
def RegWrite.apply (regs : BitVec 5 → Word) (w : RegWrite) : BitVec 5 → Word := fun r =>
  if r = 0 then 0 else if r = w.waddr then w.wdata else regs r

/-- The writes of the run are those of the instructions that entered EXE in front of `HCF`, one each and in order (but
for writes to register 0), and the registers and the data memory are what these writes leave. -/
structure Effects (data : Bytes) (t : Top) : Prop where
  writes : (t.cpu.writes.map (·.inst)).filter writesReg =
    ((older t.cpu.exeLog).filter (writesReg ·.inst)).map (·.inst)
  regs : t.cpu.regs = t.cpu.writes.foldl RegWrite.apply fun _ => 0
  stores : ∃ done, done <+: t.stores ∧ done.map (·.entry) = (older t.cpu.exeLog).filter isStore ∧
    t.dm.memory = done.foldl Stored.apply data

/-- The state `n` cycles after reset. -/
def Top.after (memory data : Bytes) (memLatency n : Nat) : Top := Top.run memory memLatency (Top.start data) n

section

variable (memory data : Bytes) (memLatency : Nat)

/-- **`HCF` halts the machine.** In whatever state it is in WB, no later cycle changes a register or the data memory,
and both are what the instructions in front of it leave. -/
def Halts : Prop := ∀ n, (Top.after memory data memLatency n).cpu.hcf = true →
  (∀ k, (Top.after memory data memLatency (n + k)).cpu.regs = (Top.after memory data memLatency n).cpu.regs ∧
    (Top.after memory data memLatency (n + k)).dm.memory = (Top.after memory data memLatency n).dm.memory) ∧
  Effects data (Top.after memory data memLatency n)

/-- `HCF` is in WB for the first time. -/
def Arrives (n : Nat) : Prop := (Top.after memory data memLatency n).cpu.hcf = true ∧
  ∀ m < n, (Top.after memory data memLatency m).cpu.hcf = false

/-- EXE is erased, and the instruction there has a register to write. -/
def losesLink (t : Top) : Bool :=
  t.cpu.flush && t.cpu.stallMA (t.input memLatency).dmValid && writesReg t.cpu.exe.inst

/-- The data memory answers a store that it has not accepted. -/
def losesStore (t : Top) : Bool :=
  t.dm.state == .idle && t.dm.valid memLatency && opcode t.cpu.mem.inst == STORE

end

/-! ## Lists of instructions -/

section Lists

variable {p : Entry → Bool} {c : Nat} {es fs : List Entry}

theorem older_append (es fs : List Entry) :
    older (es ++ fs) = older es ++ if es.all notHcf then older fs else [] := by
  unfold older
  induction es with
  | nil => rfl
  | cons e es ih =>
    rw [List.cons_append, List.takeWhile_cons, List.takeWhile_cons, List.all_cons]
    by_cases he : notHcf e = true
    · rw [if_pos he, if_pos he, ih, he, Bool.true_and, List.cons_append]
    · rw [if_neg he, if_neg he, Bool.eq_false_iff.mpr he, Bool.false_and, if_neg Bool.false_ne_true]
      rfl

theorem older_of_all (h : es.all notHcf = true) : older es = es :=
  List.takeWhile_eq_self_iff.mpr fun e he => List.all_eq_true.mp h e he

/-- Of `es`, `c` instructions with `p` in front of `HCF` are missing in `fs`. -/
structure Kept (p : Entry → Bool) (c : Nat) (es fs : List Entry) : Prop where
  hcf : es.all notHcf = fs.all notHcf
  sublist : ((older fs).filter p).Sublist ((older es).filter p)
  length : ((older es).filter p).length = ((older fs).filter p).length + c

theorem Kept.append (h : Kept p c es fs) (es' : List Entry) : Kept p c (es ++ es') (fs ++ es') where
  hcf := by rw [List.all_append, List.all_append, h.hcf]
  sublist := by
    rw [older_append, older_append, List.filter_append, List.filter_append, h.hcf]
    exact h.sublist.append (List.Sublist.refl _)
  length := by
    rw [older_append, older_append, List.filter_append, List.filter_append, h.hcf, List.length_append,
      List.length_append, h.length]
    omega

theorem Kept.erase {e : Entry} (h : Kept p c es (fs ++ [e])) (ha : (fs ++ [e]).all notHcf = true) :
    Kept p (c + if p e then 1 else 0) es fs := by
  have hf : fs.all notHcf = true := by
    rw [List.all_append, Bool.and_eq_true] at ha
    exact ha.1
  have hs := h.sublist
  have hl := h.length
  rw [older_of_all ha, List.filter_append] at hs hl
  refine ⟨by rw [h.hcf, ha, hf], ?_, ?_⟩ <;> rw [older_of_all hf]
  · exact (List.sublist_append_left _ _).trans hs
  · rw [hl, List.length_append]
    rcases hp : p e with _ | _ <;> simp [hp]
    omega

theorem Kept.eq_iff (h : Kept p c es fs) : (older fs).filter p = (older es).filter p ↔ c = 0 := by
  constructor
  · intro he
    have := h.length
    rw [he] at this
    omega
  · rintro rfl
    exact h.sublist.eq_of_length (by rw [h.length, Nat.add_zero])

end Lists

/-! ## One cycle of the CPU -/

section Cycle

variable {memory : Bytes} {s : State} {inp : Input}

/-- The instructions that entered WB, those in MEM and EXE behind them. -/
def State.pipe (s : State) : List Entry := s.wbLog ++ s.inMem ++ s.inExe

theorem pipe_cycle (hh : s.hcf = false) (hl : (s.flush && s.stallMA inp.dmValid) = false) :
    (cycle memory s inp).pipe = s.pipe ++ took (s.issues inp.dmValid) s.id.pc s.id.inst := by
  rcases hma : s.stallMA inp.dmValid with _ | _
  · have hw : (cycle memory s inp).wbLog = s.wbLog ++ s.inMem := by
      simp [cycle, hh, hma, State.inMem]
    have hm : (cycle memory s inp).inMem = s.inExe := by
      simp [cycle, hh, hma, State.inMem, State.inExe, State.nextMem]
    have he : (cycle memory s inp).inExe = took (s.issues inp.dmValid) s.id.pc s.id.inst := took_nextExe hma
    unfold State.pipe
    rw [hw, hm, he]
  · have hf : s.flush = false := by simpa [hma] using hl
    simp [State.pipe, cycle, hh, hma, hf, State.inMem, State.inExe, State.nextMem, State.nextExe, State.issues]

theorem exeLog_cycle : (cycle memory s inp).exeLog = s.exeLog ++ took (s.issues inp.dmValid) s.id.pc s.id.inst := rfl

theorem eEn_of_flush (hf : s.flush = true) : eEn s.exe.inst = true := by
  unfold State.flush at hf
  rw [Bool.and_eq_true, Bool.and_eq_true] at hf
  exact hf.1.1

/-- A flush while MEM waits erases the instruction in EXE. -/
theorem pipe_cycle_erased (memory : Bytes) (hh : s.hcf = false) (hf : s.flush = true)
    (hma : s.stallMA inp.dmValid = true) :
    (cycle memory s inp).pipe ++ [⟨s.exe.pc, s.exe.inst⟩] = s.pipe ∧ (cycle memory s inp).exeLog = s.exeLog := by
  have hin : s.inExe = [⟨s.exe.pc, s.exe.inst⟩] := by
    simp [State.inExe, took, ne_zero_of_eEn (eEn_of_flush hf)]
  constructor
  · unfold State.pipe
    rw [hin]
    simp [cycle, hh, hma, hf, State.inMem, State.inExe, State.nextMem, State.nextExe]
  · simp [exeLog_cycle, State.issues, hf]

/-- What MEM hands over to WB. -/
theorem wbLog_cycle (memory : Bytes) (inp : Input) (hh : s.hcf = false) : (cycle memory s inp).wbLog =
    s.wbLog ++ if s.stallMA inp.dmValid then [] else s.inMem := by
  rcases hma : s.stallMA inp.dmValid with _ | _ <;> simp [cycle, hh, hma, State.inMem]

end Cycle

/-! ## Runs -/

section Runs

variable {memory data : Bytes} {memLatency n : Nat}

/-- No `HCF` in WB before cycle `n`. -/
def Live (memory data : Bytes) (memLatency n : Nat) : Prop :=
  ∀ m < n, (Top.after memory data memLatency m).cpu.hcf = false

/-- The cycles before `n` that `p` counts. -/
def counted (memory data : Bytes) (memLatency : Nat) (p : Top → Bool) (n : Nat) : Nat :=
  (List.range n).countP fun m => p (Top.after memory data memLatency m)

theorem after_succ (memory data : Bytes) (memLatency n : Nat) : Top.after memory data memLatency (n + 1) =
    Top.cycle memory memLatency (Top.after memory data memLatency n) := rfl

theorem counted_succ (p : Top → Bool) (n : Nat) : counted memory data memLatency p (n + 1) =
    counted memory data memLatency p n + if p (Top.after memory data memLatency n) then 1 else 0 := by
  unfold counted
  rw [List.range_succ, List.countP_append, List.countP_singleton]

theorem counted_eq_zero {p : Top → Bool} :
    counted memory data memLatency p n = 0 ↔ ∀ m < n, p (Top.after memory data memLatency m) = false := by
  unfold counted
  rw [List.countP_eq_zero]
  simp

theorem live_induction {P : Nat → Prop} (h0 : P 0)
    (hs : ∀ n, (Top.after memory data memLatency n).cpu.hcf = false → P n → P (n + 1)) :
    ∀ {n}, Live memory data memLatency n → P n := by
  intro n
  induction n with
  | zero => exact fun _ => h0
  | succ n ih =>
    intro hl
    exact hs n (hl n n.lt_succ_self) (ih fun m hm => hl m (hm.trans n.lt_succ_self))

theorem serving_after (n : Nat) : Serving memLatency (Top.after memory data memLatency n) := by
  induction n with
  | zero => exact serving_start memLatency data
  | succ n ih => exact serving_cycle ih

theorem memory_after (n : Nat) : (Top.after memory data memLatency n).dm.memory =
    (Top.after memory data memLatency n).stores.foldl Stored.apply data := by
  induction n with
  | zero => rfl
  | succ n ih =>
    rw [after_succ, memory_cycle, ih, ← List.foldl_append]
    rfl

/-! ### The instructions in WB's log -/

/-- `HCF` is not in the log of WB, or has just come there. -/
def Fresh (s : State) : Prop :=
  if s.hcf then ∃ es e, s.wbLog = es ++ [e] ∧ es.all notHcf = true ∧ notHcf e = false else s.wbLog.all notHcf = true

theorem fresh_reset : Fresh reset := rfl

theorem fresh_cycle {memory : Bytes} {s : State} {inp : Input} (hh : s.hcf = false) (h : Fresh s) :
    Fresh (cycle memory s inp) := by
  unfold Fresh at h
  rw [hh, if_neg Bool.false_ne_true] at h
  have hlog := wbLog_cycle memory inp hh
  unfold Fresh
  rcases hma : s.stallMA inp.dmValid with _ | _
  · have hwb : (cycle memory s inp).hcf = (opcode s.mem.inst == HCF) := by
      simp [State.hcf, cycle, nextWb_of_moves (Bool.or_eq_false_iff.mpr ⟨hh, hma⟩), RegMEM.toWb]
    rw [hma, if_neg Bool.false_ne_true] at hlog
    rw [hwb, hlog]
    rcases hop : opcode s.mem.inst == HCF with _ | _
    · rw [if_neg Bool.false_ne_true, List.all_append, h, Bool.true_and]
      unfold State.inMem took
      split
      · simp [notHcf, bne, hop]
      · rfl
    · have hz : s.mem.inst ≠ 0#32 := by
        intro hz
        rw [hz] at hop
        exact absurd hop (by decide)
      refine ⟨s.wbLog, ⟨s.mem.pc, s.mem.inst⟩, ?_, h, by simp [notHcf, bne, hop]⟩
      simp [State.inMem, took, hz]
  · have hwb : (cycle memory s inp).hcf = false := by
      have : s.nextWb inp = {} := by simp [State.nextWb, hh, hma]
      simp only [State.hcf, cycle, this]
      decide
    rw [hwb, if_neg Bool.false_ne_true, hlog, hma, if_pos rfl, List.append_nil, h]

theorem fresh_after (h : Live memory data memLatency n) : Fresh (Top.after memory data memLatency n).cpu :=
  live_induction (P := fun n => Fresh (Top.after memory data memLatency n).cpu) fresh_reset
    (fun _ hh ih => fresh_cycle hh ih) h

/-- At `HCF`'s arrival the instructions in front of it are those WB has had. -/
theorem older_pipe {s : State} {p : Entry → Bool} (h : Fresh s) (hh : s.hcf = true)
    (hp : ∀ e, notHcf e = false → p e = false) : (older s.pipe).filter p = s.wbLog.filter p := by
  unfold Fresh at h
  rw [if_pos hh] at h
  obtain ⟨es, e, hw, ha, he⟩ := h
  have hlast : older [e] = [] := by simp [older, he]
  unfold State.pipe
  rw [hw, List.append_assoc, List.append_assoc, older_append, ha, if_pos rfl, older_of_all ha, older_append, hlast]
  simp [he, hp e he]

/-! ### What is lost on the way -/

/-- EXE is erased in the cycle, and `p` holds of the instruction there. -/
def erased (memLatency : Nat) (p : Entry → Bool) (t : Top) : Bool :=
  t.cpu.flush && t.cpu.stallMA (t.input memLatency).dmValid && p ⟨t.cpu.exe.pc, t.cpu.exe.inst⟩

theorem not_erased_isStore (t : Top) : erased memLatency isStore t = false := by
  unfold erased
  rcases hf : t.cpu.flush with _ | _
  · rfl
  · have he := eEn_of_flush hf
    have hs : isStore ⟨t.cpu.exe.pc, t.cpu.exe.inst⟩ = false := by
      simp only [eEn, Bool.or_eq_true, beq_iff_eq] at he
      rcases he with (he | he) | he <;> simp [isStore, he] <;> decide
    rw [hs, Bool.and_false]

/-- WB, MEM and EXE have no `HCF` while EXE is erased. -/
theorem all_pipe {t : Top} (h : Fresh t.cpu) (hh : t.cpu.hcf = false) (hf : t.cpu.flush = true)
    (hma : t.cpu.stallMA (t.input memLatency).dmValid = true) : t.cpu.pipe.all notHcf = true := by
  unfold Fresh at h
  rw [hh, if_neg Bool.false_ne_true] at h
  have he := eEn_of_flush hf
  rw [stallMA_eq, Bool.and_eq_true] at hma
  have hma := hma.2
  simp only [eEn, Bool.or_eq_true, beq_iff_eq] at he hma
  have hexe : (t.cpu.inExe).all notHcf = true := by
    unfold State.inExe took
    split
    · rcases he with (he | he) | he <;> simp [notHcf, he] <;> decide
    · rfl
  have hmem : (t.cpu.inMem).all notHcf = true := by
    unfold State.inMem took
    split
    · rcases hma with he | he <;> simp [notHcf, he] <;> decide
    · rfl
  unfold State.pipe
  rw [List.all_append, List.all_append, h, hmem, hexe]
  rfl

theorem kept_after (p : Entry → Bool) (h : Live memory data memLatency n) :
    Kept p (counted memory data memLatency (erased memLatency p) n) (Top.after memory data memLatency n).cpu.exeLog
      (Top.after memory data memLatency n).cpu.pipe := by
  induction n with
  | zero => exact ⟨rfl, List.Sublist.refl _, rfl⟩
  | succ n ih =>
    have hl : Live memory data memLatency n := fun m hm => h m (hm.trans n.lt_succ_self)
    have hh := h n n.lt_succ_self
    have ih := ih hl
    rw [after_succ, counted_succ]
    generalize ht : Top.after memory data memLatency n = t at hh ih ⊢
    have hfresh : Fresh t.cpu := ht ▸ fresh_after hl
    rcases hb : t.cpu.flush && t.cpu.stallMA (t.input memLatency).dmValid with _ | _
    · have he : erased memLatency p t = false := by unfold erased; rw [hb, Bool.false_and]
      rw [he, if_neg Bool.false_ne_true, Nat.add_zero]
      show Kept p _ (cycle memory t.cpu (t.input memLatency)).exeLog (cycle memory t.cpu (t.input memLatency)).pipe
      rw [pipe_cycle hh hb, exeLog_cycle]
      exact ih.append _
    · obtain ⟨hf, hma⟩ := Bool.and_eq_true_iff.mp hb
      obtain ⟨hpipe, hexe⟩ := pipe_cycle_erased memory hh hf hma
      have he : erased memLatency p t = p ⟨t.cpu.exe.pc, t.cpu.exe.inst⟩ := by unfold erased; rw [hb, Bool.true_and]
      have hall := all_pipe hfresh hh hf hma
      rw [← hpipe] at ih hall
      rw [he]
      show Kept p _ (cycle memory t.cpu (t.input memLatency)).exeLog (cycle memory t.cpu (t.input memLatency)).pipe
      rw [hexe]
      exact ih.erase hall

/-! ### The register writes -/

/-- The write that WB is doing. -/
def inWb (s : State) : List Word := if useRd s.wb.inst then [s.wb.inst] else []

structure Wrote (s : State) : Prop where
  log : s.writes.map (·.inst) ++ inWb s = (s.wbLog.filter (useRd ·.inst)).map (·.inst)
  regs : s.regs = s.writes.foldl RegWrite.apply fun _ => 0
  zero : s.regs 0 = 0

theorem wrote_reset : Wrote reset := ⟨rfl, rfl, rfl⟩

theorem writes_cycle (memory : Bytes) (s : State) (inp : Input) :
    (cycle memory s inp).writes.map (·.inst) = s.writes.map (·.inst) ++ inWb s := by
  unfold inWb
  simp only [cycle, List.map_append]
  congr 1
  split <;> rfl

theorem regs_cycle {s : State} (memory : Bytes) (inp : Input) (h : Wrote s) :
    (cycle memory s inp).regs = (cycle memory s inp).writes.foldl RegWrite.apply fun _ => 0 := by
  show s.nextRegs = (s.writes ++ if useRd s.wb.inst then [_] else []).foldl RegWrite.apply fun _ => 0
  rw [List.foldl_append, ← h.regs, s.nextRegs_eq]
  rcases hu : useRd s.wb.inst with _ | _
  · rw [if_neg Bool.false_ne_true]
    exact writeBack_of_not_useRd hu h.zero
  · rw [if_pos rfl]
    funext r
    simp only [writeBack, hu, Bool.true_and, beq_iff_eq]
    rfl

theorem inWb_bubble {s : State} (h : s.wb = {}) : inWb s = [] := by
  unfold inWb
  rw [h]
  rfl

theorem Wrote.cycle {s : State} (h : Wrote s) (memory : Bytes) (inp : Input) (hh : s.hcf = false) :
    Wrote (cycle memory s inp) where
  log := by
    rw [writes_cycle, h.log, wbLog_cycle memory inp hh]
    rcases hma : s.stallMA inp.dmValid with _ | _
    · have hw : (Chisel.cycle memory s inp).wb = s.mem.toWb inp.dmRdata :=
        nextWb_of_moves (Bool.or_eq_false_iff.mpr ⟨hh, hma⟩)
      rw [if_neg Bool.false_ne_true, List.filter_append, List.map_append]
      congr 1
      unfold inWb State.inMem took
      rw [hw]
      rcases eq_or_ne s.mem.inst 0#32 with hz | hz
      · simp only [RegMEM.toWb, hz]
        rfl
      · rcases hu : useRd s.mem.inst with _ | _ <;> simp [RegMEM.toWb, hz, hu]
    · have hw : (Chisel.cycle memory s inp).wb = {} := by simp [Chisel.cycle, State.nextWb, hh, hma]
      rw [if_pos rfl, List.append_nil, inWb_bubble hw, List.append_nil]
  regs := regs_cycle memory inp h
  zero := rfl

theorem wrote_after (h : Live memory data memLatency n) : Wrote (Top.after memory data memLatency n).cpu :=
  live_induction (P := fun n => Wrote (Top.after memory data memLatency n).cpu) wrote_reset
    (fun _ hh ih => ih.cycle memory _ hh) h

/-! ### The stores -/

/-- The stores that WB has had, and the one in MEM once it is done. -/
def landed (t : Top) : List Entry :=
  (t.cpu.wbLog ++ if t.dm.state = .wait then t.cpu.inMem else []).filter isStore

/-- The store in MEM. -/
def storeInMem (t : Top) : List Entry := if opcode t.cpu.mem.inst = STORE then [⟨t.cpu.mem.pc, t.cpu.mem.inst⟩] else []

theorem filter_inMem (t : Top) : t.cpu.inMem.filter isStore = storeInMem t := by
  unfold State.inMem storeInMem took
  rcases eq_or_ne t.cpu.mem.inst 0#32 with hz | hz
  · rw [hz]
    rfl
  · by_cases hs : opcode t.cpu.mem.inst = STORE <;> simp [hz, hs, isStore]

theorem landed_eq (t : Top) :
    landed t = t.cpu.wbLog.filter isStore ++ if t.dm.state = .wait then storeInMem t else [] := by
  unfold landed
  rw [List.filter_append]
  split
  · rw [filter_inMem]
  · rfl

section

variable {t : Top}

/-- The data memory is done with the access that leaves MEM. -/
theorem state_of_moves (h : Serving memLatency t) (hm : Moves memLatency t) :
    (Top.cycle memory memLatency t).dm.state = .idle := by
  show (t.dm.next memLatency t.req).state = .idle
  have hbusy : Accesses t ∨ t.dm.state = .idle := by
    unfold Serving at h
    rcases hst : t.dm.state with _ | _ | _ | _ <;> rw [hst] at h
    · exact .inr rfl
    · exact .inl (.inl h)
    · exact .inl (.inr h.1)
    · exact .inl h
  by_cases ha : Accesses t
  · have hc := hm.counter ha
    unfold DataMem.next DataMem.tick
    rcases hst : t.dm.state with _ | _ | _ | _ <;> simp [hc]
  · have hi : t.dm.state = .idle := hbusy.resolve_left ha
    have ha := not_or.mp ha
    unfold DataMem.next DataMem.accept
    simp [hi, Top.req, ha.1, ha.2]

theorem state_of_held (ha : Accesses t) (hv : t.dm.counter ≠ memLatency - 1) :
    (Top.cycle memory memLatency t).dm.state = .wait ↔ t.dm.state ≠ .idle := by
  show (t.dm.next memLatency t.req).state = .wait ↔ _
  have hne : STORE ≠ LOAD := by decide
  unfold DataMem.next DataMem.tick DataMem.accept
  rcases hst : t.dm.state with _ | _ | _ | _
  · rcases ha with ha | ha <;> simp [hv, Top.req, ha, hne]
  all_goals simp [hv]

/-- **One cycle of the record.** The stores that land are those of the record, unless the data memory answers one that it
has not accepted. -/
theorem landed_cycle (hs : Serving memLatency t) (hh : t.cpu.hcf = false) :
    ∃ late, landed (Top.cycle memory memLatency t) = landed t ++ late ∧
      ((t.stored.map (·.entry) = late ∧ losesStore memLatency t = false) ∨
        (t.stored = [] ∧ late.length = 1 ∧ losesStore memLatency t = true)) := by
  rw [landed_eq, landed_eq]
  have hlog := wbLog_cycle memory (t.input memLatency) hh
  by_cases hm : Moves memLatency t
  · rw [state_of_moves hs hm, if_neg (by decide)]
    have hw : (Top.cycle memory memLatency t).cpu.wbLog = t.cpu.wbLog ++ t.cpu.inMem := by
      rw [(Bool.or_eq_false_iff.mp hm).2, if_neg Bool.false_ne_true] at hlog
      exact hlog
    rw [hw, List.filter_append, filter_inMem, List.append_nil]
    unfold Serving at hs
    rcases hst : t.dm.state with _ | _ | _ | _ <;> rw [hst] at hs
    · refine ⟨storeInMem t, by simp, ?_⟩
      by_cases hop : opcode t.cpu.mem.inst = STORE
      · have hc := hm.counter (.inr hop)
        exact .inr ⟨by simp [Top.stored, hst], by simp [storeInMem, hop], by simp [losesStore, hst, DataMem.valid, hc, hop]⟩
      · exact .inl ⟨by simp [Top.stored, hst, storeInMem, hop], by simp [losesStore, hop]⟩
    · have hop : opcode t.cpu.mem.inst ≠ STORE := by rw [hs]; decide
      exact ⟨[], by simp [storeInMem, hop], .inl ⟨by simp [Top.stored, hst], by simp [losesStore, hst]⟩⟩
    · exact ⟨storeInMem t, by simp, .inl ⟨by simp [Top.stored, hst, storeInMem, hs.1], by simp [losesStore, hst]⟩⟩
    · exact ⟨[], by simp, .inl ⟨by simp [Top.stored, hst], by simp [losesStore, hst]⟩⟩
  · have ha : Accesses t := by
      by_contra ha
      exact hm (moves_of_not_accesses hh ha)
    have hv : t.dm.counter ≠ memLatency - 1 := by
      intro hv
      refine hm (Bool.or_eq_false_iff.mpr ⟨hh, ?_⟩)
      rw [stallMA_eq, DataMem.valid, hv]
      simp
    have hma : t.cpu.stallMA (t.input memLatency).dmValid = true := by
      simpa [Moves, hh] using hm
    have hw : (Top.cycle memory memLatency t).cpu.wbLog = t.cpu.wbLog := by
      rw [hma, if_pos rfl, List.append_nil] at hlog
      exact hlog
    have hin : storeInMem (Top.cycle memory memLatency t) = storeInMem t := by
      unfold storeInMem
      rw [mem_cycle hm]
    have hl : losesStore memLatency t = false := by simp [losesStore, DataMem.valid, hv]
    rw [hw, hin]
    simp only [state_of_held ha hv]
    unfold Serving at hs
    rcases hst : t.dm.state with _ | _ | _ | _ <;> rw [hst] at hs
    · exact ⟨[], by simp, .inl ⟨by simp [Top.stored, hst], hl⟩⟩
    · have hop : opcode t.cpu.mem.inst ≠ STORE := by rw [hs]; decide
      exact ⟨[], by simp [storeInMem, hop], .inl ⟨by simp [Top.stored, hst], hl⟩⟩
    · exact ⟨storeInMem t, by simp, .inl ⟨by simp [Top.stored, hst, storeInMem, hs.1], hl⟩⟩
    · exact ⟨[], by simp, .inl ⟨by simp [Top.stored, hst], hl⟩⟩

end

/-- The record has, in order, the stores that landed, except for those the data memory answered too early. -/
theorem landed_after (h : Live memory data memLatency n) :
    ((Top.after memory data memLatency n).stores.map (·.entry)).Sublist (landed (Top.after memory data memLatency n)) ∧
      (landed (Top.after memory data memLatency n)).length = (Top.after memory data memLatency n).stores.length +
        counted memory data memLatency (losesStore memLatency) n := by
  induction n with
  | zero => exact ⟨List.Sublist.refl _, rfl⟩
  | succ n ih =>
  have hh := h n n.lt_succ_self
  obtain ⟨hs, hl⟩ := ih fun m hm => h m (hm.trans n.lt_succ_self)
  rw [after_succ, counted_succ]
  generalize ht : Top.after memory data memLatency n = t at hh hs hl ⊢
  have hserv : Serving memLatency t := ht ▸ serving_after n
  have hstores : (Top.cycle memory memLatency t).stores = t.stores ++ t.stored := rfl
  obtain ⟨late, hlate, ⟨hx, hlose⟩ | ⟨hx, hone, hlose⟩⟩ := landed_cycle (hserv) hh <;>
    rw [hlate, hstores, hlose, List.map_append, List.length_append, List.length_append]
  · refine ⟨hx ▸ hs.append (List.Sublist.refl _), ?_⟩
    have := congrArg List.length hx
    rw [List.length_map] at this
    simp only [Bool.false_eq_true, if_false]
    omega
  · refine ⟨?_, ?_⟩
    · rw [hx, List.map_nil, List.append_nil]
      exact hs.trans (List.sublist_append_left _ _)
    · rw [hx, List.length_nil, if_pos rfl]
      omega

/-! ## With `HCF` in WB -/

theorem zero_after (n : Nat) : (Top.after memory data memLatency n).cpu.regs 0 = 0 := by
  rcases n with _ | n <;> rfl

/-- The parts of the machine that `HCF` holds. -/
structure Held (t u : Top) : Prop where
  wb : u.cpu.wb = t.cpu.wb
  mem : u.cpu.mem = t.cpu.mem
  regs : u.cpu.regs = t.cpu.regs
  exeLog : u.cpu.exeLog = t.cpu.exeLog
  writes : u.cpu.writes = t.cpu.writes
  stores : t.stores <+: u.stores

theorem Held.refl (t : Top) : Held t t := ⟨rfl, rfl, rfl, rfl, rfl, List.prefix_rfl⟩

theorem Held.trans {t u v : Top} (h : Held t u) (h' : Held u v) : Held t v :=
  ⟨h'.wb.trans h.wb, h'.mem.trans h.mem, h'.regs.trans h.regs, h'.exeLog.trans h.exeLog, h'.writes.trans h.writes,
    h.stores.trans h'.stores⟩

theorem Held.hcf {t u : Top} (h : Held t u) : u.cpu.hcf = t.cpu.hcf := by
  unfold State.hcf
  rw [h.wb]

theorem Held.req {t u : Top} (h : Held t u) : u.req = t.req := by
  unfold Top.req
  rw [h.mem]

theorem held_cycle {t : Top} (hh : t.cpu.hcf = true) (h0 : t.cpu.regs 0 = 0) :
    Held t (Top.cycle memory memLatency t) where
  wb := by simp [Top.cycle, Chisel.cycle, State.nextWb, hh]
  mem := mem_cycle (by simp [Moves, hh])
  regs := t.cpu.nextRegs_eq.trans (writeBack_of_not_useRd (useRd_of_hcf hh) h0)
  exeLog := by simp [Top.cycle, exeLog_cycle, State.issues, hh]
  writes := by simp [Top.cycle, Chisel.cycle, useRd_of_hcf hh]
  stores := List.prefix_append _ _

theorem held_after (hh : (Top.after memory data memLatency n).cpu.hcf = true) (k : Nat) :
    Held (Top.after memory data memLatency n) (Top.after memory data memLatency (n + k)) := by
  induction k with
  | zero => exact Held.refl _
  | succ k ih => exact ih.trans (held_cycle (ih.hcf.trans hh) (zero_after _))

theorem memory_of_harmless (hh : (Top.after memory data memLatency n).cpu.hcf = true)
    (h : Harmless (Top.after memory data memLatency n)) (k : Nat) :
    (Top.after memory data memLatency (n + k)).dm.memory = (Top.after memory data memLatency n).dm.memory := by
  induction k with
  | zero => rfl
  | succ k ih =>
    have hheld := held_after hh k
    rw [← Nat.add_assoc, after_succ]
    rcases memory_cycle_cases memory (serving_after (n + k)) with hm | ⟨hop, hm⟩ <;> rw [hm, ih]
    rw [hheld.req]
    exact h (hheld.mem ▸ hop)

/-! ### The store behind `HCF` -/

/-- Two cycles on, a store that is accepted is in the data memory. -/
theorem memory_of_accepts (memory : Bytes) {t : Top} (hi : t.dm.state = .idle) (hc : t.dm.counter ≠ memLatency - 1)
    (hop : opcode t.cpu.mem.inst = STORE) :
    (Top.cycle memory memLatency (Top.cycle memory memLatency t)).dm.memory =
      storeBytes t.dm.memory t.req.length t.req.waddr t.req.wdata := by
  have hne : STORE ≠ LOAD := by decide
  have hdm : (Top.cycle memory memLatency t).dm = { t.dm with
      writeAddrReg := t.req.waddr, writeDataReg := t.req.wdata, lengthReg := t.req.length, counter := 1,
      state := .write } := by
    show t.dm.next memLatency t.req = _
    unfold DataMem.next DataMem.accept
    simp [hi, hc, Top.req, hop, hne]
  rw [memory_cycle]
  unfold Top.stored
  rw [hdm, if_pos rfl]
  rfl

/-- A store in MEM is written some time. -/
theorem exists_memory (memory : Bytes) {t : Top} (hs : Serving memLatency t) (hi : t.dm.state = .idle)
    (hh : t.cpu.hcf = true) (h0 : t.cpu.regs 0 = 0) (hop : opcode t.cpu.mem.inst = STORE) :
    ∃ k, (Top.run memory memLatency t k).dm.memory =
      storeBytes t.dm.memory t.req.length t.req.waddr t.req.wdata := by
  by_cases hc : t.dm.counter = memLatency - 1
  · have hne : STORE ≠ LOAD := by decide
    have hdm : (Top.cycle memory memLatency t).dm = { t.dm with
        writeAddrReg := t.req.waddr, writeDataReg := t.req.wdata, lengthReg := t.req.length, counter := 1,
        state := .idle } := by
      show t.dm.next memLatency t.req = _
      unfold DataMem.next DataMem.accept
      simp [hi, hc, Top.req, hop, hne]
    have hl : memLatency ≤ 1 := by
      unfold Serving at hs
      rw [hi] at hs
      rcases hs with hs | ⟨-, hs⟩ <;> omega
    have hheld : Held t (Top.cycle memory memLatency t) := held_cycle hh h0
    have hc' : (Top.cycle memory memLatency t).dm.counter ≠ memLatency - 1 := by
      rw [hdm]
      show 1 ≠ memLatency - 1
      omega
    have hw := memory_of_accepts memory (by rw [hdm]) hc' (hheld.mem ▸ hop)
    exact ⟨3, by rw [hheld.req, hdm] at hw; exact hw⟩
  · exact ⟨2, memory_of_accepts memory hi hc hop⟩

/-- The data memory has nothing to do when `HCF` arrives. -/
theorem state_of_arrives (h : Arrives memory data memLatency n) :
    (Top.after memory data memLatency n).dm.state = .idle := by
  obtain ⟨hc, hl⟩ := h
  rcases n with _ | n
  · rfl
  · have hh := hl n n.lt_succ_self
    rw [after_succ] at hc ⊢
    refine state_of_moves (serving_after n) ?_
    refine Bool.or_eq_false_iff.mpr ⟨hh, ?_⟩
    by_contra hma
    have hw : ((Top.after memory data memLatency n).cpu.nextWb
        ((Top.after memory data memLatency n).input memLatency)) = {} := by
      simp [State.nextWb, hh, hma]
    simp only [Top.cycle, State.hcf, Chisel.cycle, hw] at hc
    exact absurd hc (by decide)

/-! ### At the arrival of `HCF` -/

section

variable (h : Arrives memory data memLatency n)

include h

theorem writes_of_arrives : ((Top.after memory data memLatency n).cpu.writes.map (·.inst)).filter writesReg =
    ((older (Top.after memory data memLatency n).cpu.pipe).filter (writesReg ·.inst)).map (·.inst) := by
  have hw := (wrote_after h.2).log
  have hin : inWb (Top.after memory data memLatency n).cpu = [] := by
    simp [inWb, useRd_of_hcf h.1]
  have hp : ∀ e : Entry, notHcf e = false → writesReg e.inst = false := by
    intro e he
    have hop : opcode e.inst = HCF := by simpa [notHcf] using he
    rw [writesReg, useRd, hop]
    rfl
  rw [hin, List.append_nil] at hw
  rw [older_pipe (fresh_after h.2) h.1 hp, hw, List.filter_map, List.filter_filter]
  congr 2
  funext e
  simp [writesReg, Bool.and_comm]

theorem landed_of_arrives : landed (Top.after memory data memLatency n) =
    (older (Top.after memory data memLatency n).cpu.exeLog).filter isStore := by
  have hk := kept_after isStore h.2
  have h0 : counted memory data memLatency (erased memLatency isStore) n = 0 :=
    counted_eq_zero.mpr fun m _ => not_erased_isStore _
  have hp : ∀ e : Entry, notHcf e = false → isStore e = false := by
    intro e he
    have hop : opcode e.inst = HCF := by simpa [notHcf] using he
    rw [isStore, hop]
    rfl
  rw [← hk.eq_iff.mpr h0, older_pipe (fresh_after h.2) h.1 hp, landed_eq, state_of_arrives h, if_neg (by decide),
    List.append_nil]

/-- What the run has done when `HCF` arrives. -/
theorem effects_of_arrives
    (hl : ∀ m < n, losesLink memLatency (Top.after memory data memLatency m) = false ∧
      losesStore memLatency (Top.after memory data memLatency m) = false) :
    Effects data (Top.after memory data memLatency n) where
  writes := by
    have h0 : counted memory data memLatency (erased memLatency (writesReg ·.inst)) n = 0 :=
      counted_eq_zero.mpr fun m hm => (hl m hm).1
    rw [writes_of_arrives h, (kept_after (writesReg ·.inst) h.2).eq_iff.mpr h0]
  regs := (wrote_after h.2).regs
  stores := by
    have h0 : counted memory data memLatency (losesStore memLatency) n = 0 :=
      counted_eq_zero.mpr fun m hm => (hl m hm).2
    obtain ⟨hs, hlen⟩ := landed_after h.2
    rw [h0, Nat.add_zero] at hlen
    refine ⟨_, List.prefix_rfl, ?_, memory_after n⟩
    rw [← landed_of_arrives h]
    exact hs.eq_of_length (by rw [List.length_map, hlen])

theorem not_loses_of_effects (he : Effects data (Top.after memory data memLatency n)) :
    ∀ m < n, losesLink memLatency (Top.after memory data memLatency m) = false ∧
      losesStore memLatency (Top.after memory data memLatency m) = false := by
  have hlinks : counted memory data memLatency (erased memLatency (writesReg ·.inst)) n = 0 := by
    have hw := congrArg List.length ((writes_of_arrives h).symm.trans he.writes)
    have hk := (kept_after (writesReg ·.inst) h.2).length
    rw [List.length_map, List.length_map] at hw
    omega
  have hstores : counted memory data memLatency (losesStore memLatency) n = 0 := by
    obtain ⟨done, hpre, hdone, -⟩ := he.stores
    have hlen := (landed_after h.2).2
    have hd := congrArg List.length hdone
    rw [← landed_of_arrives h, List.length_map] at hd
    have := hpre.length_le
    omega
  exact fun m hm => ⟨counted_eq_zero.mp hlinks m hm, counted_eq_zero.mp hstores m hm⟩

theorem harmless_of_frozen (hk : ∀ k, (Top.after memory data memLatency (n + k)).dm.memory =
    (Top.after memory data memLatency n).dm.memory) : Harmless (Top.after memory data memLatency n) := by
  intro hop
  obtain ⟨k, hmem⟩ := exists_memory memory (serving_after n) (state_of_arrives h) h.1 (zero_after n) hop
  have hrun : Top.after memory data memLatency (n + k) =
      Top.run memory memLatency (Top.after memory data memLatency n) k := Top.run_add memory memLatency _ n k
  rw [← hmem, ← hrun]
  exact hk k

end

/-- The arrival of an `HCF` that is in WB. -/
theorem exists_arrives (hh : (Top.after memory data memLatency n).cpu.hcf = true) :
    ∃ m k, n = m + k ∧ Arrives memory data memLatency m := by
  have hex : ∃ n, (Top.after memory data memLatency n).cpu.hcf = true := ⟨n, hh⟩
  refine ⟨Nat.find hex, n - Nat.find hex, ?_, Nat.find_spec hex, fun m hm => ?_⟩
  · have := Nat.find_min' hex hh
    omega
  · exact Bool.eq_false_iff.mpr (Nat.find_min hex hm)

end Runs

/-- **`HCF` halts the machine** exactly when, as it arrives in WB, the instruction behind it is no store that changes the
data memory, and until then no linking jump was erased in EXE and no store was answered without being accepted. -/
theorem halts_iff (memory data : Bytes) (memLatency : Nat) :
    Halts memory data memLatency ↔ ∀ n, Arrives memory data memLatency n →
      Harmless (Top.after memory data memLatency n) ∧ ∀ m < n,
        losesLink memLatency (Top.after memory data memLatency m) = false ∧
          losesStore memLatency (Top.after memory data memLatency m) = false := by
  constructor
  · intro h n ha
    obtain ⟨hk, he⟩ := h n ha.1
    exact ⟨harmless_of_frozen ha fun k => (hk k).2, not_loses_of_effects ha he⟩
  · intro h n hh
    obtain ⟨m, j, rfl, ha⟩ := exists_arrives hh
    obtain ⟨hharm, hl⟩ := h m ha
    have he := effects_of_arrives ha hl
    have hj := held_after ha.1 j
    have hmem := memory_of_harmless ha.1 hharm
    refine ⟨fun k => ?_, ?_, ?_, ?_⟩
    · rw [Nat.add_assoc, hmem (j + k), hmem j, (held_after ha.1 (j + k)).regs, hj.regs]
      exact ⟨rfl, rfl⟩
    · rw [hj.writes, hj.exeLog]
      exact he.writes
    · rw [hj.writes, hj.regs]
      exact he.regs
    · obtain ⟨done, hpre, hdone, hm⟩ := he.stores
      exact ⟨done, hpre.trans hj.stores, by rw [hj.exeLog, hdone], by rw [hmem j, hm]⟩

/-- Only a data memory of latency one answers what it has not accepted. -/
theorem memLatency_le_one {memory data : Bytes} {memLatency n : Nat}
    (h : losesStore memLatency (Top.after memory data memLatency n) = true) : memLatency ≤ 1 := by
  have hs : Serving memLatency (Top.after memory data memLatency n) := serving_after n
  simp only [losesStore, DataMem.valid, Bool.and_eq_true, beq_iff_eq] at h
  unfold Serving at hs
  rw [h.1.1] at hs
  rcases hs with hs | ⟨-, hs⟩ <;> omega

/-- `hcf` and `sw x0, 0(x0)` behind it. -/
def hcfThenStore : Bytes := fun a =>
  ([0x0b, 0x00, 0x00, 0x00, 0x23, 0x20, 0x00, 0x00] : List (BitVec 8)).getD a.toNat 0

/-- The store behind `HCF` clears the data memory's first byte. -/
theorem halts_iff_hcfThenStore : ¬ ∀ (memory data : Bytes) (memLatency : Nat), Halts memory data memLatency := by
  intro h
  have hk := ((h hcfThenStore (fun _ => 7) 5) 4 (by decide +kernel)).1 2
  exact absurd (congrFun hk.2 0) (by decide +kernel)

end SocModel.Chisel
