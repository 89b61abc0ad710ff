import SocModel.Chisel.Freeze
import SocModel.Chisel.Handshake
import SocModel.Chisel.Serial

/-!
# The pipelined chip against the serial one

What the stages of the chip and its data memory hold, in terms of the serial machine's states. It holds from latency 3
on, and as long as no jump is erased that has a link register to write.

* `Works` : the data memory on the access in MEM, against the memory that the access finds;
* `Simulates` : the stage registers against the serial states of the instructions in them;
* `Simulates.waits`, `Simulates.erases`, `Simulates.moves` : the cycles, `Simulates.cycle` : any of them.
-/

namespace SocModel.Chisel

open Lib Opcode Handshake

/-! ## The data memory -/

/-- What the instruction in MEM asks of the data memory. -/
def Top.turn (t : Top) : Handshake.Turn :=
  if opcode t.cpu.mem.inst = LOAD then .read t.req
  else if opcode t.cpu.mem.inst = STORE then .write t.req
  else .pause t.req

/-- The access in MEM has found the memory `m`, some cycles ago; without one the data memory rests. -/
def Works (memLatency : Nat) (t : Top) (m : Bytes) : Prop :=
  ∃ d k, Idle d ∧ d.memory = m ∧ t.dm = hold memLatency t.turn.req d k ∧ k < if t.turn.isPause then 1 else memLatency

section

variable {memLatency : Nat} {t : Top} {m : Bytes}

theorem req_turn (t : Top) : t.turn.req = t.req := by
  have hne : STORE ≠ LOAD := by decide
  unfold Top.turn Handshake.Turn.req
  by_cases hr : opcode t.cpu.mem.inst = LOAD
  · simp [hr, Top.req, hne.symm]
  · by_cases hw : opcode t.cpu.mem.inst = STORE <;> simp [hr, hw, Top.req, hne]

theorem isPause_turn (t : Top) : t.turn.isPause = false ↔ Accesses t := by
  unfold Top.turn Accesses
  by_cases hr : opcode t.cpu.mem.inst = LOAD
  · simp [hr, Handshake.Turn.isPause]
  · by_cases hw : opcode t.cpu.mem.inst = STORE <;> simp [hr, hw, Handshake.Turn.isPause, show STORE ≠ LOAD by decide]

/-- The memory behind the turn is that behind the instruction. -/
theorem memory_done (t : Top) (d : DataMem) : (done t.turn d).memory = t.cpu.mem.store d.memory := by
  have hne : STORE ≠ LOAD := by decide
  unfold Top.turn RegMEM.store done
  by_cases hr : opcode t.cpu.mem.inst = LOAD
  · simp [hr, hne.symm]
  · by_cases hw : opcode t.cpu.mem.inst = STORE <;> simp [hw, hr, hne, Top.req, RegMEM.length, RegMEM.addr]

theorem dataReg_done (d : DataMem) (hr : opcode t.cpu.mem.inst = LOAD) :
    (done t.turn d).dataReg = t.cpu.mem.load d.memory := by
  unfold Top.turn
  rw [if_pos hr]
  rfl

section

variable (hL : 3 ≤ memLatency) (h : Works memLatency t m)

include hL h

/-- Behind an access the counter tells the cycles since it came. -/
theorem Works.held (ha : Accesses t) : ∃ d, Idle d ∧ d.memory = m ∧ t.dm.counter < memLatency ∧
    t.dm = hold memLatency t.turn.req d t.dm.counter := by
  have hp := (isPause_turn t).mpr ha
  obtain ⟨d, k, hd, hm, hk, hlt⟩ := h
  rw [hp, if_neg Bool.false_ne_true] at hlt
  have hc : t.dm.counter = k := by
    rw [hk]
    exact counter_hold hd hp (by omega) k hlt
  exact ⟨d, hd, hm, by omega, by rwa [hc]⟩

omit hL in
theorem Works.idle (ha : ¬ Accesses t) : Idle t.dm ∧ t.dm.memory = m := by
  have hp : t.turn.isPause = true := by
    rw [← Bool.not_eq_false]
    exact fun hp => ha ((isPause_turn t).mp hp)
  obtain ⟨d, k, hd, hm, hk, hlt⟩ := h
  rw [hp, if_pos rfl] at hlt
  obtain rfl : k = 0 := by omega
  rw [hk]
  exact ⟨hd, hm⟩

/-- MEM keeps its access for another cycle. -/
theorem Works.waits (ha : Accesses t) (hc : t.dm.counter ≠ memLatency - 1) {u : Top}
    (hdm : u.dm = t.dm.next memLatency t.req) (hmem : u.cpu.mem = t.cpu.mem) :
    Works memLatency u m ∧ u.dm.counter = t.dm.counter + 1 := by
  have hp := (isPause_turn t).mpr ha
  have hturn : u.turn = t.turn := by
    unfold Top.turn Top.req
    rw [hmem]
  obtain ⟨d, hd, hm, hlt, hk⟩ := h.held hL ha
  have hu : u.dm = hold memLatency t.turn.req d (t.dm.counter + 1) := by
    rw [hdm, hold, ← hk, req_turn]
  refine ⟨⟨d, t.dm.counter + 1, hd, hm, by rwa [hturn], ?_⟩, ?_⟩
  · rw [hturn, hp, if_neg Bool.false_ne_true]
    omega
  · rw [hu]
    exact counter_hold hd hp (by omega) _ (by omega)

/-- The access leaves MEM when it is done. -/
theorem Works.moves (hm : Moves memLatency t) :
    Idle (t.dm.next memLatency t.req) ∧ (t.dm.next memLatency t.req).memory = t.cpu.mem.store m ∧
      (opcode t.cpu.mem.inst = LOAD → t.dm.dataReg = t.cpu.mem.load m) := by
  by_cases ha : Accesses t
  · have hp := (isPause_turn t).mpr ha
    obtain ⟨d, hd, rfl, -, hk⟩ := h.held hL ha
    rw [hm.counter ha] at hk
    have hend : t.dm.next memLatency t.req = { done t.turn d with state := .idle, counter := 0 } := by
      rw [← hold_end hd hp (by omega : 2 ≤ memLatency), hk, ← req_turn]
      obtain ⟨k, rfl⟩ : ∃ k, memLatency = k + 1 := ⟨memLatency - 1, by omega⟩
      rfl
    rw [hend, ← memory_done]
    refine ⟨⟨rfl, rfl⟩, rfl, fun hr => ?_⟩
    rw [hk, hold_wait hd hp _ (by omega) (by omega), ← dataReg_done d hr]
  · obtain ⟨hd, rfl⟩ := h.idle ha
    obtain ⟨hr, hw⟩ := not_or.mp ha
    have hturn : t.turn = .pause t.req := by
      unfold Top.turn
      rw [if_neg hr, if_neg hw]
    have hend : t.dm.next memLatency t.req = { t.dm with state := .idle, counter := 0 } := by
      have := after_eq (t := t.turn) hd (by omega : 2 ≤ memLatency)
      rw [hturn] at this
      rw [← req_turn, hturn]
      exact this
    rw [hend]
    exact ⟨⟨rfl, rfl⟩, by rw [RegMEM.store, if_neg hw], fun hl => absurd hl hr⟩

/-- Nothing has been done while the data memory is in `sIdle`. -/
theorem Works.memory_of_idle (hst : t.dm.state = .idle) : t.dm.memory = m := by
  by_cases ha : Accesses t
  · have hp := (isPause_turn t).mpr ha
    obtain ⟨d, hd, rfl, hlt, hk⟩ := h.held hL ha
    rcases (show t.dm.counter = 0 ∨ t.dm.counter = 1 ∨ 2 ≤ t.dm.counter by omega) with hc | hc | hc
    · rw [hk, hc]
      rfl
    · rw [hk, hc, hold_one hd (by omega)]
      exact memory_accept _ _
    · rw [hk, hold_wait hd hp _ hc hlt] at hst
      cases hst
  · exact (h.idle ha).2

/-- The access has been done or has not. -/
theorem Works.memory : t.dm.memory = m ∨ t.dm.memory = t.cpu.mem.store m := by
  by_cases ha : Accesses t
  · have hp := (isPause_turn t).mpr ha
    obtain ⟨d, hd, rfl, hlt, hk⟩ := h.held hL ha
    rw [hk, ← memory_done]
    rcases (show t.dm.counter = 0 ∨ t.dm.counter = 1 ∨ 2 ≤ t.dm.counter by omega) with hc | hc | hc
    · rw [hc]
      exact .inl rfl
    · rw [hc, hold_one hd (by omega)]
      exact .inl (memory_accept _ _)
    · rw [hold_wait hd hp _ hc hlt]
      exact .inr rfl
  · exact .inl (h.idle ha).2

end

end

/-! ## The stages -/

/-- An instruction of the path as EXE's log has it, which leaves out the empty word. -/
def Visit.entries (v : Visit) : List Entry := took true v.pc v.inst

section

variable (program data : Bytes)

/-- What the stages hold, against the serial machine: `out` instructions have left MEM, the next is there if `inMem`,
and the one behind it has been erased in EXE if `skip`. -/
structure Simulates (memLatency : Nat) (t : Top) (tr : Tracked) (out : Nat) (inMem skip : Bool) : Prop where
  cpu : tr.cpu = t.cpu
  follows : Follows program tr
  path : tr.path = (List.range tr.path.length).map (Serial.visit program data)
  length : tr.path.length = out + inMem.toNat + skip.toNat + tr.exeFetched.toNat
  regs : writeBack t.cpu.wb t.cpu.regs = (Serial.after program data out).regs
  zero : t.cpu.regs 0 = 0
  mem : inMem = true → t.cpu.mem.Agrees ((Serial.after program data out).result program)
  memBubble : inMem = false → t.cpu.mem.inst = 0
  exe : tr.exeFetched = true → skip = false ∧
    t.cpu.exe.Agrees ((Serial.after program data (out + inMem.toNat)).operands program)
  skip : skip = true → Accesses t ∧ opcode ((Serial.after program data (out + 1)).inst program) ≠ HCF ∧
    (Serial.after program data (out + 2)).SameData (Serial.after program data (out + 1))
  works : Works memLatency t (Serial.after program data out).memory
  hcf : ∀ i < out, opcode ((Serial.after program data i).inst program) = HCF ↔ i + 1 = out ∧ t.cpu.hcf = true
  started : t.cpu.hcf = true → out ≠ 0
  log : t.cpu.exeLog = tr.path.flatMap Visit.entries

end

section

variable {program data : Bytes} {memLatency : Nat} {t : Top} {tr : Tracked} {out : Nat} {inMem skip : Bool}

theorem simulates_start (program data : Bytes) (memLatency : Nat) :
    Simulates program data memLatency (Top.start data) Tracked.start 0 false false where
  cpu := rfl
  follows := follows_start program
  path := rfl
  length := rfl
  regs := funext fun _ => ite_self _
  zero := rfl
  mem h := nomatch h
  memBubble _ := rfl
  exe h := nomatch h
  skip h := nomatch h
  works := ⟨_, 0, ⟨rfl, rfl⟩, rfl, rfl, Nat.zero_lt_one⟩
  hcf _ h := nomatch h
  started h := nomatch h
  log := rfl

/-! ### The operands -/

/-- The path goes on where the serial machine does. -/
theorem Simulates.due (h : Simulates program data memLatency t tr out inMem skip) :
    due tr.path = (Serial.after program data tr.path.length).pc := by
  rw [h.path]
  rcases hn : tr.path.length with _ | n
  · rfl
  · rw [List.range_succ, List.map_append, List.map_singleton, due_append, List.length_append, List.length_map,
      List.length_range]
    rfl

/-- A register that WB, MEM and EXE leave alone has the value that the serial machine finds. -/
theorem Simulates.reads (h : Simulates program data memLatency t tr out inMem skip) {i : Word} {r : BitVec 5}
    (hno : overlap i t.cpu.exe.inst = false ∧ overlap i t.cpu.mem.inst = false ∧ overlap i t.cpu.wb.inst = false)
    (hr : ∀ w : RegWB, overlap i w.inst = false → ∀ regs : BitVec 5 → Word, regs 0 = 0 → writeBack w regs r = regs r) :
    (Serial.after program data tr.path.length).regs r = t.cpu.regs r := by
  obtain ⟨hexe, hmem, hwb⟩ := hno
  have hstep (k : Nat) (hk : overlap i ((Serial.after program data k).inst program) = false) :
      (Serial.after program data (k + 1)).regs r = (Serial.after program data k).regs r := by
    rw [Serial.after_succ]
    exact hr (((Serial.after program data k).result program).toWb _) hk _ (Serial.regs_zero _ _ _)
  have hout : (Serial.after program data out).regs r = t.cpu.regs r := by
    rw [← h.regs]
    exact hr _ hwb _ h.zero
  have hmoved : (Serial.after program data (out + inMem.toNat)).regs r = t.cpu.regs r := by
    rcases hm : inMem with _ | _
    · exact hout
    · rw [← hout]
      rw [(h.mem hm).inst] at hmem
      exact hstep out hmem
  have hlen := h.length
  rcases hs : skip with _ | _
  · rw [hs, Bool.toNat_false, Nat.add_zero] at hlen
    rw [hlen]
    rcases he : tr.exeFetched with _ | _
    · exact hmoved
    · rw [← hmoved]
      rw [(h.exe he).2.inst] at hexe
      exact hstep _ hexe
  · have hm : inMem = true := by
      by_contra hm
      have hb := h.memBubble (Bool.not_eq_true _ ▸ hm)
      have ha := (h.skip hs).1
      unfold Accesses at ha
      rw [hb] at ha
      revert ha
      decide
    have he : tr.exeFetched = false := by
      by_contra he
      have := (h.exe (Bool.not_eq_false _ ▸ he)).1
      rw [hs] at this
      cases this
    rw [hs, hm, he] at hlen
    rw [hm] at hmoved
    rw [hlen, ← hmoved]
    exact congrFun (h.skip hs).2.2.regs r

/-- EXE takes the instruction that the serial machine is at, with its operands. -/
theorem Simulates.decoded (h : Simulates program data memLatency t tr out inMem skip) {dmValid : Bool}
    (hi : t.cpu.issues dmValid = true) (hid : tr.idFetched = true) :
    t.cpu.decoded.Agrees ((Serial.after program data tr.path.length).operands program) := by
  have hfront := h.follows.front_eq (h.cpu ▸ (issues_iff.mp hi).1.1)
  rw [Tracked.front, if_pos hid, h.due, h.cpu] at hfront
  have hfetch := (h.follows.id hid).1
  rw [h.cpu, hfront] at hfetch
  have hno := not_overlap_of_issues hi
  refine ⟨hfront, hfetch, ?_, fun hu => ?_, fun hu => ?_⟩
  · show immGen (dImmSel t.cpu.id.inst) t.cpu.id.inst = _
    rw [hfetch]
    rfl
  · have hrs1 : rs1 t.cpu.id.inst = rs1 ((Serial.after program data tr.path.length).inst program) := by rw [hfetch]; rfl
    have hu : useRs1 t.cpu.id.inst = true := by
      rw [hfetch]
      exact useRs1_of_readsRs1 hu
    exact (h.reads hno fun w hw regs h0 => writeBack_rs1 hw hu h0).symm.trans (congrArg _ hrs1)
  · have hrs2 : rs2 t.cpu.id.inst = rs2 ((Serial.after program data tr.path.length).inst program) := by rw [hfetch]; rfl
    have hu : useRs2 t.cpu.id.inst = true := by
      rw [hfetch]
      exact useRs2_of_readsRs2 hu
    exact (h.reads hno fun w hw regs h0 => writeBack_rs2 hw hu h0).symm.trans (congrArg _ hrs2)

/-! ### One cycle -/

theorem Tracked.step_eq (memory : Bytes) (inp : Input) (hh : tr.cpu.hcf = false) : tr.step memory inp = .next
    { cpu := cycle memory tr.cpu inp
      idFetched := !tr.cpu.flush && (!tr.cpu.stallFront inp.dmValid || tr.idFetched)
      exeFetched := !tr.cpu.flush &&
        if tr.cpu.stallMA inp.dmValid then tr.exeFetched else !(tr.cpu.hcf || tr.cpu.stallDH) && tr.idFetched
      path := tr.path ++
        if tr.cpu.issues inp.dmValid && tr.idFetched then
          [⟨tr.cpu.id.pc, tr.cpu.id.inst, (cycle memory tr.cpu inp).succPc⟩] else [] } := by
  unfold Tracked.step Chisel.step
  rw [hh, if_neg Bool.false_ne_true, Outcome.bind_next]

theorem Simulates.inMem_of_accesses (h : Simulates program data memLatency t tr out inMem skip) (ha : Accesses t) :
    inMem = true := by
  by_contra hm
  unfold Accesses at ha
  rw [h.memBubble (Bool.not_eq_true _ ▸ hm)] at ha
  revert ha
  decide

/-- The log of EXE has the path without its empty words. -/
theorem Simulates.log_cycle (h : Simulates program data memLatency t tr out inMem skip) (dmValid : Bool) (next : Addr) :
    t.cpu.exeLog ++ took (t.cpu.issues dmValid) t.cpu.id.pc t.cpu.id.inst =
      (tr.path ++ if t.cpu.issues dmValid && tr.idFetched then [(⟨t.cpu.id.pc, t.cpu.id.inst, next⟩ : Visit)]
        else []).flatMap Visit.entries := by
  rw [List.flatMap_append, ← h.log]
  rcases hi : t.cpu.issues dmValid with _ | _
  · rfl
  · rcases hid : tr.idFetched with _ | _
    · have hb := h.follows.idBubble hid
      rw [h.cpu] at hb
      simp [hb, took]
    · simp [Visit.entries]

variable (program) in
/-- What a wait of MEM leaves as it is. -/
theorem wait_cycle (hma : t.cpu.stallMA (t.input memLatency).dmValid = true) (hh : t.cpu.hcf = false) :
    (Accesses t ∧ t.dm.counter ≠ memLatency - 1) ∧ (Top.cycle program memLatency t).cpu.mem = t.cpu.mem ∧
      (Top.cycle program memLatency t).cpu.hcf = false ∧
      writeBack (Top.cycle program memLatency t).cpu.wb (Top.cycle program memLatency t).cpu.regs =
        writeBack t.cpu.wb t.cpu.regs ∧
      t.cpu.issues (t.input memLatency).dmValid = false := by
  have hmem : (Top.cycle program memLatency t).cpu.mem = t.cpu.mem := by
    refine mem_cycle ?_
    unfold Moves
    rw [hma, Bool.or_true]
    decide
  have hwb : (Top.cycle program memLatency t).cpu.wb = {} := by
    simp [Top.cycle, cycle, State.nextWb, hh, hma]
  have hhcf : (Top.cycle program memLatency t).cpu.hcf = false := by
    unfold State.hcf
    rw [hwb]
    decide
  have hregs : writeBack (cycle program t.cpu (t.input memLatency)).wb (cycle program t.cpu (t.input memLatency)).regs =
      writeBack t.cpu.wb t.cpu.regs := writeBack_next (nextWb_of_held (by rw [hma, Bool.or_true]))
  have hissues : t.cpu.issues (t.input memLatency).dmValid = false := by simp [State.issues, hma]
  rw [stallMA_eq, Bool.and_eq_true, Bool.not_eq_true', DataMem.valid, beq_eq_false_iff_ne, Bool.or_eq_true, beq_iff_eq,
    beq_iff_eq] at hma
  exact ⟨⟨hma.2, hma.1⟩, hmem, hhcf, hregs, hissues⟩

/-- MEM waits for its access. -/
theorem Simulates.waits (hL : 3 ≤ memLatency) (h : Simulates program data memLatency t tr out inMem skip)
    (hh : t.cpu.hcf = false) (hma : t.cpu.stallMA (t.input memLatency).dmValid = true) {u : Tracked}
    (hs : tr.step program (t.input memLatency) = .next u) (hf : t.cpu.flush = false) :
    Simulates program data memLatency (Top.cycle program memLatency t) u out inMem skip := by
  obtain ⟨⟨ha, hc⟩, hmem, hhcf, hregs, hi⟩ := wait_cycle program hma hh
  have hexe : (Top.cycle program memLatency t).cpu.exe = t.cpu.exe := (front_of_wait program hf hma).2.2
  have hlog := h.log_cycle (t.input memLatency).dmValid (cycle program t.cpu (t.input memLatency)).succPc
  have hfollows := h.follows.step hs
  rw [Tracked.step_eq _ _ (h.cpu ▸ hh), h.cpu, hi, hf, hma] at hs
  obtain rfl := Outcome.next.inj hs
  rw [hi] at hlog
  simp only [Bool.false_and, Bool.false_eq_true, if_false, List.append_nil, Bool.not_false, Bool.true_and, if_true]
    at hfollows hlog ⊢
  exact {
    cpu := rfl
    follows := hfollows
    path := h.path
    length := h.length
    regs := hregs.trans h.regs
    zero := rfl
    mem := hmem ▸ h.mem
    memBubble := hmem ▸ h.memBubble
    exe := hexe ▸ h.exe
    skip := fun hsk => ⟨by unfold Accesses; rw [hmem]; exact ha, (h.skip hsk).2⟩
    works := (h.works.waits hL ha hc rfl hmem).1
    hcf := fun i hi => by rw [h.hcf i hi, hh, hhcf]
    started := fun h' => by rw [hhcf] at h'; cases h'
    log := by
      show (cycle program t.cpu (t.input memLatency)).exeLog = _
      rw [exeLog_cycle, hi]
      exact hlog }

/-- MEM waits, and the jump or branch in EXE is erased: it has no register to write. -/
theorem Simulates.erases (hL : 3 ≤ memLatency) (h : Simulates program data memLatency t tr out inMem skip)
    (hh : t.cpu.hcf = false) (hma : t.cpu.stallMA (t.input memLatency).dmValid = true) {u : Tracked}
    (hs : tr.step program (t.input memLatency) = .next u) (hf : t.cpu.flush = true)
    (hl : losesLink memLatency t = false) :
    Simulates program data memLatency (Top.cycle program memLatency t) u out inMem true := by
  obtain ⟨⟨ha, hc⟩, hmem, hhcf, hregs, hi⟩ := wait_cycle program hma hh
  have he : tr.exeFetched = true := by
    by_contra he
    have hb := flush_of_bubble (h.follows.exeBubble (Bool.not_eq_true _ ▸ he)).1
    rw [h.cpu, hf] at hb
    cases hb
  have hm := h.inMem_of_accesses ha
  obtain ⟨hskip, hexe⟩ := h.exe he
  rw [hm] at hexe
  have hinst : t.cpu.exe.inst = (Serial.after program data (out + 1)).inst program := hexe.inst
  have hen := eEn_eq_true_iff.mp (eEn_of_flush hf)
  have hno : opcode t.cpu.exe.inst ≠ HCF ∧ opcode t.cpu.exe.inst ≠ STORE := by
    rcases hen with hen | hen | hen <;> rw [hen] <;> decide
  have hrd : useRd t.cpu.exe.inst = false ∨ rd t.cpu.exe.inst = 0 := by
    unfold losesLink writesReg at hl
    rw [hf, hma, Bool.true_and, Bool.true_and, Bool.and_eq_false_iff] at hl
    simpa using hl
  have hsame : (Serial.after program data (out + 2)).SameData (Serial.after program data (out + 1)) := by
    rw [Serial.after_succ program data (out + 1)]
    rw [hinst] at hrd hno
    exact Serial.sameData_next (Serial.regs_zero _ _ _) hrd hno.2
  have hlog := h.log_cycle (t.input memLatency).dmValid (cycle program t.cpu (t.input memLatency)).succPc
  have hlen := h.length
  have hfollows := h.follows.step hs
  rw [Tracked.step_eq _ _ (h.cpu ▸ hh), h.cpu, hi, hf, hma] at hs
  obtain rfl := Outcome.next.inj hs
  rw [hi] at hlog
  simp only [Bool.false_and, Bool.false_eq_true, if_false, List.append_nil, Bool.not_true] at hfollows hlog ⊢
  exact {
    cpu := rfl
    follows := hfollows
    path := h.path
    length := by
      rw [hlen, hskip, he]
      rfl
    regs := hregs.trans h.regs
    zero := rfl
    mem := hmem ▸ h.mem
    memBubble := hmem ▸ h.memBubble
    exe := fun he => by cases he
    skip := fun _ => ⟨by unfold Accesses; rw [hmem]; exact ha, hinst ▸ hno.1, hsame⟩
    works := (h.works.waits hL ha hc rfl hmem).1
    hcf := fun i hi => by rw [h.hcf i hi, hh, hhcf]
    started := fun h' => by rw [hhcf] at h'; cases h'
    log := by
      show (cycle program t.cpu (t.input memLatency)).exeLog = _
      rw [exeLog_cycle, hi]
      exact hlog }

/-- What the instruction in MEM leaves behind. -/
theorem Simulates.behind (hL : 3 ≤ memLatency) (h : Simulates program data memLatency t tr out inMem skip)
    (hm : Moves memLatency t) :
    writeBack (t.cpu.mem.toWb t.dm.dataReg) (Serial.after program data out).regs =
        (Serial.after program data (out + inMem.toNat + skip.toNat)).regs ∧
      t.cpu.mem.store (Serial.after program data out).memory =
        (Serial.after program data (out + inMem.toNat + skip.toNat)).memory := by
  have hmoved : writeBack (t.cpu.mem.toWb t.dm.dataReg) (Serial.after program data out).regs =
        (Serial.after program data (out + inMem.toNat)).regs ∧
      t.cpu.mem.store (Serial.after program data out).memory =
        (Serial.after program data (out + inMem.toNat)).memory := by
    rcases hi : inMem with _ | _
    · have hb := h.memBubble hi
      have hu : useRd t.cpu.mem.inst = false := by
        rw [hb]
        decide
      constructor
      · exact writeBack_of_not_useRd hu (Serial.regs_zero _ _ _)
      · rw [RegMEM.store, if_neg (by rw [hb]; decide)]
        rfl
    · have hmem := h.mem hi
      rw [Bool.toNat_true, Serial.after_succ]
      refine ⟨hmem.writeBack (fun hl => ?_) _, hmem.store _⟩
      rw [(h.works.moves hL hm).2.2 (by rw [hmem.inst]; exact hl), hmem.load hl]
  rcases hs : skip with _ | _
  · exact hmoved
  · obtain ⟨ha, -, hsame⟩ := h.skip hs
    have hi := h.inMem_of_accesses ha
    rw [hi] at hmoved ⊢
    exact ⟨hmoved.1.trans hsame.regs.symm, hmoved.2.trans hsame.memory.symm⟩

/-- `HCF` comes to WB as the last of the instructions that have left MEM. -/
theorem Simulates.hcf_moves (h : Simulates program data memLatency t tr out inMem skip) (hh : t.cpu.hcf = false)
    (i : Nat) (hi : i < out + inMem.toNat + skip.toNat) :
    opcode ((Serial.after program data i).inst program) = HCF ↔
      i + 1 = out + inMem.toNat + skip.toNat ∧ opcode t.cpu.mem.inst = HCF := by
  have hold : i < out → opcode ((Serial.after program data i).inst program) ≠ HCF := by
    intro hlt hop
    have := ((h.hcf i hlt).mp hop).2
    rw [hh] at this
    cases this
  rcases hm : inMem with _ | _
  · have hs : skip = false := by
      by_contra hs
      have := h.inMem_of_accesses (h.skip (Bool.not_eq_false _ ▸ hs)).1
      rw [hm] at this
      cases this
    rw [hm, hs] at hi
    refine iff_of_false (hold hi) fun hop => ?_
    rw [h.memBubble hm] at hop
    exact absurd hop.2 (by decide)
  · have hmem : t.cpu.mem.inst = (Serial.after program data out).inst program := (h.mem hm).inst
    rw [hm] at hi
    rcases hs : skip with _ | _
    · rw [hs] at hi
      rcases Nat.lt_succ_iff_lt_or_eq.mp hi with hlt | rfl
      · refine iff_of_false (hold hlt) fun he => ?_
        have := he.1
        simp at this
        omega
      · rw [hmem]
        exact (and_iff_right rfl).symm
    · obtain ⟨ha, hno, -⟩ := h.skip hs
      have hne : opcode t.cpu.mem.inst ≠ HCF := by
        rcases ha with ha | ha <;> rw [ha] <;> decide
      refine iff_of_false ?_ fun he => hne he.2
      rw [hs] at hi
      rcases Nat.lt_succ_iff_lt_or_eq.mp hi with hlt | rfl
      · rcases Nat.lt_succ_iff_lt_or_eq.mp hlt with hlt | rfl
        · exact hold hlt
        · rw [← hmem]
          exact hne
      · exact hno

/-- The instruction that EXE takes is the next of the path. -/
theorem Simulates.path_issued (h : Simulates program data memLatency t tr out inMem skip) {inp : Input}
    (hi : t.cpu.issues inp.dmValid = true) (hid : tr.idFetched = true) :
    (⟨t.cpu.id.pc, t.cpu.id.inst, (cycle program t.cpu inp).succPc⟩ : Visit) =
      Serial.visit program data tr.path.length := by
  have hdec := h.decoded hi hid
  have hpc : t.cpu.id.pc = (Serial.after program data tr.path.length).pc := hdec.pc
  have hinst : t.cpu.id.inst = (Serial.after program data tr.path.length).inst program := hdec.inst
  have hsucc : (cycle program t.cpu inp).succPc = t.cpu.decoded.wires.succPc :=
    succPc_congr (front_of_issues program hi).2.2
  have hnext : t.cpu.decoded.wires.succPc = (Serial.after program data (tr.path.length + 1)).pc := by
    rw [hdec.succPc, Serial.after_succ]
    rfl
  rw [hpc, hinst, hsucc, hnext]
  rfl

/-- MEM takes what is in EXE. -/
theorem Simulates.moves (hL : 3 ≤ memLatency) (h : Simulates program data memLatency t tr out inMem skip)
    (hm : Moves memLatency t) {u : Tracked} (hs : tr.step program (t.input memLatency) = .next u) :
    Simulates program data memLatency (Top.cycle program memLatency t) u (out + inMem.toNat + skip.toNat)
      tr.exeFetched false := by
  obtain ⟨hh, hma⟩ := Bool.or_eq_false_iff.mp hm
  obtain ⟨hregs, hmemory⟩ := h.behind hL hm
  obtain ⟨hidle, hdm, -⟩ := h.works.moves hL hm
  have hmem : (Top.cycle program memLatency t).cpu.mem = t.cpu.exe.wires.toMem := nextMem_of_moves hm
  have hwb : (Top.cycle program memLatency t).cpu.wb = t.cpu.mem.toWb t.dm.dataReg := nextWb_of_moves hm
  have hhcf : (Top.cycle program memLatency t).cpu.hcf = true ↔ opcode t.cpu.mem.inst = HCF := by
    unfold State.hcf
    rw [hwb, beq_iff_eq]
    rfl
  have hlog := h.log_cycle (t.input memLatency).dmValid (cycle program t.cpu (t.input memLatency)).succPc
  have hfollows := h.follows.step hs
  have hissues : (!t.cpu.flush && (!(t.cpu.hcf || t.cpu.stallDH) && tr.idFetched)) =
      (t.cpu.issues (t.input memLatency).dmValid && tr.idFetched) := by
    unfold State.issues
    rw [hma, Bool.not_false, Bool.and_true, Bool.and_assoc]
  rw [Tracked.step_eq _ _ (h.cpu ▸ hh), h.cpu, hma, if_neg Bool.false_ne_true, hissues] at hs
  obtain rfl := Outcome.next.inj hs
  exact {
    cpu := rfl
    follows := hfollows
    path := by
      show tr.path ++ _ = (List.range (tr.path ++ _).length).map _
      rcases hi : t.cpu.issues (t.input memLatency).dmValid && tr.idFetched with _ | _
      · rw [if_neg Bool.false_ne_true, List.append_nil]
        exact h.path
      · obtain ⟨hi, hid⟩ := Bool.and_eq_true_iff.mp hi
        rw [if_pos rfl, h.path_issued hi hid, List.length_append, List.length_singleton, List.range_succ, List.map_append,
          ← h.path]
        rfl
    length := by
      show (tr.path ++ _).length = _
      rw [List.length_append, h.length]
      rcases hi : t.cpu.issues (t.input memLatency).dmValid && tr.idFetched with _ | _ <;> rfl
    regs := by
      show writeBack (Top.cycle program memLatency t).cpu.wb t.cpu.nextRegs = _
      rw [hwb, State.nextRegs_eq, h.regs, hregs]
    zero := rfl
    mem := fun he => by
      obtain ⟨hskip, hexe⟩ := h.exe he
      rw [hmem, hskip]
      exact hexe.toMem
    memBubble := fun he => by
      have hb := (h.follows.exeBubble he).1
      rw [h.cpu] at hb
      rw [hmem]
      exact hb
    exe := fun hi => by
      obtain ⟨hi, hid⟩ := Bool.and_eq_true_iff.mp hi
      refine ⟨rfl, ?_⟩
      rw [← h.length, show (Top.cycle program memLatency t).cpu.exe = t.cpu.decoded from (front_of_issues program hi).2.2]
      exact h.decoded hi hid
    skip := fun h' => by cases h'
    works := ⟨_, 0, hidle, hdm.trans hmemory, rfl, by split <;> omega⟩
    hcf := fun i hi => by rw [hhcf]; exact h.hcf_moves hh i hi
    started := fun h' => by
      have hop := hhcf.mp h'
      have hi : inMem = true := by
        by_contra hi
        rw [h.memBubble (Bool.not_eq_true _ ▸ hi)] at hop
        revert hop
        decide
      rw [hi, Bool.toNat_true]
      omega
    log := hlog }

/-- **One cycle.** -/
theorem Simulates.cycle (hL : 3 ≤ memLatency) (h : Simulates program data memLatency t tr out inMem skip)
    (hh : t.cpu.hcf = false) (hl : losesLink memLatency t = false) :
    ∃ u out' inMem' skip', tr.step program (t.input memLatency) = .next u ∧
      Simulates program data memLatency (Top.cycle program memLatency t) u out' inMem' skip' := by
  have hs := Tracked.step_eq program (t.input memLatency) (h.cpu ▸ hh)
  rcases hma : t.cpu.stallMA (t.input memLatency).dmValid with _ | _
  · exact ⟨_, _, _, _, hs, h.moves hL (Bool.or_eq_false_iff.mpr ⟨hh, hma⟩) hs⟩
  · rcases hf : t.cpu.flush with _ | _
    · exact ⟨_, _, _, _, hs, h.waits hL hh hma hs hf⟩
    · exact ⟨_, _, _, _, hs, h.erases hL hh hma hs hf hl⟩

end

end SocModel.Chisel
