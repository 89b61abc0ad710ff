import SocModel.Chisel.Refinement

/-!
# The chip refines the serial machine, and at what pace

* `slack` : a bound on the cycles until EXE takes the next fetched instruction, `slack_cycle` : a cycle lowers it, or EXE
  takes one;
* `simulates_after` : the state after a number of cycles, and the number of instructions it has come to;
* `chip_refines` : every cycle of a run, `chip_halts` : a program that comes to `HCF`.
-/

namespace SocModel.Chisel

open Lib Opcode Handshake

/-! ## How long an instruction can wait -/

def isAccess (i : Word) : Bool := opcode i == LOAD || opcode i == STORE

/-- What an instruction in EXE can still cost: its access, or the two fetches behind a redirected one. -/
def exeSlack (memLatency : Nat) (i : Word) : Nat := if isAccess i then memLatency - 1 else if eEn i then 5 else 0

/-- What the instruction in ID waits for: a fetch, or the stage of an instruction that has its register to write. -/
def idSlack (s : State) (idFetched : Bool) : Nat :=
  if idFetched = false then 4
  else if overlap s.id.inst s.exe.inst then 3
  else if overlap s.id.inst s.mem.inst then 2
  else if overlap s.id.inst s.wb.inst then 1
  else 0

def memSlack (memLatency : Nat) (t : Top) : Nat := if isAccess t.cpu.mem.inst then memLatency - 1 - t.dm.counter else 0

def slack (memLatency : Nat) (t : Top) (idFetched : Bool) : Nat :=
  memSlack memLatency t + exeSlack memLatency t.cpu.exe.inst + idSlack t.cpu idFetched

/-- The cycles that an instruction takes, at most. -/
def pace (memLatency : Nat) : Nat := max (memLatency - 1) 5 + 4

section

variable {program data : Bytes} {memLatency : Nat} {t : Top} {tr u : Tracked} {out : Nat} {inMem skip : Bool}

theorem isAccess_iff (t : Top) : isAccess t.cpu.mem.inst = true ↔ Accesses t := by
  simp [isAccess, Accesses]

theorem isAccess_of_eEn {i : Word} (h : eEn i = true) : isAccess i = false := by
  rcases eEn_eq_true_iff.mp h with h | h | h <;> simp [isAccess, h] <;> decide

theorem overlap_bubble (i : Word) : overlap i 0#32 = false := by
  simp [overlap, show useRd 0#32 = false by decide]

theorem overlap_of_bubble (i : Word) : overlap 0#32 i = false := by
  simp [overlap, show useRs1 0#32 = false by decide, show useRs2 0#32 = false by decide]

theorem exeSlack_bubble (memLatency : Nat) : exeSlack memLatency 0#32 = 0 := by
  unfold exeSlack
  rw [if_neg (by decide), if_neg (by decide)]

theorem exeSlack_le (memLatency : Nat) (i : Word) : exeSlack memLatency i ≤ max (memLatency - 1) 5 := by
  unfold exeSlack
  split
  · exact Nat.le_max_left _ _
  · split
    · exact Nat.le_max_right _ _
    · exact Nat.zero_le _

theorem idSlack_le (s : State) : idSlack s true ≤ 3 := by
  unfold idSlack
  split_ifs <;> first | contradiction | omega

/-- A cycle in which MEM waits. -/
theorem memSlack_waits (hL : 3 ≤ memLatency) (h : Simulates program data memLatency t tr out inMem skip)
    (hh : t.cpu.hcf = false) (hma : t.cpu.stallMA (t.input memLatency).dmValid = true) :
    memSlack memLatency (Top.cycle program memLatency t) + 1 = memSlack memLatency t := by
  obtain ⟨⟨ha, hc⟩, hmem, -⟩ := wait_cycle program hma hh
  obtain ⟨-, -, -, hlt, -⟩ := h.works.held hL ha
  have hcount := (h.works.waits hL ha hc (u := Top.cycle program memLatency t) rfl hmem).2
  unfold memSlack
  rw [hmem, (isAccess_iff t).mpr ha, if_pos rfl, if_pos rfl, hcount]
  omega

/-- MEM takes on what EXE had: an access has all its cycles in front of it. -/
theorem memSlack_moves (hL : 3 ≤ memLatency) (h : Simulates program data memLatency t tr out inMem skip)
    (hm : Moves memLatency t) :
    memSlack memLatency (Top.cycle program memLatency t) = if isAccess t.cpu.exe.inst then memLatency - 1 else 0 := by
  have hidle : Idle (Top.cycle program memLatency t).dm := (h.works.moves hL hm).1
  have hmem : (Top.cycle program memLatency t).cpu.mem = t.cpu.toMem := nextMem_of_moves hm
  unfold memSlack
  rw [hmem, hidle.2]
  rfl

theorem memSlack_moves_le (hL : 3 ≤ memLatency) (h : Simulates program data memLatency t tr out inMem skip)
    (hm : Moves memLatency t) :
    memSlack memLatency (Top.cycle program memLatency t) ≤ exeSlack memLatency t.cpu.exe.inst := by
  rw [memSlack_moves hL h hm]
  unfold exeSlack
  split
  · exact Nat.le_refl _
  · exact Nat.zero_le _

variable (program) in
/-- The instruction in ID waits for a register, and the one it waits for moves on. -/
theorem idSlack_hold (hm : Moves memLatency t) (hf : t.cpu.flush = false) (hdh : t.cpu.stallDH = true) :
    idSlack (Top.cycle program memLatency t).cpu true + 1 ≤ idSlack t.cpu true := by
  obtain ⟨-, hid, hexe⟩ := front_of_hazard program hf (Bool.or_eq_false_iff.mp hm).2 hdh
  have hid : (Top.cycle program memLatency t).cpu.id = t.cpu.id := hid
  have hexe : (Top.cycle program memLatency t).cpu.exe.inst = 0#32 := congrArg RegEXE.inst hexe
  have hmem : (Top.cycle program memLatency t).cpu.mem.inst = t.cpu.exe.inst := congrArg RegMEM.inst (nextMem_of_moves hm)
  have hwb : (Top.cycle program memLatency t).cpu.wb.inst = t.cpu.mem.inst := congrArg RegWB.inst (nextWb_of_moves hm)
  unfold idSlack
  rw [hid, hexe, hmem, hwb, overlap_bubble]
  simp only [Bool.true_eq_false, Bool.false_eq_true, if_false]
  unfold State.stallDH at hdh
  by_cases he : overlap t.cpu.id.inst t.cpu.exe.inst = true
  · rw [if_pos he, if_pos he]
  · by_cases hx : overlap t.cpu.id.inst t.cpu.mem.inst = true
    · rw [if_neg he, if_neg he, if_pos hx, if_pos hx]
    · rw [Bool.eq_false_iff.mpr he, Bool.eq_false_iff.mpr hx, Bool.false_or, Bool.false_or] at hdh
      rw [if_neg he, if_neg he, if_neg hx, if_neg hx, if_pos hdh]

/-- EXE sends the fetch elsewhere. -/
theorem slack_flushed (hL : 3 ≤ memLatency) (h : Simulates program data memLatency t tr out inMem skip)
    (hh : t.cpu.hcf = false) (hf : t.cpu.flush = true) (idFetched : Bool) :
    slack memLatency (Top.cycle program memLatency t) false + 1 ≤ slack memLatency t idFetched := by
  have hen := eEn_of_flush hf
  have hnext : (Top.cycle program memLatency t).cpu.exe.inst = 0#32 :=
    congrArg RegEXE.inst (front_of_flush program (t.input memLatency) hf).2.2
  have hexe : exeSlack memLatency t.cpu.exe.inst = 5 := by
    unfold exeSlack
    rw [isAccess_of_eEn hen, if_neg Bool.false_ne_true, if_pos hen]
  have hmem : memSlack memLatency (Top.cycle program memLatency t) ≤ memSlack memLatency t := by
    rcases hma : t.cpu.stallMA (t.input memLatency).dmValid with _ | _
    · rw [memSlack_moves hL h (Bool.or_eq_false_iff.mpr ⟨hh, hma⟩), isAccess_of_eEn hen, if_neg Bool.false_ne_true]
      exact Nat.zero_le _
    · have := memSlack_waits hL h hh hma
      omega
  have hid : idSlack (Top.cycle program memLatency t).cpu false = 4 := if_pos rfl
  unfold slack
  rw [hnext, exeSlack_bubble, hexe, hid]
  omega

/-- Nothing moves in front of MEM. -/
theorem slack_waited (hL : 3 ≤ memLatency) (h : Simulates program data memLatency t tr out inMem skip)
    (hh : t.cpu.hcf = false) (hf : t.cpu.flush = false)
    (hma : t.cpu.stallMA (t.input memLatency).dmValid = true) (idFetched : Bool) :
    slack memLatency (Top.cycle program memLatency t) idFetched + 1 ≤ slack memLatency t idFetched := by
  obtain ⟨-, hid, hexe⟩ := front_of_wait program hf hma
  have hid : (Top.cycle program memLatency t).cpu.id = t.cpu.id := hid
  have hexe : (Top.cycle program memLatency t).cpu.exe = t.cpu.exe := hexe
  have hmem := (wait_cycle program hma hh).2.1
  have hwb : (Top.cycle program memLatency t).cpu.wb.inst = 0#32 := by simp [Top.cycle, cycle, State.nextWb, hh, hma]
  have hslack : idSlack (Top.cycle program memLatency t).cpu idFetched ≤ idSlack t.cpu idFetched := by
    unfold idSlack
    rw [hid, hexe, hmem, hwb, overlap_bubble]
    split_ifs <;> first | contradiction | omega
  have := memSlack_waits hL h hh hma
  unfold slack
  rw [hexe]
  omega

/-- EXE takes a bubble. -/
theorem slack_held (hL : 3 ≤ memLatency) (h : Simulates program data memLatency t tr out inMem skip)
    (hm : Moves memLatency t) (hf : t.cpu.flush = false) (hdh : t.cpu.stallDH = true) :
    slack memLatency (Top.cycle program memLatency t) true + 1 ≤ slack memLatency t true := by
  have hnext : (Top.cycle program memLatency t).cpu.exe.inst = 0#32 :=
    congrArg RegEXE.inst (front_of_hazard program hf (Bool.or_eq_false_iff.mp hm).2 hdh).2.2
  have hmem := memSlack_moves_le hL h hm
  have hid := idSlack_hold program hm hf hdh
  unfold slack
  rw [hnext, exeSlack_bubble]
  omega

/-- EXE takes what is in ID. -/
theorem slack_taken (hL : 3 ≤ memLatency) (h : Simulates program data memLatency t tr out inMem skip)
    (hm : Moves memLatency t) (hi : t.cpu.issues (t.input memLatency).dmValid = true) :
    slack memLatency (Top.cycle program memLatency t) true ≤
      exeSlack memLatency t.cpu.exe.inst + exeSlack memLatency t.cpu.id.inst + 3 := by
  have hnext : (Top.cycle program memLatency t).cpu.exe.inst = t.cpu.id.inst :=
    congrArg RegEXE.inst (front_of_issues program hi).2.2
  have hmem := memSlack_moves_le hL h hm
  have hid := idSlack_le (Top.cycle program memLatency t).cpu
  unfold slack
  rw [hnext]
  omega

/-- **One cycle.** The slack falls, or EXE takes a fetched instruction and the slack rises by less than the pace. -/
theorem slack_cycle (hL : 3 ≤ memLatency) (h : Simulates program data memLatency t tr out inMem skip)
    (hh : t.cpu.hcf = false) (hs : tr.step program (t.input memLatency) = .next u) :
    slack memLatency (Top.cycle program memLatency t) u.idFetched + 1 + pace memLatency * tr.path.length ≤
      slack memLatency t tr.idFetched + pace memLatency * u.path.length := by
  have hbubble : tr.idFetched = false → t.cpu.id.inst = 0#32 := h.cpu ▸ h.follows.idBubble
  rw [Tracked.step_eq _ _ (h.cpu ▸ hh), h.cpu] at hs
  obtain rfl := Outcome.next.inj hs
  simp only [List.length_append]
  rcases hi : t.cpu.issues (t.input memLatency).dmValid with _ | _
  · -- the path is as it was
    simp only [Bool.false_and, Bool.false_eq_true, if_false, List.length_nil, Nat.add_zero, Nat.add_le_add_iff_right]
    rcases hf : t.cpu.flush with _ | _
    · rcases hma : t.cpu.stallMA (t.input memLatency).dmValid with _ | _
      · have hdh : t.cpu.stallDH = true := by simpa [State.issues, hf, hma, hh] using hi
        have hr : tr.idFetched = true := by
          by_contra hr
          unfold State.stallDH at hdh
          rw [hbubble (Bool.not_eq_true _ ▸ hr), overlap_of_bubble, overlap_of_bubble, overlap_of_bubble] at hdh
          cases hdh
        rw [hr, Bool.or_true]
        exact slack_held hL h (Bool.or_eq_false_iff.mpr ⟨hh, hma⟩) hf hdh
      · have hstall : t.cpu.stallFront (t.input memLatency).dmValid = true := by simp [State.stallFront, hma, hf]
        rw [hstall, Bool.not_true, Bool.false_or, Bool.not_false, Bool.true_and]
        exact slack_waited hL h hh hf hma _
    · exact slack_flushed hL h hh hf _
  · obtain ⟨⟨hf, hma⟩, -, hdh⟩ := issues_iff.mp hi
    have hfetched : (!t.cpu.stallFront (t.input memLatency).dmValid || tr.idFetched) = true := by
      simp [State.stallFront, hh, hma, hdh]
    have htaken := slack_taken hL h (Bool.or_eq_false_iff.mpr ⟨hh, hma⟩) hi
    have hslack : exeSlack memLatency t.cpu.exe.inst + idSlack t.cpu tr.idFetched ≤ slack memLatency t tr.idFetched := by
      unfold slack
      omega
    rw [hfetched, hf, Bool.not_false, Bool.true_and, Bool.true_and]
    rcases hr : tr.idFetched with _ | _
    · have hid : idSlack t.cpu false = 4 := if_pos rfl
      rw [hbubble hr, exeSlack_bubble] at htaken
      rw [hr, hid] at hslack
      simp only [Bool.false_eq_true, if_false, List.length_nil, Nat.add_zero]
      omega
    · have hle := exeSlack_le memLatency t.cpu.id.inst
      rw [hr] at hslack
      simp only [if_true, List.length_singleton, Nat.mul_add, Nat.mul_one]
      unfold pace
      omega

end

/-! ## Runs -/

/-- The chip has done `k` instructions of the serial machine. The registers are theirs once WB has written; so is the data
memory, unless the store in MEM is done; and EXE has taken the instructions of the serial machine in order. -/
structure Retired (program data : Bytes) (t : Top) (k : Nat) : Prop where
  regs : writeBack t.cpu.wb t.cpu.regs = (Serial.after program data k).regs
  memory : t.dm.memory = (Serial.after program data k).memory ∨
    opcode t.cpu.mem.inst = STORE ∧ t.dm.memory = (Serial.after program data (k + 1)).memory
  taken : ∃ j ≤ k + 3, t.cpu.exeLog = (List.range j).flatMap fun i => (Serial.visit program data i).entries

/-- Of two instructions that follow each other, the second is a jump away from the straight line that has a link register
to write, and the first a load or store. -/
def Serial.linkBehindAccess (program data : Bytes) (k : Nat) : Prop :=
  isAccess ((after program data k).inst program) = true ∧
    writesReg ((after program data (k + 1)).inst program) = true ∧ eEn ((after program data (k + 1)).inst program) = true ∧
    (after program data (k + 2)).pc ≠ (after program data (k + 1)).pc + 4

section

variable {program data : Bytes} {memLatency n : Nat} {t : Top} {tr : Tracked} {out : Nat} {inMem skip : Bool}

/-- The state after `n` cycles, and how far it has come. -/
theorem simulates_after (hL : 3 ≤ memLatency) (hlive : Live program data memLatency n)
    (hl : ∀ m < n, losesLink memLatency (Top.after program data memLatency m) = false) :
    ∃ tr out inMem skip, Simulates program data memLatency (Top.after program data memLatency n) tr out inMem skip ∧
      n + slack memLatency (Top.after program data memLatency n) tr.idFetched ≤
        pace memLatency * tr.path.length + 4 := by
  induction n with
  | zero =>
    refine ⟨_, _, _, _, simulates_start program data memLatency, ?_⟩
    show 0 + (0 + exeSlack memLatency 0#32 + 4) ≤ _
    rw [exeSlack_bubble]
    omega
  | succ n ih =>
    obtain ⟨tr, out, inMem, skip, h, hslack⟩ :=
      ih (fun m hm => hlive m (hm.trans n.lt_succ_self)) fun m hm => hl m (hm.trans n.lt_succ_self)
    have hh := hlive n n.lt_succ_self
    obtain ⟨u, out', inMem', skip', hs, h'⟩ := h.cycle hL hh (hl n n.lt_succ_self)
    refine ⟨u, out', inMem', skip', h', ?_⟩
    have := slack_cycle hL h hh hs
    rw [after_succ]
    omega

theorem Simulates.retired (hL : 3 ≤ memLatency) (h : Simulates program data memLatency t tr out inMem skip) :
    Retired program data t out where
  regs := h.regs
  memory := by
    by_cases hs : opcode t.cpu.mem.inst = STORE
    · have hm := h.mem (h.inMem_of_accesses (.inr hs))
      rcases h.works.memory hL with hw | hw
      · exact .inl hw
      · refine .inr ⟨hs, ?_⟩
        rw [hw, hm.store, Serial.after_succ]
        rfl
    · refine .inl ?_
      rcases h.works.memory hL with hw | hw
      · exact hw
      · rw [hw, RegMEM.store, if_neg hs]
  taken := by
    refine ⟨tr.path.length, ?_, ?_⟩
    · have := inMem.toNat_le
      have := skip.toNat_le
      have := tr.exeFetched.toNat_le
      have := h.length
      omega
    · rw [h.log, h.path, List.flatMap_map, List.length_map, List.length_range]

/-- **The chip refines the serial machine.** From latency 3 on, until `HCF` is in WB and while no jump is erased that has a
link register to write, every cycle finds the chip at some number of instructions of the serial machine, and this number
is no smaller than the pace has it. -/
theorem chip_refines (program data : Bytes) (memLatency : Nat) (hL : 3 ≤ memLatency) (n : Nat)
    (hlive : Live program data memLatency n)
    (hl : ∀ m < n, losesLink memLatency (Top.after program data memLatency m) = false) :
    ∃ k, Retired program data (Top.after program data memLatency n) k ∧ n ≤ pace memLatency * (k + 3) + 4 := by
  obtain ⟨tr, out, inMem, skip, h, hslack⟩ := simulates_after hL hlive hl
  refine ⟨out, h.retired hL, ?_⟩
  have hlen : tr.path.length ≤ out + 3 := by
    have := inMem.toNat_le
    have := skip.toNat_le
    have := tr.exeFetched.toNat_le
    have := h.length
    omega
  have := Nat.mul_le_mul_left (pace memLatency) hlen
  omega

/-- `addi x1, x0, 5`, `sw x1, 0(x0)`, `lw x2, 0(x0)`, `add x3, x2, x1` and `hcf`. -/
def storeAndLoad : Bytes := fun a =>
  ([0x93, 0x00, 0x50, 0x00, 0x23, 0x20, 0x10, 0x00, 0x03, 0x21, 0x00, 0x00, 0xb3, 0x01, 0x11, 0x00, 0x0b, 0x00, 0x00,
    0x00] : List (BitVec 8)).getD a.toNat 0

theorem chip_refines_storeAndLoad :
    ∃ k, Retired storeAndLoad (fun _ => 0) (Top.after storeAndLoad (fun _ => 0) 3 6) k ∧ 6 ≤ pace 3 * (k + 3) + 4 :=
  chip_refines storeAndLoad (fun _ => 0) 3 (Nat.le_refl 3) 6 (by unfold Live; decide +kernel) (by decide +kernel)

/-! ### Programs that come to `HCF` -/

/-- The jump that is erased is behind the access in MEM. -/
theorem Simulates.linkBehindAccess (h : Simulates program data memLatency t tr out inMem skip)
    (hl : losesLink memLatency t = true) : Serial.linkBehindAccess program data out := by
  unfold losesLink at hl
  rw [Bool.and_eq_true, Bool.and_eq_true] at hl
  obtain ⟨⟨hf, hma⟩, hw⟩ := hl
  have hen := eEn_of_flush hf
  have ha : Accesses t := by
    rw [stallMA_eq, Bool.and_eq_true, Bool.or_eq_true, beq_iff_eq, beq_iff_eq] at hma
    exact hma.2
  have hi := h.inMem_of_accesses ha
  have he : tr.exeFetched = true := by
    by_contra he
    have hb := flush_of_bubble (h.follows.exeBubble (Bool.not_eq_true _ ▸ he)).1
    rw [h.cpu, hf] at hb
    cases hb
  obtain ⟨-, hexe⟩ := h.exe he
  rw [hi, Bool.toNat_true] at hexe
  have hmem : t.cpu.mem.inst = (Serial.after program data out).inst program := (h.mem hi).inst
  have hinst : t.cpu.exe.inst = (Serial.after program data (out + 1)).inst program := hexe.inst
  have hpc : t.cpu.exe.pc = (Serial.after program data (out + 1)).pc := hexe.pc
  have htarget : t.cpu.exeTargetPc = (Serial.after program data (out + 2)).pc := by
    have hsucc := succPc_eq t.cpu
    rw [if_pos (flush_eq_true_iff.mp hf).1] at hsucc
    rw [← hsucc, show t.cpu.succPc = t.cpu.exe.wires.succPc from rfl, hexe.succPc, Serial.after_succ program data (out + 1)]
    rfl
  have hid := (h.follows.exe he).2.1
  rw [h.cpu] at hid
  refine ⟨?_, hinst ▸ hw, hinst ▸ hen, ?_⟩
  · rw [← hmem]
    exact (isAccess_iff t).mpr ha
  · rw [← htarget, ← hpc, ← hid]
    exact (flush_eq_true_iff.mp hf).2.symm

section

variable {h : Nat} (hcf : opcode ((Serial.after program data h).inst program) = HCF)

include hcf

/-- No more than the instructions in front of `HCF`, and `HCF` itself, leave MEM. -/
theorem Simulates.out_le (hsim : Simulates program data memLatency t tr out inMem skip) :
    out ≤ h ∨ out = h + 1 ∧ t.cpu.hcf = true := by
  rcases Nat.lt_or_ge h out with hlt | hge
  · obtain ⟨ho, hh⟩ := (hsim.hcf h hlt).mp hcf
    exact .inr ⟨ho.symm, hh⟩
  · exact .inl hge

variable (hlink : ∀ k, k + 1 < h → ¬ Serial.linkBehindAccess program data k)

include hlink

/-- Nothing is lost on the way to `HCF`. -/
theorem not_losesLink_of_live (hL : 3 ≤ memLatency) (hlive : Live program data memLatency n) :
    ∀ m < n, losesLink memLatency (Top.after program data memLatency m) = false := by
  intro m
  induction m using Nat.strong_induction_on with
  | h m ih =>
    intro hm
    have hbefore : ∀ i < m, i < n := fun i hi => hi.trans hm
    obtain ⟨tr, out, inMem, skip, hsim, -⟩ :=
      simulates_after hL (fun i hi => hlive i (hbefore i hi)) fun i hi => ih i hi (hbefore i hi)
    by_contra hl
    have hbehind := hsim.linkBehindAccess (Bool.not_eq_false _ ▸ hl)
    refine hlink out ?_ hbehind
    have hout : out ≤ h := by
      rcases hsim.out_le hcf with hle | ⟨-, hh⟩
      · exact hle
      · rw [hlive m hm] at hh
        cases hh
    -- neither the access nor the jump is `HCF`
    have hne : out ≠ h := by
      rintro rfl
      have ha := hbehind.1
      unfold isAccess at ha
      rw [hcf] at ha
      revert ha
      decide
    have hne' : out + 1 ≠ h := by
      rintro rfl
      have he := hbehind.2.2.1
      unfold eEn at he
      rw [hcf] at he
      revert he
      decide
    omega

/-- `HCF` comes to WB. -/
theorem exists_arrives_of_serial (hL : 3 ≤ memLatency) :
    ∃ n ≤ pace memLatency * (h + 4) + 4, Arrives program data memLatency n := by
  have hhalt : ∃ n, n < pace memLatency * (h + 4) + 5 ∧ (Top.after program data memLatency n).cpu.hcf = true := by
    by_contra hno
    have hlive : Live program data memLatency (pace memLatency * (h + 4) + 5) := by
      intro m hm
      by_contra hh
      exact hno ⟨m, hm, Bool.not_eq_false _ ▸ hh⟩
    obtain ⟨tr, out, inMem, skip, hsim, hslack⟩ := simulates_after hL hlive (not_losesLink_of_live hcf hlink hL hlive)
    have hout : out ≤ h + 1 := by
      rcases hsim.out_le hcf with hle | ⟨he, -⟩ <;> omega
    have hlen : tr.path.length ≤ h + 4 := by
      have := inMem.toNat_le
      have := skip.toNat_le
      have := tr.exeFetched.toNat_le
      have := hsim.length
      omega
    have := Nat.mul_le_mul_left (pace memLatency) hlen
    omega
  obtain ⟨hlt, hh⟩ := Nat.find_spec hhalt
  refine ⟨Nat.find hhalt, by omega, hh, fun m hm => ?_⟩
  by_contra hm'
  exact Nat.find_min hhalt hm ⟨hm.trans hlt, Bool.not_eq_false _ ▸ hm'⟩

end

/-- `HCF` changes neither the registers nor the data memory. -/
theorem Serial.sameData_hcf {h : Nat} (hcf : opcode ((Serial.after program data h).inst program) = HCF) :
    (Serial.after program data (h + 1)).SameData (Serial.after program data h) := by
  rw [after_succ]
  refine sameData_next (regs_zero _ _ _) (.inl ?_) ?_
  · rw [useRd, hcf]
    rfl
  · rw [hcf]
    decide

/-- **The chip runs a program to its end.** Let the serial machine come to `HCF` after `h` instructions, with no jump that
writes a link register and leaves the straight line directly behind a load or store. From latency 3 on the chip has `HCF`
in WB within the cycles that its pace allows; the registers and the data memory are then those of the serial machine, and
the registers stay so. -/
theorem chip_halts (hL : 3 ≤ memLatency) {h : Nat}
    (hfirst : ∀ i < h, opcode ((Serial.after program data i).inst program) ≠ HCF)
    (hcf : opcode ((Serial.after program data h).inst program) = HCF)
    (hlink : ∀ k, k + 1 < h → ¬ Serial.linkBehindAccess program data k) :
    ∃ n ≤ pace memLatency * (h + 4) + 4, Arrives program data memLatency n ∧
      (Top.after program data memLatency n).dm.memory = (Serial.after program data h).memory ∧
      ∀ k, (Top.after program data memLatency (n + k)).cpu.regs = (Serial.after program data h).regs := by
  obtain ⟨n, hn, harr⟩ := exists_arrives_of_serial hcf hlink hL
  refine ⟨n, hn, harr, ?_⟩
  obtain ⟨hh, hlive⟩ := harr
  obtain ⟨tr, out, inMem, skip, hsim, -⟩ := simulates_after hL hlive (not_losesLink_of_live hcf hlink hL hlive)
  obtain ⟨i, rfl⟩ : ∃ i, out = i + 1 := Nat.exists_eq_succ_of_ne_zero (hsim.started hh)
  have hi : opcode ((Serial.after program data i).inst program) = HCF :=
    (hsim.hcf i i.lt_succ_self).mpr ⟨rfl, hh⟩
  obtain rfl : i = h := by
    rcases hsim.out_le hcf with hle | ⟨he, -⟩
    · exact absurd hi (hfirst i (by omega))
    · omega
  have hsame := Serial.sameData_hcf hcf
  constructor
  · rw [hsim.works.memory_of_idle hL (state_of_arrives ⟨hh, hlive⟩)]
    exact hsame.memory
  · intro k
    rw [(held_after hh k).regs, ← writeBack_of_not_useRd (useRd_of_hcf hh) hsim.zero, hsim.regs]
    exact hsame.regs

end

end SocModel.Chisel
