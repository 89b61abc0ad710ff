import SocModel.Asm.Resolve

/-!
# What an instruction line writes

The text of a line decides whether it is well formed and how many slots it rewrites; each new slot depends on the
text and on the old slot alone.

* `lineSlots` : the rewrites of a line, or the error of its text;
* `writeSlots` : the rewrites applied to neighbouring slots;
* `parseInstr_eq` : `parse_instr` is the bound check, then the one, then the other.
-/

namespace SocModel.Asm

open Lib

/-- The slots from `k` on rewritten one after another. -/
def writeSlots (m : Imem) (k : Nat) : List (Instr → Instr) → Except AsmError Imem
  | [] => .ok m
  | f :: fs => do
    let m ← setInstr m k (f (m.code k))
    writeSlots m (k + 1) fs

/-! ## Pseudo-instructions -/

/-- `lui rd, v`. -/
def luiSlot (line : Nat) (rd : Int) (v : Word) (i : Instr) : Instr :=
  { i with op := .LUI, a1 := Operand.ofReg i.a1 rd, a2 := Operand.ofImm i.a2 v, origLine := line }

/-- `addi rd, rs, v`. -/
def addiSlot (line : Nat) (rd rs : Int) (v : Word) (i : Instr) : Instr :=
  { i with
    op := .ADDI, a1 := Operand.ofReg i.a1 rd, a2 := Operand.ofReg i.a2 rs, a3 := Operand.ofImm i.a3 v
    origLine := line }

/-- `lui rd, label`. -/
def luiLabelSlot (line : Nat) (rd : Int) (label : CStr) (i : Instr) : Instr :=
  { i with op := .LUI, a1 := Operand.ofReg i.a1 rd, a2 := Operand.ofLabel i.a2 label, origLine := line }

/-- `addi rd, rd, label`. -/
def addiLabelSlot (line : Nat) (rd : Int) (label : CStr) (i : Instr) : Instr :=
  { i with
    op := .ADDI, a1 := Operand.ofReg i.a1 rd, a2 := Operand.ofReg i.a2 rd, a3 := Operand.ofLabel i.a3 label
    origLine := line }

/-- `jalr x0, 0(x1)`. -/
def retSlot (line : Nat) (i : Instr) : Instr :=
  { i with
    op := .JALR, a1 := Operand.ofReg i.a1 0, a2 := Operand.ofReg i.a2 1, a3 := Operand.ofImm i.a3 0
    origLine := line }

/-- `jal x0, label`. -/
def jSlot (line : Nat) (label : CStr) (i : Instr) : Instr :=
  { i with op := .JAL, a1 := Operand.ofReg i.a1 0, a2 := Operand.ofLabel i.a2 label, origLine := line }

/-- A branch on `reg` and `x0`. -/
def branchZeroSlot (op : InstrType) (line : Nat) (reg : Int) (label : CStr) (i : Instr) : Instr :=
  { i with
    op, a1 := Operand.ofReg i.a1 reg, a2 := Operand.ofReg i.a2 0, a3 := Operand.ofLabel i.a3 label
    origLine := line }

def liSlots (line : Nat) (o1 o2 : CStr) : Except AsmError (List (Instr → Instr)) := do
  let reg ← parseReg line o1
  let imml := (strtol 0 o2).1
  if reg < 0 ∨ imml > 2 ^ 32 - 1 ∨ imml < -2 ^ 31 then .error (.exit 1)
  else
    let hv := BitVec.ofInt 32 imml
    return [luiSlot line reg (hv >>> 12), addiSlot line reg reg (hv &&& 0xFFF)]

def laSlots (line : Nat) (o1 o2 : CStr) : Except AsmError (List (Instr → Instr)) := do
  let reg ← parseReg line o1
  return [luiLabelSlot line reg o2, addiLabelSlot line reg o2]

def mvSlots (line : Nat) (o1 o2 : CStr) : Except AsmError (List (Instr → Instr)) := do
  let rd ← parseReg line o1
  let rs ← parseReg line o2
  return [addiSlot line rd rs 0]

def branchZeroSlots (op : InstrType) (line : Nat) (o1 o2 : CStr) : Except AsmError (List (Instr → Instr)) := do
  let reg ← parseReg line o1
  return [branchZeroSlot op line reg o2]

/-- The rewrites of a pseudo-instruction, `[]` for another mnemonic. -/
def pseudoSlots (line : Nat) (tok : CStr) (os : Operands) : Except AsmError (List (Instr → Instr)) :=
  match String.ofList tok with
  | "li" =>
    match os.o1, os.o2, os.o3 with
    | some o1, some o2, none => liSlots line o1 o2
    | _, _, _ => invalidFormat line
  | "la" =>
    match os.o1, os.o2, os.o3 with
    | some o1, some o2, none => laSlots line o1 o2
    | _, _, _ => invalidFormat line
  | "ret" =>
    match os.o1 with
    | some _ => invalidFormat line
    | none => .ok [retSlot line]
  | "j" =>
    match os.o1, os.o2 with
    | some o1, none => .ok [jSlot line o1]
    | _, _ => invalidFormat line
  | "mv" =>
    match os.o1, os.o2, os.o3 with
    | some o1, some o2, none => mvSlots line o1 o2
    | _, _, _ => invalidFormat line
  | "bnez" =>
    match os.o1, os.o2, os.o3 with
    | some o1, some o2, none => branchZeroSlots .BNE line o1 o2
    | _, _, _ => invalidFormat line
  | "beqz" =>
    match os.o1, os.o2, os.o3 with
    | some o1, some o2, none => branchZeroSlots .BEQ line o1 o2
    | _, _, _ => invalidFormat line
  | _ => .ok []

/-- The slots written by the rewrites `fs`, if the text is well formed. -/
def rewrite (m : Imem) (k : Nat) (fs : Except AsmError (List (Instr → Instr))) : Except AsmError (Imem × Nat) := do
  let fs ← fs
  let m ← writeSlots m k fs
  return (m, fs.length)

theorem rewrite_one (m : Imem) (k : Nat) (f : Instr → Instr) :
    rewrite m k (.ok [f]) = do let m ← setInstr m k (f (m.code k)); return (m, 1) := by
  simp only [rewrite, writeSlots, bind, Except.bind]
  cases setInstr m k (f (m.code k)) <;> rfl

theorem rewrite_two (m : Imem) (k : Nat) (f g : Instr → Instr) :
    rewrite m k (.ok [f, g]) = do
      let m ← setInstr m k (f (m.code k))
      let m ← setInstr m (k + 1) (g (m.code (k + 1)))
      return (m, 2) := by
  simp only [rewrite, writeSlots, bind, Except.bind]
  cases setInstr m k (f (m.code k)) with
  | error e => rfl
  | ok m =>
    simp only
    cases setInstr m (k + 1) (g (m.code (k + 1))) <;> rfl

theorem parseLi_eq (line : Nat) (m : Imem) (k : Nat) (o1 o2 : CStr) :
    parseLi line m k o1 o2 = rewrite m k (liSlots line o1 o2) := by
  unfold parseLi liSlots
  cases parseReg line o1 with
  | error e => rfl
  | ok reg =>
    simp only [bind, Except.bind]
    by_cases hr : reg < 0 ∨ (strtol 0 o2).1 > 2 ^ 32 - 1 ∨ (strtol 0 o2).1 < -2 ^ 31
    · rw [if_pos hr, if_pos hr]
      rfl
    · rw [if_neg hr, if_neg hr]
      exact (rewrite_two m k (luiSlot line reg _) (addiSlot line reg reg _)).symm

theorem parseLa_eq (line : Nat) (m : Imem) (k : Nat) (o1 o2 : CStr) :
    parseLa line m k o1 o2 = rewrite m k (laSlots line o1 o2) := by
  unfold parseLa laSlots
  cases parseReg line o1 with
  | error e => rfl
  | ok reg => exact (rewrite_two m k (luiLabelSlot line reg o2) (addiLabelSlot line reg o2)).symm

theorem parseBranchZero_eq (op : InstrType) (line : Nat) (m : Imem) (k : Nat) (o1 o2 : CStr) :
    parseBranchZero op line m k o1 o2 = rewrite m k (branchZeroSlots op line o1 o2) := by
  unfold parseBranchZero branchZeroSlots
  cases parseReg line o1 with
  | error e => rfl
  | ok reg => exact (rewrite_one m k (branchZeroSlot op line reg o2)).symm

theorem parseMv_eq (line : Nat) (m : Imem) (k : Nat) (o1 o2 : CStr) :
    (do
      let i := m.code k
      let rd ← parseReg line o1
      let rs ← parseReg line o2
      let m ← setInstr m k
        { i with
          op := .ADDI, a1 := Operand.ofReg i.a1 rd, a2 := Operand.ofReg i.a2 rs, a3 := Operand.ofImm i.a3 0
          origLine := line }
      return (m, 1)) = rewrite m k (mvSlots line o1 o2) := by
  unfold mvSlots
  cases parseReg line o1 with
  | error e => rfl
  | ok rd =>
    cases parseReg line o2 with
    | error e => rfl
    | ok rs => exact (rewrite_one m k (addiSlot line rd rs 0)).symm

/-- A pseudo-instruction rewrites its slots. -/
theorem parsePseudoinstructions_eq (line : Nat) (tok : CStr) (m : Imem) (k : Nat) (os : Operands) :
    parsePseudoinstructions line tok m k os = rewrite m k (pseudoSlots line tok os) := by
  have htok {w : String} (hw : String.ofList tok = w) : tok = w.toList := by rw [← hw, String.toList_ofList]
  obtain ⟨o1, o2, o3, o4⟩ := os
  unfold parsePseudoinstructions
  split
  · next heq =>
    obtain rfl := htok heq
    rcases o1 with _ | o1 <;> rcases o2 with _ | o2 <;> rcases o3 with _ | o3
    all_goals first
      | exact parseLi_eq line m k o1 o2
      | rfl
  · next heq =>
    obtain rfl := htok heq
    rcases o1 with _ | o1 <;> rcases o2 with _ | o2 <;> rcases o3 with _ | o3
    all_goals first
      | exact parseLa_eq line m k o1 o2
      | rfl
  · next heq =>
    obtain rfl := htok heq
    rcases o1 with _ | o1
    · exact (rewrite_one m k (retSlot line)).symm
    · rfl
  · next heq =>
    obtain rfl := htok heq
    rcases o1 with _ | o1 <;> rcases o2 with _ | o2
    all_goals first
      | exact (rewrite_one m k (jSlot line o1)).symm
      | rfl
  · next heq =>
    obtain rfl := htok heq
    rcases o1 with _ | o1 <;> rcases o2 with _ | o2 <;> rcases o3 with _ | o3
    all_goals first
      | exact parseMv_eq line m k o1 o2
      | rfl
  · next heq =>
    obtain rfl := htok heq
    rcases o1 with _ | o1 <;> rcases o2 with _ | o2 <;> rcases o3 with _ | o3
    all_goals first
      | exact parseBranchZero_eq .BNE line m k o1 o2
      | rfl
  · next heq =>
    obtain rfl := htok heq
    rcases o1 with _ | o1 <;> rcases o2 with _ | o2 <;> rcases o3 with _ | o3
    all_goals first
      | exact parseBranchZero_eq .BEQ line m k o1 o2
      | rfl
  · next hli hla hret hj hmv hbnez hbeqz =>
    have hp : pseudoSlots line tok ⟨o1, o2, o3, o4⟩ = .ok [] := by
      unfold pseudoSlots
      split <;> first | rfl | (exfalso; tauto)
    rw [hp]
    rfl

/-! ## Other instructions -/

/-- Whether there is an error, and which, does not depend on the slot. -/
def Uniform (g : Instr → Except AsmError Instr) : Prop :=
  ∃ x : Except AsmError (Instr → Instr), ∀ i, g i = x.map fun f => f i

theorem Uniform.error (e : AsmError) : Uniform fun _ => .error e := ⟨.error e, fun _ => rfl⟩

theorem Uniform.ok (f : Instr → Instr) : Uniform fun i => .ok (f i) := ⟨.ok f, fun _ => rfl⟩

/-- An operand is read before the slot is looked at. -/
theorem Uniform.bind {α : Type} (x : Except AsmError α) {g : α → Instr → Except AsmError Instr}
    (h : ∀ a, Uniform (g a)) : Uniform fun i => x >>= fun a => g a i := by
  cases x with
  | error e => exact .error e
  | ok a => exact h a

/-- The operands that an operation takes. -/
inductive Format where
  | none | jal | mem | rri | branch | upper
  /-- Three registers, with the message of the operation. -/
  | rrr (msg : String)
  deriving DecidableEq, Repr

/-- The cases of the switch. -/
def formatOf : InstrType → Format
  | .UNIMPL | .HCF | .NOP => .none
  | .JAL => .jal
  | .JALR | .LB | .LBU | .LH | .LHU | .LW | .SB | .SH | .SW => .mem
  | .ADD | .SUB | .SLT | .SLTU | .AND | .OR | .XOR | .SLL | .SRL | .SRA | .MUL => .rrr "Invalid format"
  | .ADDI | .SLTI | .SLTIU | .ANDI | .ORI | .XORI | .SLLI | .SRLI | .SRAI => .rri
  | .BEQ | .BGE | .BGEU | .BLT | .BLTU | .BNE => .branch
  | .LUI | .AUIPC => .upper
  | _ => .rrr "Invalid SIMD format"

/-- The operands of a format. -/
def Format.operands (line : Nat) (i : Instr) (os : Operands) : Format → Except AsmError Instr
  | none => .ok i
  | jal => operandsJal line i os
  | mem => operandsMem line i os
  | rri => operandsRRI line i os
  | branch => operandsBranch line i os
  | upper => operandsUpper line i os
  | rrr msg => operandsRRR line msg i os

theorem parseOperands_format (line : Nat) (i : Instr) (os : Operands) :
    parseOperands line i os = (formatOf i.op).operands line i os := by
  obtain ⟨op, a1, a2, a3, origLine⟩ := i
  cases op <;> rfl

theorem uniform_operandsRRR (line : Nat) (msg : String) (os : Operands) :
    Uniform fun i => operandsRRR line msg i os := by
  unfold operandsRRR
  split
  · exact .bind _ fun _ => .bind _ fun _ => .bind _ fun _ => .ok _
  · exact .error _

theorem uniform_operandsMem (line : Nat) (os : Operands) : Uniform fun i => operandsMem line i os := by
  unfold operandsMem
  split
  · exact .bind _ fun _ => .bind _ fun _ => .ok _
  · exact .error _

theorem uniform_operandsRRI (line : Nat) (os : Operands) : Uniform fun i => operandsRRI line i os := by
  unfold operandsRRI
  split
  · exact .bind _ fun _ => .bind _ fun _ => .bind _ fun _ => .ok _
  · exact .error _

theorem uniform_operandsBranch (line : Nat) (os : Operands) : Uniform fun i => operandsBranch line i os := by
  unfold operandsBranch
  split
  · exact .bind _ fun _ => .bind _ fun _ => .ok _
  · exact .error _

theorem uniform_operandsUpper (line : Nat) (os : Operands) : Uniform fun i => operandsUpper line i os := by
  unfold operandsUpper
  split
  · exact .bind _ fun _ => .bind _ fun _ => .ok _
  · exact .error _

theorem uniform_operandsJal (line : Nat) (os : Operands) : Uniform fun i => operandsJal line i os := by
  unfold operandsJal
  split
  · exact .bind _ fun _ => .ok _
  · exact .ok _
  · exact .error _

theorem uniform_format (line : Nat) (os : Operands) (f : Format) : Uniform fun i => f.operands line i os := by
  cases f with
  | none => exact .ok _
  | jal => exact uniform_operandsJal line os
  | mem => exact uniform_operandsMem line os
  | rri => exact uniform_operandsRRI line os
  | branch => exact uniform_operandsBranch line os
  | upper => exact uniform_operandsUpper line os
  | rrr msg => exact uniform_operandsRRR line msg os

/-- The switch on an operation, whatever the slot holds besides. -/
theorem uniform_parseOperands (line : Nat) (op : InstrType) (os : Operands) :
    Uniform fun i => parseOperands line { i with op, origLine := line } os := by
  obtain ⟨x, hx⟩ := uniform_format line os (formatOf op)
  refine ⟨x.map fun f i => f { i with op, origLine := line }, fun i => ?_⟩
  simp only [parseOperands_format, hx]
  cases x <;> rfl

/-- The slot of an instruction that is no pseudo-instruction. -/
def plainSlot (line : Nat) (tok : CStr) (os : Operands) (i : Instr) : Instr :=
  (parseOperands line { i with op := parseOp tok, origLine := line } os).toOption.getD i

/-- The rewrites of a line, or the error of its text. -/
def lineSlots (line : Nat) (tok : CStr) (os : Operands) : Except AsmError (List (Instr → Instr)) := do
  let fs ← pseudoSlots line tok os
  if fs.length > 0 then return fs
  else
    let _ ← parseOperands line { op := parseOp tok, origLine := line } os
    return [plainSlot line tok os]

theorem parseOperands_eq (line : Nat) (tok : CStr) (os : Operands) (i : Instr) :
    parseOperands line { i with op := parseOp tok, origLine := line } os = (do
      let _ ← parseOperands line { op := parseOp tok, origLine := line } os
      return plainSlot line tok os i) := by
  obtain ⟨x, hx⟩ := uniform_parseOperands line (parseOp tok) os
  have h0 := hx {}
  have hi := hx i
  unfold plainSlot
  rw [show parseOperands line { op := parseOp tok, origLine := line } os = x.map fun f => f {} from h0]
  simp only at hi
  rw [hi]
  cases x <;> rfl

/-- **An instruction line** rewrites the slots its text asks for. -/
theorem parseInstr_eq (cfg : Config) (line : Nat) (tok rest : CStr) (m : Imem) (loc : Nat) :
    parseInstr cfg line tok rest m loc =
      if loc + 4 > cfg.dataOffset then .error (.exit 1)
      else rewrite m (loc / 4) (lineSlots line tok (Operands.read rest)) := by
  unfold parseInstr lineSlots
  split
  · rfl
  simp only [parsePseudoinstructions_eq, parseOperands_eq]
  cases pseudoSlots line tok (Operands.read rest) with
  | error e => rfl
  | ok fs =>
    cases fs with
    | cons f fs =>
      have hpos : (f :: fs).length > 0 := Nat.succ_pos _
      simp only [rewrite, bind, Except.bind, pure, Except.pure, if_pos hpos]
      cases writeSlots m (loc / 4) (f :: fs) with
      | error e => rfl
      | ok m' => exact if_pos hpos
    | nil =>
      have hz : ¬ ([] : List (Instr → Instr)).length > 0 := Nat.lt_irrefl 0
      simp only [rewrite, writeSlots, bind, Except.bind, if_neg hz, pure, Except.pure]
      cases parseOperands line { op := parseOp tok, origLine := line } (Operands.read rest) with
      | error e => rfl
      | ok i0 => exact (rewrite_one m (loc / 4) (plainSlot line tok (Operands.read rest))).symm

/-! ## Room for the slots -/

section WriteSlots

variable {m m' : Imem} {k : Nat} {fs : List (Instr → Instr)}

theorem exists_writeSlots (h : k + fs.length ≤ m.size) : ∃ m', writeSlots m k fs = .ok m' := by
  induction fs generalizing m k with
  | nil => exact ⟨m, rfl⟩
  | cons f fs ih =>
    rw [List.length_cons] at h
    rw [writeSlots, setInstr, if_pos (by omega)]
    exact ih (by simp only; omega)

/-- Slots that do not fit are an index past the end of the instruction memory. -/
theorem writeSlots_eq_error {e : AsmError} (h : writeSlots m k fs = .error e) :
    e = .undefined .arrayIndex ∧ m.size < k + fs.length := by
  refine ⟨?_, ?_⟩
  · induction fs generalizing m k with
    | nil => cases h
    | cons f fs ih =>
      rw [writeSlots, setInstr] at h
      split at h
      · exact ih h
      · exact (Except.error.inj h).symm
  · by_contra hle
    obtain ⟨m', hm⟩ := @exists_writeSlots m k fs (by omega)
    rw [hm] at h
    cases h

theorem writeSlots_bound (h : writeSlots m k fs = .ok m') : fs = [] ∨ k + fs.length ≤ m.size := by
  induction fs generalizing m k with
  | nil => exact .inl rfl
  | cons f fs ih =>
    rw [writeSlots] at h
    obtain ⟨u, hu, h⟩ := Except.bind_eq_ok.mp h
    obtain ⟨hk, rfl⟩ := setInstr_eq_ok hu
    right
    rcases ih h with rfl | hle
    · exact hk
    · simp only at hle
      rw [List.length_cons]
      omega

theorem writeSlots_frame (h : writeSlots m k fs = .ok m') {j : Nat} (hj : j < k ∨ k + fs.length ≤ j) :
    m'.code j = m.code j := by
  induction fs generalizing m k with
  | nil => rw [← Except.ok.inj h]
  | cons f fs ih =>
    rw [writeSlots] at h
    obtain ⟨u, hu, h⟩ := Except.bind_eq_ok.mp h
    obtain ⟨-, rfl⟩ := setInstr_eq_ok hu
    rw [List.length_cons] at hj
    rw [ih h (by omega)]
    exact Function.update_of_ne (by omega) _ _

/-- Each slot is rewritten from what it held before. -/
theorem writeSlots_code (h : writeSlots m k fs = .ok m') {j : Nat} (hj : j < fs.length) :
    m'.code (k + j) = fs[j] (m.code (k + j)) := by
  induction fs generalizing m k j with
  | nil => exact absurd hj (Nat.not_lt_zero j)
  | cons f fs ih =>
    rw [writeSlots] at h
    obtain ⟨u, hu, h⟩ := Except.bind_eq_ok.mp h
    obtain ⟨-, rfl⟩ := setInstr_eq_ok hu
    cases j with
    | zero =>
      rw [writeSlots_frame h (by omega)]
      exact Function.update_self _ _ _
    | succ j =>
      have hih := ih h (Nat.lt_of_succ_lt_succ hj)
      simp only [Function.update_of_ne (show k + 1 + j ≠ k by omega)] at hih
      rw [show k + (j + 1) = k + 1 + j by omega]
      exact hih

end WriteSlots

theorem rewrite_eq_ok {m m' : Imem} {k c : Nat} {x : Except AsmError (List (Instr → Instr))}
    (h : rewrite m k x = .ok (m', c)) : ∃ fs, x = .ok fs ∧ writeSlots m k fs = .ok m' ∧ c = fs.length := by
  obtain ⟨fs, hfs, h⟩ := Except.bind_eq_ok.mp h
  obtain ⟨u, hu, h⟩ := Except.bind_eq_ok.mp h
  obtain ⟨rfl, rfl⟩ := Prod.mk.inj (Except.ok.inj h)
  exact ⟨fs, hfs, hu, rfl⟩

/-- A line takes the slots of its mnemonic. -/
theorem length_lineSlots {line : Nat} {tok rest : CStr} {fs : List (Instr → Instr)}
    (h : lineSlots line tok (Operands.read rest) = .ok fs) : fs.length = slots tok := by
  -- the slots of the line, written into a memory they just fit in
  obtain ⟨m, hm⟩ := @exists_writeSlots ⟨fs.length, fun _ => {}⟩ 0 fs (Nat.zero_add _).le
  have hp : parseInstr {} line tok rest ⟨fs.length, fun _ => {}⟩ 0 = .ok (m, fs.length) := by
    rw [parseInstr_eq, if_neg (by decide), h, rewrite]
    simp only [bind, Except.bind, Nat.zero_div, hm]
    rfl
  exact (parseInstr_writes hp).1

end SocModel.Asm
