import SocModel.Asm.Layout

/-!
# Label references

The first pass leaves the name of a label in the operand of an instruction, the second one puts the location there
that the first label of that name was given.

* `labelOperand` : the label a branch or a jump names, `parseInstr_refers` : where the first pass leaves it;
* `Resolved` : what the second pass makes of a slot, `normalizeLabels_resolved` : of every slot;
* `execBase_la` : the two instructions of `la`, executed.
-/

namespace SocModel.Asm

open Lib

/-! ## The second pass -/

/-- What the second pass makes of the instruction `i` in slot `k`. -/
def Resolved (labels : List LabelLoc) (k : Nat) (i i' : Instr) : Prop :=
  if i.op = .UNIMPL then i' = i else normalizeInstr labels k i = .ok i'

theorem normalizeFrom_resolved {labels : List LabelLoc} {n k : Nat} {m m' : Imem}
    (h : normalizeFrom labels k n m = .ok m') :
    m'.size = m.size ∧ ∀ j, if k ≤ j ∧ j < k + n then Resolved labels j (m.code j) (m'.code j) else
      m'.code j = m.code j := by
  induction n generalizing k m with
  | zero =>
    obtain rfl := Except.ok.inj h
    exact ⟨rfl, fun j => by rw [if_neg (by omega)]⟩
  | succ n ih =>
    unfold normalizeFrom at h
    split at h
    · next hop =>
      obtain ⟨hs, hj⟩ := ih h
      refine ⟨hs, fun j => ?_⟩
      have := hj j
      rcases Nat.lt_trichotomy j k with hlt | rfl | hgt
      · rw [if_neg (by omega)] at this ⊢
        exact this
      · rw [if_neg (by omega)] at this
        rw [if_pos (by omega), Resolved, if_pos hop]
        exact this
      · by_cases hin : k + 1 ≤ j ∧ j < k + 1 + n
        · rw [if_pos hin] at this
          rw [if_pos (by omega)]
          exact this
        · rw [if_neg hin] at this
          rw [if_neg (by omega)]
          exact this
    · next hop =>
      obtain ⟨i, hi, h⟩ := Except.bind_eq_ok.mp h
      obtain ⟨hs, hj⟩ := ih h
      refine ⟨hs, fun j => ?_⟩
      have := hj j
      simp only at this
      rcases Nat.lt_trichotomy j k with hlt | rfl | hgt
      · rw [if_neg (by omega), Function.update_of_ne (by omega)] at this
        rw [if_neg (by omega)]
        exact this
      · rw [if_neg (by omega), Function.update_self] at this
        rw [if_pos (by omega), Resolved, if_neg hop, this]
        exact hi
      · rw [Function.update_of_ne (by omega)] at this
        by_cases hin : k + 1 ≤ j ∧ j < k + 1 + n
        · rw [if_pos hin] at this
          rw [if_pos (by omega)]
          exact this
        · rw [if_neg hin] at this
          rw [if_neg (by omega)]
          exact this

theorem normalizeLabels_resolved {labels : List LabelLoc} {m m' : Imem} (h : normalizeLabels labels m = .ok m')
    {k : Nat} (hk : k < m.size) : Resolved labels k (m.code k) (m'.code k) := by
  have := (normalizeFrom_resolved h).2 k
  rwa [if_pos (by omega)] at this

/-- The operands of a resolved instruction. -/
structure Operands.Resolve (labels : List LabelLoc) (i i' : Instr) : Prop where
  op : i'.op = i.op
  line : i'.origLine = i.origLine
  rd : i'.a1.reg = i.a1.reg
  rs : i'.a2.reg = i.a2.reg
  a2 : i.a2.type = .label → ∃ v, labelAddr labels i.origLine i.a2.label = .ok v ∧
    i'.a2.imm = if i.op = .LUI then v >>> 12 else v
  a3 : i.a3.type = .label → ∃ v, labelAddr labels i.origLine i.a3.label = .ok v ∧
    i'.a3.imm = if i.op = .ADDI then v &&& 0xFFF else v

/-- The three operands of `normalizeInstr`, one after another. -/
def resolveA1 (labels : List LabelLoc) (i : Instr) : Except AsmError Instr :=
  if i.a1.type = .label then do
    let v ← labelAddr labels i.origLine i.a1.label
    return { i with a1 := Operand.ofImm i.a1 v }
  else .ok i

def resolveA2 (labels : List LabelLoc) (k : Nat) (i : Instr) : Except AsmError Instr :=
  if i.a2.type = .label then
    labelAddr labels i.origLine i.a2.label >>= fun v =>
    (if i.op = .JAL then checkRange (k * 4) i.a3.imm (2 ^ 21) else .ok ()) >>= fun _ =>
    .ok { i with a2 := Operand.ofImm i.a2 (if i.op = .LUI then v >>> 12 else v) }
  else .ok i

def resolveA3 (labels : List LabelLoc) (k : Nat) (i : Instr) : Except AsmError Instr :=
  if i.a3.type = .label then
    labelAddr labels i.origLine i.a3.label >>= fun v =>
    (if i.op ∈ [.BEQ, .BGE, .BGEU, .BLT, .BLTU, .BNE] then checkRange (k * 4) v (2 ^ 13) else .ok ()) >>= fun _ =>
    .ok { i with a3 := Operand.ofImm i.a3 (if i.op = .ADDI then v &&& 0xFFF else v) }
  else .ok i

theorem resolveA3_eq (labels : List LabelLoc) (k : Nat) (i : Instr) : resolveA3 labels k i =
    if i.a3.type = .label then do
      let v ← labelAddr labels i.origLine i.a3.label
      match i.op with
      | .ADDI => return { i with a3 := Operand.ofImm i.a3 (v &&& 0xFFF) }
      | .BEQ | .BGE | .BGEU | .BLT | .BLTU | .BNE => do
        checkRange (k * 4) v (2 ^ 13)
        return { i with a3 := Operand.ofImm i.a3 v }
      | _ => return { i with a3 := Operand.ofImm i.a3 v }
    else return i := by
  unfold resolveA3
  congr 2
  funext v
  obtain ⟨op, a1, a2, a3, line⟩ := i
  cases op <;> rfl

theorem resolveA2_eq (labels : List LabelLoc) (k : Nat) (i : Instr) :
    resolveA2 labels k i >>= resolveA3 labels k =
      if i.a2.type = .label then do
        let v ← labelAddr labels i.origLine i.a2.label
        match i.op with
        | .LUI => resolveA3 labels k { i with a2 := Operand.ofImm i.a2 (v >>> 12) }
        | .JAL => do
          checkRange (k * 4) i.a3.imm (2 ^ 21)
          resolveA3 labels k { i with a2 := Operand.ofImm i.a2 v }
        | _ => resolveA3 labels k { i with a2 := Operand.ofImm i.a2 v }
      else resolveA3 labels k i := by
  unfold resolveA2
  split
  · rw [bind_assoc]
    congr 1
    funext v
    obtain ⟨op, a1, a2, a3, line⟩ := i
    cases op
    case JAL =>
      simp only [if_true, bind_assoc]
      rfl
    all_goals rfl
  · rfl

theorem normalizeInstr_eq (labels : List LabelLoc) (k : Nat) (i : Instr) :
    normalizeInstr labels k i =
      resolveA1 labels i >>= fun i => resolveA2 labels k i >>= resolveA3 labels k := by
  simp only [resolveA2_eq]
  simp only [resolveA3_eq]
  unfold normalizeInstr resolveA1
  split
  · rw [bind_assoc]
    rfl
  · rfl

/-! ### What the second pass changes -/

section

variable {labels : List LabelLoc} {k : Nat} {i i' : Instr}

theorem resolveA1_eq_ok (h : resolveA1 labels i = .ok i') : ∃ o, o.reg = i.a1.reg ∧ i' = { i with a1 := o } := by
  unfold resolveA1 at h
  split at h
  · obtain ⟨v, -, h⟩ := Except.bind_eq_ok.mp h
    exact ⟨Operand.ofImm i.a1 v, rfl, (Except.ok.inj h).symm⟩
  · exact ⟨_, rfl, (Except.ok.inj h).symm⟩

theorem resolveA2_eq_ok (h : resolveA2 labels k i = .ok i') : ∃ o, o.reg = i.a2.reg ∧
    (i.a2.type = .label →
      ∃ v, labelAddr labels i.origLine i.a2.label = .ok v ∧ o.imm = if i.op = .LUI then v >>> 12 else v) ∧
    i' = { i with a2 := o } := by
  unfold resolveA2 at h
  split at h
  · obtain ⟨v, hv, h⟩ := Except.bind_eq_ok.mp h
    obtain ⟨-, -, h⟩ := Except.bind_eq_ok.mp h
    exact ⟨Operand.ofImm i.a2 _, rfl, fun _ => ⟨v, hv, rfl⟩, (Except.ok.inj h).symm⟩
  · next hl => exact ⟨_, rfl, fun h => absurd h hl, (Except.ok.inj h).symm⟩

theorem resolveA3_eq_ok (h : resolveA3 labels k i = .ok i') : ∃ o, o.reg = i.a3.reg ∧
    (i.a3.type = .label →
      ∃ v, labelAddr labels i.origLine i.a3.label = .ok v ∧ o.imm = if i.op = .ADDI then v &&& 0xFFF else v) ∧
    i' = { i with a3 := o } := by
  unfold resolveA3 at h
  split at h
  · obtain ⟨v, hv, h⟩ := Except.bind_eq_ok.mp h
    obtain ⟨-, -, h⟩ := Except.bind_eq_ok.mp h
    exact ⟨Operand.ofImm i.a3 _, rfl, fun _ => ⟨v, hv, rfl⟩, (Except.ok.inj h).symm⟩
  · next hl => exact ⟨_, rfl, fun h => absurd h hl, (Except.ok.inj h).symm⟩

theorem normalizeInstr_resolve (h : normalizeInstr labels k i = .ok i') : Operands.Resolve labels i i' := by
  rw [normalizeInstr_eq] at h
  obtain ⟨i1, h1, h⟩ := Except.bind_eq_ok.mp h
  obtain ⟨i2, h2, h3⟩ := Except.bind_eq_ok.mp h
  obtain ⟨o1, ho1, rfl⟩ := resolveA1_eq_ok h1
  obtain ⟨o2, ho2, ha2, rfl⟩ := resolveA2_eq_ok h2
  obtain ⟨o3, -, ha3, rfl⟩ := resolveA3_eq_ok h3
  exact ⟨rfl, rfl, ho1, ho2, ha2, ha3⟩

end

/-! ## What the first pass leaves in the slots -/

/-- The label that a branch, `jal` or `j` names. -/
def labelOperand (tok : CStr) (os : Operands) : Option CStr :=
  match String.ofList tok with
  | "beq" | "bge" | "bgeu" | "blt" | "bltu" | "bne" => os.o3
  | "bnez" | "beqz" => os.o2
  | "j" => os.o1
  | "jal" => os.o2.or os.o1
  | _ => none

/-- The operations that go to the location in `a3`. -/
def branches : List InstrType := [.BEQ, .BGE, .BGEU, .BLT, .BLTU, .BNE]

/-- The instruction is a branch or a jump to the label `name`. -/
def Refers (i : Instr) (name : CStr) : Prop :=
  (i.op ∈ branches ∧ i.a3.type = .label ∧ i.a3.label = copyLabel name) ∨
    (i.op = .JAL ∧ i.a2.type = .label ∧ i.a2.label = copyLabel name)

theorem operandsBranch_refers {line : Nat} {i i' : Instr} {os : Operands} {name : CStr} (hop : i.op ∈ branches)
    (ho : os.o3 = some name) (h : operandsBranch line i os = .ok i') : Refers i' name := by
  unfold operandsBranch at h
  split at h
  · obtain ⟨r1, -, h⟩ := Except.bind_eq_ok.mp h
    obtain ⟨r2, -, h⟩ := Except.bind_eq_ok.mp h
    obtain rfl := Except.ok.inj h
    obtain rfl := Option.some.inj ho
    exact .inl ⟨hop, rfl, rfl⟩
  · cases h

theorem operandsJal_refers {line : Nat} {i i' : Instr} {os : Operands} {name : CStr} (hop : i.op = .JAL)
    (ho : os.o2.or os.o1 = some name) (h : operandsJal line i os = .ok i') : Refers i' name := by
  unfold operandsJal at h
  split at h
  · obtain ⟨r1, -, h⟩ := Except.bind_eq_ok.mp h
    obtain rfl := Except.ok.inj h
    obtain rfl := Option.some.inj ho
    exact .inr ⟨hop, rfl, rfl⟩
  · obtain rfl := Except.ok.inj h
    obtain rfl := Option.some.inj ho
    exact .inr ⟨hop, rfl, rfl⟩
  · cases h

theorem code_of_setInstr {m m' : Imem} {k : Nat} {i : Instr} (h : setInstr m k i = .ok m') : m'.code k = i := by
  obtain ⟨-, rfl⟩ := setInstr_eq_ok h
  exact Function.update_self k i m.code

theorem parseBranchZero_refers {op : InstrType} {line k c : Nat} {m m' : Imem} {o1 o2 : CStr} (hop : op ∈ branches)
    (h : parseBranchZero op line m k o1 o2 = .ok (m', c)) : Refers (m'.code k) o2 := by
  unfold parseBranchZero at h
  obtain ⟨reg, -, h⟩ := Except.bind_eq_ok.mp h
  obtain ⟨u, hu, h⟩ := Except.bind_eq_ok.mp h
  obtain ⟨rfl, rfl⟩ := Prod.mk.inj (Except.ok.inj h)
  rw [code_of_setInstr hu]
  exact .inl ⟨hop, rfl, rfl⟩

/-- An instruction that is no pseudo-instruction goes through the switch of `parse_instr`. -/
theorem parseInstr_plain {cfg : Config} {line loc c : Nat} {tok rest : CStr} {m m' : Imem}
    (hp : parsePseudoinstructions line tok m (loc / 4) (Operands.read rest) = .ok (m, 0))
    (h : parseInstr cfg line tok rest m loc = .ok (m', c)) :
    parseOperands line { m.code (loc / 4) with op := parseOp tok, origLine := line } (Operands.read rest) =
      .ok (m'.code (loc / 4)) := by
  unfold parseInstr at h
  split at h
  · cases h
  obtain ⟨⟨u, n⟩, hu, hn⟩ := Except.bind_eq_ok.mp h
  obtain ⟨rfl, rfl⟩ := Prod.mk.inj (Except.ok.inj (hp.symm.trans hu))
  simp only at hn
  rw [if_neg (show ¬ 0 > 0 from Nat.lt_irrefl 0)] at hn
  obtain ⟨i, hi, hn⟩ := Except.bind_eq_ok.mp hn
  obtain ⟨v, hv, hn⟩ := Except.bind_eq_ok.mp hn
  obtain ⟨rfl, rfl⟩ := Prod.mk.inj (Except.ok.inj hn)
  rw [hi, code_of_setInstr hv]

/-- A pseudo-instruction leaves what `parse_pseudoinstructions` wrote. -/
theorem parseInstr_pseudo {cfg : Config} {line loc c : Nat} {tok rest : CStr} {m m' : Imem}
    (h : parseInstr cfg line tok rest m loc = .ok (m', c)) :
    ∃ u n, parsePseudoinstructions line tok m (loc / 4) (Operands.read rest) = .ok (u, n) ∧
      (0 < n → u = m' ∧ n = c) := by
  unfold parseInstr at h
  split at h
  · cases h
  obtain ⟨⟨u, n⟩, hu, hn⟩ := Except.bind_eq_ok.mp h
  refine ⟨u, n, hu, fun hpos => ?_⟩
  simp only at hn
  rw [if_pos hpos] at hn
  exact Prod.mk.inj (Except.ok.inj hn)

theorem parseOperands_branch {line : Nat} {i : Instr} (hop : i.op ∈ branches) (os : Operands) :
    parseOperands line i os = operandsBranch line i os := by
  unfold parseOperands
  simp only [branches, List.mem_cons, List.not_mem_nil, or_false] at hop
  rcases hop with h | h | h | h | h | h <;> simp only [h]

theorem refers_of_branch {cfg : Config} {line loc c : Nat} {tok rest name : CStr} {m m' : Imem}
    (hop : parseOp tok ∈ branches)
    (hp : parsePseudoinstructions line tok m (loc / 4) (Operands.read rest) = .ok (m, 0))
    (ho : (Operands.read rest).o3 = some name) (h : parseInstr cfg line tok rest m loc = .ok (m', c)) :
    Refers (m'.code (loc / 4)) name := by
  have hplain := parseInstr_plain hp h
  rw [parseOperands_branch (by exact hop)] at hplain
  exact operandsBranch_refers (by exact hop) ho hplain

theorem refers_of_branchZero (op : InstrType) {cfg : Config} {line loc c : Nat} {tok rest name : CStr} {m m' : Imem}
    (hop : op ∈ branches) (hp : ∀ os, parsePseudoinstructions line tok m (loc / 4) os =
      match os.o1, os.o2, os.o3 with
      | some o1, some o2, none => parseBranchZero op line m (loc / 4) o1 o2
      | _, _, _ => invalidFormat line)
    (ho : (Operands.read rest).o2 = some name) (h : parseInstr cfg line tok rest m loc = .ok (m', c)) :
    Refers (m'.code (loc / 4)) name := by
  obtain ⟨u, n, hu, hn⟩ := parseInstr_pseudo h
  rw [hp] at hu
  split at hu
  · next ho2 _ =>
    obtain rfl := Option.some.inj (ho2.symm.trans ho)
    obtain ⟨rfl, -⟩ := parseBranchZero_writes hu
    obtain ⟨rfl, -⟩ := hn Nat.one_pos
    exact parseBranchZero_refers hop hu
  · cases hu

theorem refers_of_j {cfg : Config} {line loc c : Nat} {rest name : CStr} {m m' : Imem}
    (ho : (Operands.read rest).o1 = some name) (h : parseInstr cfg line "j".toList rest m loc = .ok (m', c)) :
    Refers (m'.code (loc / 4)) name := by
  obtain ⟨u, n, hu, hn⟩ := parseInstr_pseudo h
  generalize Operands.read rest = os at hu ho
  obtain ⟨_ | o1, _ | o2, o3, o4⟩ := os
  · cases ho
  · cases ho
  · obtain rfl := Option.some.inj ho
    obtain ⟨v, hv, hu⟩ := Except.bind_eq_ok.mp hu
    obtain ⟨rfl, rfl⟩ := Prod.mk.inj (Except.ok.inj hu)
    obtain ⟨rfl, -⟩ := hn Nat.one_pos
    rw [code_of_setInstr hv]
    exact .inr ⟨rfl, rfl, rfl⟩
  · cases hu

/-- **The first pass** leaves the name of the label in the slot of a branch or a jump. -/
theorem parseInstr_refers {cfg : Config} {line loc c : Nat} {tok rest name : CStr} {m m' : Imem}
    (hl : labelOperand tok (Operands.read rest) = some name)
    (h : parseInstr cfg line tok rest m loc = .ok (m', c)) : Refers (m'.code (loc / 4)) name := by
  have htok {w : String} (hw : String.ofList tok = w) : tok = w.toList := by rw [← hw, String.toList_ofList]
  unfold labelOperand at hl
  split at hl
  · next heq => exact refers_of_branch (htok heq ▸ by decide) (htok heq ▸ rfl) hl h
  · next heq => exact refers_of_branch (htok heq ▸ by decide) (htok heq ▸ rfl) hl h
  · next heq => exact refers_of_branch (htok heq ▸ by decide) (htok heq ▸ rfl) hl h
  · next heq => exact refers_of_branch (htok heq ▸ by decide) (htok heq ▸ rfl) hl h
  · next heq => exact refers_of_branch (htok heq ▸ by decide) (htok heq ▸ rfl) hl h
  · next heq => exact refers_of_branch (htok heq ▸ by decide) (htok heq ▸ rfl) hl h
  · next heq => exact refers_of_branchZero .BNE (by decide) (htok heq ▸ fun _ => rfl) hl h
  · next heq => exact refers_of_branchZero .BEQ (by decide) (htok heq ▸ fun _ => rfl) hl h
  · next heq => exact refers_of_j hl (htok heq ▸ h)
  · next heq =>
    obtain rfl := htok heq
    have hplain := parseInstr_plain rfl h
    exact operandsJal_refers rfl hl hplain
  · cases hl

/-- The two instructions of `la reg, name`. -/
structure LaPair (i i2 : Instr) (reg : Int) (name : CStr) : Prop where
  lui : i.op = .LUI
  luiRd : i.a1.reg = reg
  luiLabel : i.a2.type = .label ∧ i.a2.label = copyLabel name
  addi : i2.op = .ADDI
  addiRd : i2.a1.reg = reg
  addiRs : i2.a2.reg = reg
  addiLabel : i2.a3.type = .label ∧ i2.a3.label = copyLabel name

theorem parseInstr_la {cfg : Config} {line loc c : Nat} {rest o1 o2 : CStr} {reg : Int} {m m' : Imem}
    (h : parseInstr cfg line "la".toList rest m loc = .ok (m', c)) (h1 : (Operands.read rest).o1 = some o1)
    (h2 : (Operands.read rest).o2 = some o2) (hr : parseReg line o1 = .ok reg) :
    LaPair (m'.code (loc / 4)) (m'.code (loc / 4 + 1)) reg o2 := by
  obtain ⟨u, n, hu, hn⟩ := parseInstr_pseudo h
  change (match (Operands.read rest).o1, (Operands.read rest).o2, (Operands.read rest).o3 with
    | some o1, some o2, none => parseLa line m (loc / 4) o1 o2
    | _, _, _ => invalidFormat line) = _ at hu
  rw [h1, h2] at hu
  split at hu
  · next heq1 heq2 _ =>
    obtain rfl := Option.some.inj heq1
    obtain rfl := Option.some.inj heq2
    obtain ⟨rfl, -⟩ := parseLa_writes hu
    obtain ⟨rfl, -⟩ := hn Nat.two_pos
    unfold parseLa at hu
    obtain ⟨r, hr', hu⟩ := Except.bind_eq_ok.mp hu
    obtain rfl := Except.ok.inj (hr.symm.trans hr')
    obtain ⟨v, hv, hu⟩ := Except.bind_eq_ok.mp hu
    obtain ⟨w, hw, hu⟩ := Except.bind_eq_ok.mp hu
    obtain ⟨rfl, -⟩ := Prod.mk.inj (Except.ok.inj hu)
    have hfirst : w.code (loc / 4) = v.code (loc / 4) := (Writes.of_set hw).frame _ (.inl (by omega))
    rw [hfirst, code_of_setInstr hv, code_of_setInstr hw]
    exact ⟨rfl, rfl, ⟨rfl, rfl⟩, rfl, rfl, rfl, rfl, rfl⟩
  · cases hu

/-! ## Targets -/

/-- Where a branch or a jump goes. -/
def target (i : Instr) : Word := if i.op = .JAL then i.a2.imm else i.a3.imm

theorem target_resolved {labels : List LabelLoc} {k : Nat} {i i' : Instr} {name : CStr} (hr : Refers i name)
    (h : Resolved labels k i i') : ∃ v, labelAddr labels i.origLine (copyLabel name) = .ok v ∧ target i' = v := by
  have hop : i.op ≠ .UNIMPL := by
    rintro hop
    rcases hr with ⟨hb, -⟩ | ⟨hj, -⟩
    · rw [hop] at hb
      exact absurd hb (by decide)
    · rw [hop] at hj
      cases hj
  unfold Resolved at h
  rw [if_neg hop] at h
  have hn := normalizeInstr_resolve h
  rcases hr with ⟨hb, ht, hl⟩ | ⟨hj, ht, hl⟩
  · obtain ⟨v, hv, hi⟩ := hn.a3 ht
    have hja : i.op ≠ .JAL := fun hj => absurd (hj ▸ hb) (by decide)
    have had : i.op ≠ .ADDI := fun hj => absurd (hj ▸ hb) (by decide)
    refine ⟨v, hl ▸ hv, ?_⟩
    rw [target, hn.op, if_neg hja, hi, if_neg had]
  · obtain ⟨v, hv, hi⟩ := hn.a2 ht
    refine ⟨v, hl ▸ hv, ?_⟩
    rw [target, hn.op, if_pos hj, hi, if_neg (by rw [hj]; decide)]

/-! ## `la`, executed -/

theorem upper_add_lower (v : Word) : (v >>> 12) <<< 12 + (v &&& 0xFFF) = v := by
  apply BitVec.eq_of_toNat_eq
  have hlow : (v &&& 0xFFF).toNat = v.toNat % 4096 := by
    rw [BitVec.toNat_and]
    exact Nat.and_two_pow_sub_one_eq_mod v.toNat 12
  have hlt := v.isLt
  rw [BitVec.toNat_add, hlow, BitVec.toNat_shiftLeft, BitVec.toNat_ushiftRight, Nat.shiftLeft_eq,
    Nat.shiftRight_eq_div_pow]
  omega

/-- `LUI` and `ADDI` with the two parts of `v` leave `v` in their register, and nothing else. -/
theorem execBase_la {i i2 : Instr} {rd : Fin 32} {v : Word} (hop : i.op = .LUI) (hrd : i.a1.reg = rd.val)
    (himm : i.a2.imm = v >>> 12) (hop2 : i2.op = .ADDI) (hrd2 : i2.a1.reg = rd.val) (hrs2 : i2.a2.reg = rd.val)
    (himm2 : i2.a3.imm = v &&& 0xFFF) (pc pc2 : Word) (rf : Regfile) :
    ∃ rf1, execBase i pc rf = .ok (.commit rf1 (pc + 4)) ∧
      execBase i2 pc2 rf1 = .ok (.commit (Function.update rf rd v) (pc2 + 4)) := by
  have hw (o : Operand) (ho : o.reg = rd.val) (rf : Regfile) (x : Word) :
      rf.write o x = .ok (Function.update rf rd x) := Regfile.write_eq_ok.mpr ⟨rd, ho, rfl⟩
  have hr (rf : Regfile) : rf.read i2.a2 = .ok (rf rd) := by
    rw [Regfile.read, regIndex_eq_ok.mpr hrs2]
    rfl
  let rf1 := Function.update rf rd ((v >>> 12) <<< 12)
  have hrf2 : Function.update rf1 rd v = Function.update rf rd v := Function.update_idem _ _ _
  refine ⟨rf1, ?_, ?_⟩
  · simp only [execBase, hop, Effect.opU, himm, hw i.a1 hrd]
    rfl
  · rw [← hrf2]
    simp only [execBase, hop2, Effect.opRI, hr, himm2, rf1, Function.update_self]
    simp only [bind, Except.bind, upper_add_lower, hw i2.a1 hrd2]
    rfl

end SocModel.Asm
