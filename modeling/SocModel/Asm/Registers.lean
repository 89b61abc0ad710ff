import Mathlib.Data.List.Induction
import SocModel.Asm.Bounds
import SocModel.Cpu.Model

/-!
# Register operands

`parse_reg` reads the number behind an `x` with `atoi`, which takes the front of anything, and its test lets 32 pass.

* `regName` : the register a token names, `regExact_iff` : the tokens `parse_reg` reads as that;
* `registerTokens` : the register operands of a line, `lineSlots_from` : what the slots have from them, and their
  operation; `forall_code_run` : what holds of every slot;
* `registers_iff` : both, and when every register index in the instruction memory, and with it every access of `rf`,
  is in range.
-/

namespace SocModel.Asm

open Lib

/-! ## One token -/

/-- The names of the registers in the ABI, in their order. -/
def abiNames : List String :=
  ["zero", "ra", "sp", "gp", "tp", "t0", "t1", "t2", "s0", "s1", "a0", "a1", "a2", "a3", "a4", "a5",
    "a6", "a7", "s2", "s3", "s4", "s5", "s6", "s7", "s8", "s9", "s10", "s11", "t3", "t4", "t5", "t6"]

/-- The register a token names: `x` with a decimal number up to 31, or a name of the ABI. -/
def regName : CStr → Option Nat
  | 'x' :: ds => (digitString 10 ds).filter (· ≤ 31)
  | tok => abiNames.idxOf? (String.ofList tok)

/-- The token is read without an error exactly when it names a register, and then as that register. -/
def RegExact (tok : CStr) : Prop :=
  ∀ line r, parseReg line tok = .ok r ↔ ∃ n, regName tok = some n ∧ r = (n : Int)

theorem parseReg_x (line : Nat) (ds : CStr) : parseReg line ('x' :: ds) =
    if atoi ds < 0 ∨ atoi ds > 32 then .error (.syntaxError line "Malformed register name") else .ok (atoi ds) := rfl

/-- The names of the ABI are read exactly. -/
theorem parseReg_abi (line : Nat) {tok : CStr} (h : ∀ ds, tok ≠ 'x' :: ds) :
    parseReg line tok =
      match abiNames.idxOf? (String.ofList tok) with
      | some n => .ok n
      | none => .error (.syntaxError line "Malformed register name") := by
  unfold parseReg
  split
  · exact absurd rfl (h _)
  split
  all_goals first
    | (next heq => rw [heq]; rfl)
    | (have hn : String.ofList tok ∉ abiNames := by
        simp only [abiNames, List.mem_cons, List.not_mem_nil, or_false, not_or]
        and_intros <;> assumption
       rw [List.idxOf?_eq_none_iff.mpr hn])

/-- The digits behind an `x` are a number up to 31. -/
def ExactNumber (ds : CStr) : Prop := ∃ n ≤ 31, digitString 10 ds = some n

theorem regName_x (ds : CStr) (n : Nat) : regName ('x' :: ds) = some n ↔ digitString 10 ds = some n ∧ n ≤ 31 := by
  rw [regName, Option.filter_eq_some_iff]
  simp

/-- **One token** is read exactly when it has no `x` in front, or a number up to 31 behind it, or something that
`atoi` reads as a number out of its range. -/
theorem regExact_iff (tok : CStr) :
    RegExact tok ↔ ∀ ds, tok = 'x' :: ds → ExactNumber ds ∨ atoi ds < 0 ∨ 32 < atoi ds := by
  by_cases hx : ∃ ds, tok = 'x' :: ds
  · obtain ⟨ds, rfl⟩ := hx
    have hnum {n : Nat} (hn : digitString 10 ds = some n) (hle : n ≤ 31) : atoi ds = n :=
      atoi_of_digitString hn (by omega)
    unfold RegExact
    simp only [parseReg_x, regName_x, List.cons.injEq, true_and, forall_eq']
    constructor
    · intro h
      by_cases hr : atoi ds < 0 ∨ atoi ds > 32
      · exact .inr hr
      · have h0 := h 0 (atoi ds)
        rw [if_neg hr] at h0
        obtain ⟨n, ⟨hn, hle⟩, -⟩ := h0.mp rfl
        exact .inl ⟨n, hle, hn⟩
    · rintro (⟨n, hle, hn⟩ | hr) line r
      · rw [hnum hn hle, if_neg (by omega)]
        constructor
        · intro h
          exact ⟨n, ⟨hn, hle⟩, (Except.ok.inj h).symm⟩
        · rintro ⟨k, ⟨hk, -⟩, rfl⟩
          rw [Option.some.inj (hn.symm.trans hk)]
      · rw [if_pos hr]
        simp only [reduceCtorEq, false_iff]
        rintro ⟨n, ⟨hn, hle⟩, -⟩
        have := hnum hn hle
        omega
  · rw [not_exists] at hx
    refine iff_of_true (fun line r => ?_) fun ds hds => absurd hds (hx ds)
    have hname : regName tok = abiNames.idxOf? (String.ofList tok) := by
      unfold regName
      split
      · exact absurd rfl (hx _)
      · rfl
    rw [parseReg_abi line hx, hname]
    cases abiNames.idxOf? (String.ofList tok) with
    | none => simp
    | some n => simp [eq_comm]

/-! ## The register operands of a line -/

/-- The register of `imm(reg)`. -/
def memRegister (tok : CStr) : Option CStr :=
  (strtok ['('] tok).bind fun p => (strtok [')'] p.2).map Prod.fst

/-- The operands of a format that are registers. -/
def Format.registers (os : Operands) : Format → List CStr
  | none => []
  | jal => if os.o2.isSome then os.o1.toList else []
  | mem => os.o1.toList ++ (os.o2.bind memRegister).toList
  | rri | branch => os.o1.toList ++ os.o2.toList
  | upper => os.o1.toList
  | rrr _ => os.o1.toList ++ os.o2.toList ++ os.o3.toList

/-- The operands of a line that are registers. -/
def registerTokens (tok : CStr) (os : Operands) : List CStr :=
  match String.ofList tok with
  | "li" | "la" | "bnez" | "beqz" => os.o1.toList
  | "mv" => os.o1.toList ++ os.o2.toList
  | "ret" | "j" => []
  | _ => (formatOf (parseOp tok)).registers os

/-- The register indices that a slot holds. -/
def regsOf (i : Instr) : List Int := [i.a1.reg, i.a2.reg, i.a3.reg]

/-- The new slot has the registers of the tokens, and no others but 0, 1 and those it had. -/
structure RegsFrom (line : Nat) (ts : List CStr) (i i' : Instr) : Prop where
  sound : ∀ r ∈ regsOf i', r ∈ regsOf i ∨ r = 0 ∨ r = 1 ∨ ∃ t ∈ ts, parseReg line t = .ok r
  complete : ∀ t ∈ ts, ∃ r ∈ regsOf i', parseReg line t = .ok r

/-- And it has the operation `op`. -/
structure SlotFrom (line : Nat) (op : InstrType) (ts : List CStr) (i i' : Instr) : Prop extends RegsFrom line ts i i' where
  op_eq : i'.op = op

section Slots

variable {line : Nat} {op : InstrType} {i i' : Instr} {os : Operands}

/-- The registers of a slot are those of the tokens, beside old ones and constants. -/
theorem SlotFrom.of_map {ts : List CStr} (rs : List Int) (h : ts.map (parseReg line) = rs.map .ok) (hop : i'.op = op)
    (hs : ∀ r ∈ regsOf i', r ∈ regsOf i ∨ r = 0 ∨ r = 1 ∨ r ∈ rs) (hc : ∀ r ∈ rs, r ∈ regsOf i') :
    SlotFrom line op ts i i' := by
  refine ⟨⟨?_, ?_⟩, hop⟩
  · intro r hr
    refine (hs r hr).imp_right (Or.imp_right (Or.imp_right fun hmem => ?_))
    have : Except.ok r ∈ ts.map (parseReg line) := h ▸ List.mem_map_of_mem hmem
    exact List.mem_map.mp this
  · intro t ht
    have : parseReg line t ∈ rs.map Except.ok := h ▸ List.mem_map_of_mem ht
    obtain ⟨r, hr, heq⟩ := List.mem_map.mp this
    exact ⟨r, hc r hr, heq.symm⟩

theorem parseMem_register {tok : CStr} {bits : Nat} {r : Int} {imm : Word} (h : parseMem line tok bits = .ok (r, imm)) :
    ∃ t, memRegister tok = some t ∧ parseReg line t = .ok r := by
  unfold parseMem at h
  split at h
  · cases h
  next imms rest hs =>
  obtain ⟨v, -, h⟩ := Except.bind_eq_ok.mp h
  split at h
  · cases h
  next regs rest' hr =>
  obtain ⟨reg, hreg, h⟩ := Except.bind_eq_ok.mp h
  obtain ⟨rfl, -⟩ := Prod.mk.inj (Except.ok.inj h)
  refine ⟨regs, ?_, hreg⟩
  rw [memRegister, hs, Option.bind_some, hr]
  rfl

/-- The slot of a format has the registers of its operands, which leave the operation alone. -/
theorem Format.slotFrom {f : Format} (h : f.operands line i os = .ok i') :
    SlotFrom line i.op (f.registers os) i i' := by
  cases f with
  | none =>
    obtain rfl := Except.ok.inj h
    exact .of_map [] rfl rfl (fun r hr => .inl hr) (by simp)
  | jal =>
    rw [Format.operands] at h
    unfold operandsJal at h
    split at h
    · obtain ⟨r1, h1, h⟩ := Except.bind_eq_ok.mp h
      obtain rfl := Except.ok.inj h
      exact .of_map [r1] (by simp [registers, h1]) rfl (by simp [regsOf, Operand.ofReg, Operand.ofLabel])
        (by simp [regsOf, Operand.ofReg])
    · obtain rfl := Except.ok.inj h
      exact .of_map [] rfl rfl (by simp [regsOf, Operand.ofReg, Operand.ofLabel]) (by simp)
    · cases h
  | mem =>
    rw [Format.operands] at h
    unfold operandsMem at h
    split at h
    · obtain ⟨r1, h1, h⟩ := Except.bind_eq_ok.mp h
      obtain ⟨⟨r2, imm⟩, h2, h⟩ := Except.bind_eq_ok.mp h
      obtain ⟨t, ht, hr⟩ := parseMem_register h2
      obtain rfl := Except.ok.inj h
      exact .of_map [r1, r2] (by simp [registers, h1, ht, hr]) rfl (by simp [regsOf]) (by simp [regsOf])
    · cases h
  | rri =>
    rw [Format.operands] at h
    unfold operandsRRI at h
    split at h
    · obtain ⟨r1, h1, h⟩ := Except.bind_eq_ok.mp h
      obtain ⟨r2, h2, h⟩ := Except.bind_eq_ok.mp h
      obtain ⟨imm, -, h⟩ := Except.bind_eq_ok.mp h
      obtain rfl := Except.ok.inj h
      exact .of_map [r1, r2] (by simp [registers, h1, h2]) rfl (by simp [regsOf]) (by simp [regsOf])
    · cases h
  | branch =>
    rw [Format.operands] at h
    unfold operandsBranch at h
    split at h
    · obtain ⟨r1, h1, h⟩ := Except.bind_eq_ok.mp h
      obtain ⟨r2, h2, h⟩ := Except.bind_eq_ok.mp h
      obtain rfl := Except.ok.inj h
      exact .of_map [r1, r2] (by simp [registers, h1, h2]) rfl (by simp [regsOf, Operand.ofLabel])
        (by simp [regsOf])
    · cases h
  | upper =>
    rw [Format.operands] at h
    unfold operandsUpper at h
    split at h
    · obtain ⟨r1, h1, h⟩ := Except.bind_eq_ok.mp h
      obtain ⟨imm, -, h⟩ := Except.bind_eq_ok.mp h
      obtain rfl := Except.ok.inj h
      exact .of_map [r1] (by simp [registers, h1]) rfl (by simp [regsOf]) (by simp [regsOf])
    · cases h
  | rrr msg =>
    rw [Format.operands] at h
    unfold operandsRRR at h
    split at h
    · obtain ⟨r1, h1, h⟩ := Except.bind_eq_ok.mp h
      obtain ⟨r2, h2, h⟩ := Except.bind_eq_ok.mp h
      obtain ⟨r3, h3, h⟩ := Except.bind_eq_ok.mp h
      obtain rfl := Except.ok.inj h
      exact .of_map [r1, r2, r3] (by simp [registers, h1, h2, h3]) rfl (by simp [regsOf]) (by simp [regsOf])
    · cases h

/-- The operations of the pseudo-instructions. -/
def pseudoOps : List InstrType := [.LUI, .ADDI, .JALR, .JAL, .BNE, .BEQ]

/-- There are slots, and each has the registers of the tokens. -/
def SlotsFrom (line : Nat) (ts : List CStr) (fs : List (Instr → Instr)) : Prop :=
  fs ≠ [] ∧ ∀ f ∈ fs, ∃ op ∈ pseudoOps, ∀ i, SlotFrom line op ts i (f i)

theorem liSlots_regs {o1 o2 : CStr} {fs : List (Instr → Instr)} (h : liSlots line o1 o2 = .ok fs) :
    SlotsFrom line [o1] fs := by
  obtain ⟨reg, hreg, h⟩ := Except.bind_eq_ok.mp h
  simp only at h
  split at h
  · cases h
  · obtain rfl := Except.ok.inj h
    simp only [SlotsFrom, List.forall_mem_cons, List.not_mem_nil, false_imp_iff, implies_true, and_true]
    refine ⟨List.cons_ne_nil _ _, ⟨.LUI, by decide, fun i => .of_map [reg] (by simp [hreg]) rfl ?_ ?_⟩,
      .ADDI, by decide, fun i => .of_map [reg] (by simp [hreg]) rfl ?_ ?_⟩
    · simp [regsOf, luiSlot, Operand.ofReg, Operand.ofImm]
    · simp [regsOf, luiSlot, Operand.ofReg]
    · simp [regsOf, addiSlot, Operand.ofReg, Operand.ofImm]
    · simp [regsOf, addiSlot, Operand.ofReg]

theorem laSlots_regs {o1 o2 : CStr} {fs : List (Instr → Instr)} (h : laSlots line o1 o2 = .ok fs) :
    SlotsFrom line [o1] fs := by
  obtain ⟨reg, hreg, h⟩ := Except.bind_eq_ok.mp h
  obtain rfl := Except.ok.inj h
  simp only [SlotsFrom, List.forall_mem_cons, List.not_mem_nil, false_imp_iff, implies_true, and_true]
  refine ⟨List.cons_ne_nil _ _, ⟨.LUI, by decide, fun i => .of_map [reg] (by simp [hreg]) rfl ?_ ?_⟩,
    .ADDI, by decide, fun i => .of_map [reg] (by simp [hreg]) rfl ?_ ?_⟩
  · simp [regsOf, luiLabelSlot, Operand.ofReg, Operand.ofLabel]
  · simp [regsOf, luiLabelSlot, Operand.ofReg]
  · simp [regsOf, addiLabelSlot, Operand.ofReg, Operand.ofLabel]
  · simp [regsOf, addiLabelSlot, Operand.ofReg]

theorem mvSlots_regs {o1 o2 : CStr} {fs : List (Instr → Instr)} (h : mvSlots line o1 o2 = .ok fs) :
    SlotsFrom line [o1, o2] fs := by
  obtain ⟨rd, hrd, h⟩ := Except.bind_eq_ok.mp h
  obtain ⟨rs, hrs, h⟩ := Except.bind_eq_ok.mp h
  obtain rfl := Except.ok.inj h
  simp only [SlotsFrom, List.forall_mem_cons, List.not_mem_nil, false_imp_iff, implies_true, and_true]
  refine ⟨List.cons_ne_nil _ _, .ADDI, by decide, fun i => .of_map [rd, rs] (by simp [hrd, hrs]) rfl ?_ ?_⟩
  · simp [regsOf, addiSlot, Operand.ofReg, Operand.ofImm]
  · simp [regsOf, addiSlot, Operand.ofReg]

theorem branchZeroSlots_regs {o1 o2 : CStr} {fs : List (Instr → Instr)} (hop : op ∈ pseudoOps)
    (h : branchZeroSlots op line o1 o2 = .ok fs) : SlotsFrom line [o1] fs := by
  obtain ⟨reg, hreg, h⟩ := Except.bind_eq_ok.mp h
  obtain rfl := Except.ok.inj h
  simp only [SlotsFrom, List.forall_mem_cons, List.not_mem_nil, false_imp_iff, implies_true, and_true]
  refine ⟨List.cons_ne_nil _ _, op, hop, fun i => .of_map [reg] (by simp [hreg]) rfl ?_ ?_⟩
  · simp [regsOf, branchZeroSlot, Operand.ofReg, Operand.ofLabel]
  · simp [regsOf, branchZeroSlot, Operand.ofReg]

/-- The slots of a pseudo-instruction have the registers of its operands. -/
theorem pseudoSlots_regs {tok : CStr} {fs : List (Instr → Instr)} (h : pseudoSlots line tok os = .ok fs) :
    (fs = [] ∧ registerTokens tok os = (formatOf (parseOp tok)).registers os) ∨
      SlotsFrom line (registerTokens tok os) fs := by
  have htok {w : String} (hw : String.ofList tok = w) : tok = w.toList := by rw [← hw, String.toList_ofList]
  unfold pseudoSlots at h
  split at h
  · next heq =>
    obtain rfl := htok heq
    split at h
    · next h1 _ _ => exact .inr (by simpa [registerTokens, h1] using liSlots_regs h)
    · cases h
  · next heq =>
    obtain rfl := htok heq
    split at h
    · next h1 _ _ => exact .inr (by simpa [registerTokens, h1] using laSlots_regs h)
    · cases h
  · next heq =>
    obtain rfl := htok heq
    split at h
    · cases h
    · obtain rfl := Except.ok.inj h
      refine .inr ⟨List.cons_ne_nil _ _, List.forall_mem_singleton.mpr ⟨.JALR, by decide, fun i => ?_⟩⟩
      exact .of_map [] rfl rfl (by simp [regsOf, retSlot, Operand.ofReg, Operand.ofImm]) (by simp)
  · next heq =>
    obtain rfl := htok heq
    split at h
    · obtain rfl := Except.ok.inj h
      refine .inr ⟨List.cons_ne_nil _ _, List.forall_mem_singleton.mpr ⟨.JAL, by decide, fun i => ?_⟩⟩
      exact .of_map [] rfl rfl (by simp [regsOf, jSlot, Operand.ofReg, Operand.ofLabel]) (by simp)
    · cases h
  · next heq =>
    obtain rfl := htok heq
    split at h
    · next h1 h2 _ => exact .inr (by simpa [registerTokens, h1, h2] using mvSlots_regs h)
    · cases h
  · next heq =>
    obtain rfl := htok heq
    split at h
    · next h1 _ _ => exact .inr (by simpa [registerTokens, h1] using branchZeroSlots_regs (by decide) h)
    · cases h
  · next heq =>
    obtain rfl := htok heq
    split at h
    · next h1 _ _ => exact .inr (by simpa [registerTokens, h1] using branchZeroSlots_regs (by decide) h)
    · cases h
  · next hli hla hret hj hmv hbnez hbeqz =>
    refine .inl ⟨(Except.ok.inj h).symm, ?_⟩
    unfold registerTokens
    split <;> first | rfl | (exfalso; tauto)

/-- **The slots of a line** have the registers of its operands, and its operation or one of a pseudo-instruction. -/
theorem lineSlots_from {tok : CStr} {fs : List (Instr → Instr)} (h : lineSlots line tok os = .ok fs) :
    ∀ f ∈ fs, ∃ op, (op = parseOp tok ∨ op ∈ pseudoOps) ∧ ∀ i, SlotFrom line op (registerTokens tok os) i (f i) := by
  obtain ⟨ps, hps, h⟩ := Except.bind_eq_ok.mp h
  split at h
  · next hpos =>
    obtain rfl := Except.ok.inj h
    rcases pseudoSlots_regs hps with ⟨rfl, -⟩ | hall
    · exact absurd hpos (Nat.lt_irrefl 0)
    · intro f hf
      obtain ⟨op, hop, hslot⟩ := hall.2 f hf
      exact ⟨op, .inr hop, hslot⟩
  · next hpos =>
    obtain rfl := List.eq_nil_of_length_eq_zero (Nat.eq_zero_of_not_pos hpos)
    obtain ⟨i0, hi0, h⟩ := Except.bind_eq_ok.mp h
    obtain rfl := Except.ok.inj h
    have hts : registerTokens tok os = (formatOf (parseOp tok)).registers os := by
      rcases pseudoSlots_regs hps with ⟨-, hts⟩ | hall
      · exact hts
      · exact absurd rfl hall.1
    refine List.forall_mem_singleton.mpr ⟨parseOp tok, .inl rfl, fun i => ?_⟩
    have hi := parseOperands_eq line tok os i
    rw [hi0, parseOperands_format] at hi
    rw [hts]
    have hr := Format.slotFrom hi
    exact ⟨⟨hr.sound, hr.complete⟩, hr.op_eq⟩

end Slots

/-! ## What the instruction memory holds -/

/-- A register index that `rf[32]` has. -/
def InFile (r : Int) : Prop := 0 ≤ r ∧ r ≤ 31

/-- `atoi` reads 32 behind the `x`. -/
def ReadsAs32 (tok : CStr) : Prop := ∃ ds, tok = 'x' :: ds ∧ atoi ds = 32

def AllRegs (m : Imem) : Prop := ∀ k, ∀ r ∈ regsOf (m.code k), InFile r

/-- The register operands of a statement. -/
def Stmt.registers : Stmt → List CStr
  | .instr tok rest => registerTokens tok (Operands.read rest)
  | _ => []

theorem inFile_iff {line : Nat} {tok : CStr} {r : Int} (h : parseReg line tok = .ok r) :
    InFile r ↔ ¬ ReadsAs32 tok := by
  unfold InFile
  by_cases hx : ∃ ds, tok = 'x' :: ds
  · obtain ⟨ds, rfl⟩ := hx
    have hread : ReadsAs32 ('x' :: ds) ↔ atoi ds = 32 := by simp [ReadsAs32]
    rw [parseReg_x] at h
    split at h
    · cases h
    · obtain rfl := Except.ok.inj h
      rw [hread]
      omega
  · rw [not_exists] at hx
    refine iff_of_true ?_ fun ⟨ds, hds, _⟩ => hx ds hds
    rw [parseReg_abi line hx] at h
    split at h
    · next n hn =>
      obtain rfl := Except.ok.inj h
      have hlt : n < abiNames.length := by
        obtain ⟨hlt, -⟩ := List.idxOf?_eq_some_iff.mp hn
        exact hlt
      have hlen : abiNames.length = 32 := rfl
      omega
    · cases h

section Runs

variable {cfg : Config} {s t : State} {p : Nat × Stmt}

/-- The slots of the statement satisfy `P` where they did. -/
def KeepsCode (P : Instr → Prop) (p : Nat × Stmt) : Prop :=
  ∀ tok rest fs, p.2 = .instr tok rest → lineSlots p.1 tok (Operands.read rest) = .ok fs → ∀ f ∈ fs, ∀ i, P i → P (f i)

theorem forall_code_exec {P : Instr → Prop} (h : exec cfg s p = .ok t) (hp : KeepsCode P p)
    (hs : ∀ k, P (s.imem.code k)) (k : Nat) : P (t.imem.code k) := by
  by_cases hi : p.2.IsInstr
  · obtain ⟨line, name | ⟨tok, rest⟩ | ⟨tok, rest⟩⟩ := p
    · cases hi
    · cases hi
    obtain ⟨⟨m, c⟩, hm, h⟩ := Except.bind_eq_ok.mp h
    obtain ⟨mem, -, h⟩ := Except.bind_eq_ok.mp h
    obtain rfl := Except.ok.inj h
    rw [parseInstr_eq] at hm
    split at hm
    · cases hm
    obtain ⟨fs, hfs, hw, -⟩ := rewrite_eq_ok hm
    by_cases hk : k < s.memoff / 4 ∨ s.memoff / 4 + fs.length ≤ k
    · rw [writeSlots_frame hw hk]
      exact hs k
    · obtain ⟨j, hj, rfl⟩ : ∃ j < fs.length, k = s.memoff / 4 + j := ⟨k - s.memoff / 4, by omega, by omega⟩
      rw [writeSlots_code hw hj]
      exact hp tok rest fs rfl hfs _ (List.getElem_mem hj) _ (hs _)
  · rw [code_of_not_instr h hi]
    exact hs k

/-- **Every slot.** What the statements keep of the slots they write stays true of the instruction memory. -/
theorem forall_code_run {P : Instr → Prop} {ps : List (Nat × Stmt)} (h : ps.foldlM (exec cfg) s = .ok t)
    (hp : ∀ p ∈ ps, KeepsCode P p) (hs : ∀ k, P (s.imem.code k)) : ∀ k, P (t.imem.code k) := by
  induction ps generalizing s with
  | nil =>
    obtain rfl := Except.ok.inj h
    exact hs
  | cons p ps ih =>
    obtain ⟨u, hu, h⟩ := Except.bind_eq_ok.mp h
    rw [List.forall_mem_cons] at hp
    exact ih h hp.2 (forall_code_exec hu hp.1 hs)

/-- What holds of 0, 1 and every register a statement reads stays true of every register in the slots. -/
theorem keepsCode_regs {P : Int → Prop} (h0 : P 0) (h1 : P 1)
    (hread : ∀ tok ∈ p.2.registers, ∀ r, parseReg p.1 tok = .ok r → P r) :
    KeepsCode (fun i => ∀ r ∈ regsOf i, P r) p := by
  obtain ⟨line, st⟩ := p
  rintro tok rest fs rfl hfs f hf i hi r hr
  obtain ⟨op, -, hslot⟩ := lineSlots_from hfs f hf
  rcases (hslot i).sound r hr with hold | rfl | rfl | ⟨tk, htk, hp⟩
  · exact hi r hold
  · exact h0
  · exact h1
  · exact hread tk htk r hp

/-- One statement keeps the registers in range exactly when none of its operands reads as 32. -/
theorem allRegs_exec (h : exec cfg s p = .ok t) (hs : AllRegs s.imem) :
    AllRegs t.imem ↔ ∀ tok ∈ p.2.registers, ¬ ReadsAs32 tok := by
  constructor
  · intro hall
    obtain ⟨line, name | ⟨tok, rest⟩ | ⟨tok, rest⟩⟩ := p
    · exact fun tok ht => by cases ht
    · exact fun tok ht => by cases ht
    · obtain ⟨⟨m, c⟩, hm, h⟩ := Except.bind_eq_ok.mp h
      obtain ⟨mem, -, h⟩ := Except.bind_eq_ok.mp h
      obtain rfl := Except.ok.inj h
      rw [parseInstr_eq] at hm
      split at hm
      · cases hm
      obtain ⟨fs, hfs, hw, -⟩ := rewrite_eq_ok hm
      have hpos : 0 < fs.length := (length_lineSlots hfs).symm ▸ slots_pos tok
      intro tk htk
      have hslot := writeSlots_code hw hpos
      obtain ⟨op, -, hfrom⟩ := lineSlots_from hfs fs[0] (List.getElem_mem hpos)
      obtain ⟨r, hr, hp⟩ := (hfrom (s.imem.code (s.memoff / 4 + 0))).complete tk htk
      exact (inFile_iff hp).mp (hall _ r (hslot ▸ hr))
  · intro hall
    exact forall_code_exec h (keepsCode_regs ⟨by decide, by decide⟩ ⟨by decide, by decide⟩
      fun tok ht r hr => (inFile_iff hr).mpr (hall tok ht)) hs

theorem foldlM_snoc {ps : List (Nat × Stmt)} : (ps ++ [p]).foldlM (exec cfg) s = .ok t ↔
    ∃ u, ps.foldlM (exec cfg) s = .ok u ∧ exec cfg u p = .ok t := by
  rw [List.foldlM_append, Except.bind_eq_ok]
  simp only [List.foldlM_cons, List.foldlM_nil, bind_pure]

/-- Every register index that the first pass stores, at any time, is in range. -/
def RegsStored (cfg : Config) (file : List Char) : Prop :=
  ∀ ps qs s, statements file = ps ++ qs → ps.foldlM (exec cfg) (State.init cfg) = .ok s → AllRegs s.imem

theorem regsStored_iff (cfg : Config) (file : List Char) :
    RegsStored cfg file ↔ ∀ ps p qs, statements file = ps ++ p :: qs → Accepted cfg (ps ++ [p]) →
      ∀ tok ∈ p.2.registers, ¬ ReadsAs32 tok := by
  constructor
  · rintro h ps p qs hst ⟨t, ht⟩
    obtain ⟨s, hs, hp⟩ := foldlM_snoc.mp ht
    refine (allRegs_exec hp (h ps (p :: qs) s hst hs)).mp ?_
    exact h (ps ++ [p]) qs t (by rw [hst, List.append_assoc]; rfl) ht
  · intro h ps
    induction ps using List.reverseRecOn with
    | nil =>
      intro qs s _ hs k r hr
      obtain rfl := Except.ok.inj hs
      have h0 : r = 0 := by simpa [State.init, regsOf] using hr
      rw [h0]
      exact ⟨by decide, by decide⟩
    | append_singleton ps p ih =>
      intro qs t hst ht
      have hst' : statements file = ps ++ p :: qs := by rw [hst, List.append_assoc]; rfl
      obtain ⟨s, hs, hp⟩ := foldlM_snoc.mp ht
      exact (allRegs_exec hp (ih (p :: qs) s hst' hs)).mpr (h ps p qs hst' ⟨t, ht⟩)

end Runs

/-! ## What the CPU reads -/

theorem normalizeInstr_regs {labels : List LabelLoc} {k : Nat} {i i' : Instr}
    (h : normalizeInstr labels k i = .ok i') : regsOf i' = regsOf i := by
  rw [normalizeInstr_eq] at h
  obtain ⟨i1, h1, h⟩ := Except.bind_eq_ok.mp h
  obtain ⟨i2, h2, h3⟩ := Except.bind_eq_ok.mp h
  obtain ⟨o1, ho1, rfl⟩ := resolveA1_eq_ok h1
  obtain ⟨o2, ho2, -, rfl⟩ := resolveA2_eq_ok h2
  obtain ⟨o3, ho3, -, rfl⟩ := resolveA3_eq_ok h3
  simp only [regsOf, ho1, ho2, ho3]

/-- An instruction whose registers are in range accesses no other cell of `rf`. -/
theorem processInstr_ne_registerIndex {i : Instr} (h : ∀ r ∈ regsOf i, InFile r) (port : Port) (s : Cpu.State) :
    Cpu.processInstr port i s ≠ .error .registerIndex := by
  have hidx {r : Int} (hr : InFile r) : Faults (· ≠ .registerIndex) (regIndex r) := by
    obtain ⟨h0, h31⟩ := hr
    intro e he
    unfold regIndex at he
    rw [dif_pos (by omega)] at he
    cases he
  have hw : i.Within (· ≠ .registerIndex) :=
    ⟨hidx (h _ (by simp [regsOf])), hidx (h _ (by simp [regsOf])), hidx (h _ (by simp [regsOf])), by decide⟩
  intro he
  have hf : Faults (· ≠ .registerIndex) (Cpu.processInstr port i s) :=
    (Cpu.execute_within hw s.pc s.rf).bind fun _ => .ok _
  exact hf _ he rfl

/-- The registers of a source are in range: every index that is stored, and with it every access of `rf`. -/
def RegsInRange (cfg : Config) (file : List Char) : Prop :=
  RegsStored cfg file ∧ ∀ imem mem, assemble cfg file = .ok (imem, mem) →
    ∀ k < imem.size, ∀ port s, Cpu.processInstr port (imem.code k) s ≠ .error .registerIndex

/-- **Register operands.** A token is read exactly but for the numbers that `atoi` makes of other texts and for 32,
and the registers of a source are in range exactly when no operand that is accepted reads as 32. -/
theorem registers_iff (tok : CStr) (cfg : Config) (file : List Char) :
    (RegExact tok ↔ ∀ ds, tok = 'x' :: ds → ExactNumber ds ∨ atoi ds < 0 ∨ 32 < atoi ds) ∧
      (RegsInRange cfg file ↔ ∀ ps p qs, statements file = ps ++ p :: qs → Accepted cfg (ps ++ [p]) →
        ∀ t ∈ p.2.registers, ¬ ReadsAs32 t) := by
  refine ⟨regExact_iff tok, ?_⟩
  rw [← regsStored_iff]
  refine ⟨fun h => h.1, fun h => ⟨h, fun imem mem ha k hk port s => ?_⟩⟩
  obtain ⟨st, hst, ha⟩ := Except.bind_eq_ok.mp ha
  obtain ⟨m, hm, ha⟩ := Except.bind_eq_ok.mp ha
  obtain ⟨rfl, -⟩ := Prod.mk.inj (Except.ok.inj ha)
  have hall : AllRegs st.imem := h (statements file) [] st (List.append_nil _).symm (parse_eq cfg file ▸ hst)
  have hres := normalizeLabels_resolved hm (k := k) ((normalizeFrom_resolved hm).1 ▸ hk)
  have hregs : regsOf (m.code k) = regsOf (st.imem.code k) := by
    unfold Resolved at hres
    split at hres
    · rw [hres]
    · exact normalizeInstr_regs hres
  exact processInstr_ne_registerIndex (fun r hr => hall k r (hregs ▸ hr)) port s

/-- `x32` is read as a register, and its index is stored. -/
theorem not_regExact_x32 : ¬ (∀ tok, RegExact tok) ∧ ¬ ∀ cfg file, RegsInRange cfg file := by
  constructor
  · intro h
    obtain ⟨n, hn, -⟩ := (h "x32".toList 0 32).mp (by decide)
    have hname : regName "x32".toList = none := by decide
    rw [hname] at hn
    cases hn
  · intro h
    have hreg : (parse {} "add x32, x0, x0\n".toList).toOption.map (fun s => (s.imem.code 0).a1.reg) = some 32 := by
      decide +kernel
    cases hp : parse {} "add x32, x0, x0\n".toList with
    | error e =>
      rw [hp] at hreg
      cases hreg
    | ok s =>
      rw [hp] at hreg
      have hall := (h {} "add x32, x0, x0\n".toList).1 _ [] s (List.append_nil _).symm (parse_eq _ _ ▸ hp)
      have hrd : (s.imem.code 0).a1.reg = 32 := Option.some.inj hreg
      have h0 : InFile (s.imem.code 0).a1.reg := hall 0 _ List.mem_cons_self
      rw [hrd] at h0
      exact absurd h0.2 (by decide)

end SocModel.Asm
