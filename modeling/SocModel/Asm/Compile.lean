import SocModel.Asm.Denote
import SocModel.Asm.Labels

/-!
# The assembler as a compiler

The instructions that both passes leave for a line are those of the command that it means, so that the instruction memory
holds the program of the source.

* `FirstPass` : what the first pass makes of a line, `firstPass_of_denote` : for every mnemonic;
* `FirstPass.stored` : what the second pass makes of that;
* `programOf` : the program of a source, `assembled_source` : it is in the instruction memory.
-/

namespace SocModel.Asm

open Lib
open Rv32i (Cmd Inst Slot Program)

/-! ## The first pass -/

/-- No operand is a label. -/
structure Unlabelled (i : Instr) : Prop where
  a1 : i.a1.type ≠ .label
  a2 : i.a2.type ≠ .label
  a3 : i.a3.type ≠ .label

/-- A branch to a label. -/
structure BranchTo (i : Instr) (o : Rv32i.Cond) (rs1 rs2 : Rv32i.Reg) (name : CStr) : Prop where
  op : i.op = o.type
  rs1 : i.a1.reg = rs1.toNat
  rs2 : i.a2.reg = rs2.toNat
  type : i.a3.type = .label
  label : i.a3.label = copyLabel name

/-- A jump to a label. -/
structure JalTo (i : Instr) (rd : Rv32i.Reg) (name : CStr) : Prop where
  op : i.op = .JAL
  rd : i.a1.reg = rd.toNat
  type : i.a2.type = .label
  label : i.a2.label = copyLabel name

/-- The two instructions of a constant, with the numbers in them. -/
structure ConstPair (i i' : Instr) (rd : Rv32i.Reg) (v : Word) : Prop where
  lui : i.op = .LUI
  luiRd : i.a1.reg = rd.toNat
  luiImm : i.a2.imm = v >>> 12
  addi : i'.op = .ADDI
  addiRd : i'.a1.reg = rd.toNat
  addiRs : i'.a2.reg = rd.toNat
  addiImm : i'.a3.imm = v &&& 0xFFF

/-- What the first pass leaves in new slots for a line that means something. -/
inductive FirstPass (label : CStr → Option Word) : List Instr → Slot Cmd → Prop where
  | inst {i : Instr} {x : Inst} (hl : Unlabelled i) (hd : ∀ pc, Denotes pc i x) : FirstPass label [i] (.inst (.inst x))
  | halt {i : Instr} (hop : i.op = .HCF) : FirstPass label [i] .halt
  | branch {i : Instr} {o : Rv32i.Cond} {rs1 rs2 : Rv32i.Reg} {name : CStr} {v : Word} (hi : BranchTo i o rs1 rs2 name)
    (hv : label name = some v) : FirstPass label [i] (.inst (.branch o rs1 rs2 v))
  | jal {i : Instr} {rd : Rv32i.Reg} {name : CStr} {v : Word} (hi : JalTo i rd name) (hv : label name = some v) :
    FirstPass label [i] (.inst (.jal rd v))
  | const {i i' : Instr} {rd : Rv32i.Reg} {v : Word} (hl : Unlabelled i) (hl' : Unlabelled i') (hi : ConstPair i i' rd v) :
    FirstPass label [i, i'] (.inst (.const rd v))
  | address {i i' : Instr} {rd : Rv32i.Reg} {name : CStr} {v : Word} (hi : LaPair i i' rd.toNat name)
    (hv : label name = some v) : FirstPass label [i, i'] (.inst (.const rd v))

/-- The slot of an operation before its operands are read. -/
def newSlot (line : Nat) (op : InstrType) : Instr := { op, origLine := line }

section

variable {label : CStr → Option Word} {line : Nat} {tok a b c : CStr} {os : Operands} {i i' : Instr} {rd rs1 rs2 : Rv32i.Reg}
  {fs : List (Instr → Instr)}

/-! ### The operands -/

theorem reg_eq {r : Int} (h : register a = some rd) (hr : parseReg line a = .ok r) : r = rd.toNat :=
  Except.ok.inj (hr.symm.trans (parseReg_register h))

theorem operandsRRR_eq (msg : String) (h1 : register a = some rd) (h2 : register b = some rs1) (h3 : register c = some rs2)
    (h : operandsRRR line msg i ⟨some a, some b, some c, none⟩ = .ok i') :
    i' = { i with a1.reg := rd.toNat, a2.reg := rs1.toNat, a3.reg := rs2.toNat } := by
  obtain ⟨r1, hr1, h⟩ := Except.bind_eq_ok.mp h
  obtain ⟨r2, hr2, h⟩ := Except.bind_eq_ok.mp h
  obtain ⟨r3, hr3, h⟩ := Except.bind_eq_ok.mp h
  obtain rfl := reg_eq h1 hr1
  obtain rfl := reg_eq h2 hr2
  obtain rfl := reg_eq h3 hr3
  exact (Except.ok.inj h).symm

theorem operandsRRI_eq (h1 : register a = some rd) (h2 : register b = some rs1)
    (h : operandsRRI line i ⟨some a, some b, some c, none⟩ = .ok i') : ∃ w, parseImm line c 12 = .ok w ∧
      i' = { i with a1.reg := rd.toNat, a2.reg := rs1.toNat, a3.imm := signextend w 12 } := by
  obtain ⟨r1, hr1, h⟩ := Except.bind_eq_ok.mp h
  obtain ⟨r2, hr2, h⟩ := Except.bind_eq_ok.mp h
  obtain ⟨w, hw, h⟩ := Except.bind_eq_ok.mp h
  obtain rfl := reg_eq h1 hr1
  obtain rfl := reg_eq h2 hr2
  exact ⟨w, hw, (Except.ok.inj h).symm⟩

theorem operandsMem_eq {imm : BitVec 12} (h1 : register a = some rd) (h2 : offset b = some (rs1, imm))
    (h : operandsMem line i ⟨some a, some b, none, none⟩ = .ok i') :
    i' = { i with a1.reg := rd.toNat, a2.reg := rs1.toNat, a3.imm := imm.signExtend 32 } := by
  obtain ⟨r1, hr1, h⟩ := Except.bind_eq_ok.mp h
  obtain ⟨⟨r, w⟩, hm, h⟩ := Except.bind_eq_ok.mp h
  obtain rfl := reg_eq h1 hr1
  obtain ⟨rfl, rfl⟩ := parseMem_offset h2 hm
  exact (Except.ok.inj h).symm

theorem operandsUpper_eq (h1 : register a = some rd) (h : operandsUpper line i ⟨some a, some b, none, none⟩ = .ok i') :
    ∃ w, parseImm line b 20 = .ok w ∧ i' = { i with a1.reg := rd.toNat, a2.imm := w } := by
  obtain ⟨r1, hr1, h⟩ := Except.bind_eq_ok.mp h
  obtain ⟨w, hw, h⟩ := Except.bind_eq_ok.mp h
  obtain rfl := reg_eq h1 hr1
  exact ⟨w, hw, (Except.ok.inj h).symm⟩

theorem operandsBranch_eq (h1 : register a = some rs1) (h2 : register b = some rs2)
    (h : operandsBranch line i ⟨some a, some b, some c, none⟩ = .ok i') :
    i' = { i with a1.reg := rs1.toNat, a2.reg := rs2.toNat, a3 := Operand.ofLabel i.a3 c } := by
  obtain ⟨r1, hr1, h⟩ := Except.bind_eq_ok.mp h
  obtain ⟨r2, hr2, h⟩ := Except.bind_eq_ok.mp h
  obtain rfl := reg_eq h1 hr1
  obtain rfl := reg_eq h2 hr2
  exact (Except.ok.inj h).symm

theorem operandsJal_eq (h1 : register a = some rd) (h : operandsJal line i ⟨some a, some b, none, none⟩ = .ok i') :
    i' = { i with a1 := Operand.ofReg i.a1 rd.toNat, a2 := Operand.ofLabel i.a2 b } := by
  obtain ⟨r1, hr1, h⟩ := Except.bind_eq_ok.mp h
  obtain rfl := reg_eq h1 hr1
  exact (Except.ok.inj h).symm

/-! ### Mnemonics that are operations -/

theorem pseudoSlots_of_not_mem (h : String.ofList tok ∉ pseudoNames) : pseudoSlots line tok os = .ok [] := by
  simp only [pseudoNames, List.mem_cons, List.not_mem_nil, or_false, not_or] at h
  unfold pseudoSlots
  split <;> first | rfl | (exfalso; tauto)

/-- The slot of a line whose mnemonic is an operation. -/
theorem lineSlots_plain {mn : Mnemonic} {t : InstrType} (hmn : (String.ofList tok, mn) ∈ mnemonics) (ht : mn.type = some t)
    (h : lineSlots line tok os = .ok fs) :
    ∃ i, fs.map (· {}) = [i] ∧ (formatOf t).operands line (newSlot line t) os = .ok i := by
  obtain ⟨hop, hname⟩ := mnemonics_plain _ hmn t ht
  dsimp only at hop hname
  rw [String.toList_ofList] at hop
  subst hop
  unfold lineSlots at h
  rw [pseudoSlots_of_not_mem hname] at h
  obtain ⟨ps, hps, h⟩ := Except.bind_eq_ok.mp h
  obtain rfl := Except.ok.inj hps
  rw [if_neg (show ¬ ([] : List (Instr → Instr)).length > 0 from Nat.lt_irrefl 0)] at h
  obtain ⟨i, hi, h⟩ := Except.bind_eq_ok.mp h
  obtain rfl := Except.ok.inj h
  have hnew := parseOperands_eq line tok os {}
  rw [hi] at hnew
  refine ⟨i, congrArg (fun x => [x]) (Except.ok.inj hnew).symm, ?_⟩
  rw [parseOperands_format] at hi
  exact hi

theorem firstPass_op {o : Rv32i.Op} {x : Slot Cmd} (hmn : (String.ofList tok, .op o) ∈ mnemonics)
    (hx : (Mnemonic.op o).meaning label os = some x) (h : lineSlots line tok os = .ok fs) :
    FirstPass label (fs.map (· {})) x := by
  obtain ⟨a, b, c, rfl, hx⟩ := three_eq_some hx
  obtain ⟨rd, h1, hx⟩ := Option.bind_eq_some_iff.mp hx
  obtain ⟨rs1, h2, hx⟩ := Option.bind_eq_some_iff.mp hx
  obtain ⟨rs2, h3, hx⟩ := Option.bind_eq_some_iff.mp hx
  obtain rfl := Option.some.inj hx
  obtain ⟨i, hi, h⟩ := lineSlots_plain hmn rfl h
  rw [show formatOf o.type = .rrr "Invalid format" by cases o <;> rfl] at h
  obtain rfl := operandsRRR_eq "Invalid format" h1 h2 h3 h
  rw [hi]
  exact .inst ⟨nofun, nofun, nofun⟩ fun pc => ⟨rfl, rfl, rfl, rfl⟩

theorem firstPass_opImm {o : Rv32i.OpImm} {x : Slot Cmd} (hmn : (String.ofList tok, .opImm o) ∈ mnemonics)
    (hx : (Mnemonic.opImm o).meaning label os = some x) (h : lineSlots line tok os = .ok fs) :
    FirstPass label (fs.map (· {})) x := by
  obtain ⟨a, b, c, rfl, hx⟩ := three_eq_some hx
  obtain ⟨rd, h1, hx⟩ := Option.bind_eq_some_iff.mp hx
  obtain ⟨rs1, h2, hx⟩ := Option.bind_eq_some_iff.mp hx
  obtain ⟨imm, h3, hx⟩ := Option.bind_eq_some_iff.mp hx
  obtain rfl := Option.some.inj hx
  obtain ⟨i, hi, h⟩ := lineSlots_plain hmn rfl h
  rw [show formatOf o.type = .rri by cases o <;> rfl] at h
  obtain ⟨w, hw, rfl⟩ := operandsRRI_eq h1 h2 h
  rw [hi]
  exact .inst ⟨nofun, nofun, nofun⟩ fun pc => ⟨rfl, rfl, rfl, (parseImm_immediate h3 hw).2⟩

theorem firstPass_shiftImm {o : Rv32i.ShiftImm} {x : Slot Cmd} (hmn : (String.ofList tok, .shiftImm o) ∈ mnemonics)
    (hx : (Mnemonic.shiftImm o).meaning label os = some x) (h : lineSlots line tok os = .ok fs) :
    FirstPass label (fs.map (· {})) x := by
  obtain ⟨a, b, c, rfl, hx⟩ := three_eq_some hx
  obtain ⟨rd, h1, hx⟩ := Option.bind_eq_some_iff.mp hx
  obtain ⟨rs1, h2, hx⟩ := Option.bind_eq_some_iff.mp hx
  obtain ⟨shamt, h3, hx⟩ := Option.bind_eq_some_iff.mp hx
  obtain rfl := Option.some.inj hx
  obtain ⟨i, hi, h⟩ := lineSlots_plain hmn rfl h
  rw [show formatOf o.type = .rri by cases o <;> rfl] at h
  obtain ⟨w, hw, rfl⟩ := operandsRRI_eq h1 h2 h
  rw [hi]
  exact .inst ⟨nofun, nofun, nofun⟩ fun pc => ⟨rfl, rfl, rfl, parseImm_amount h3 hw⟩

theorem firstPass_upper {mn : Mnemonic} {t : InstrType} {f : Rv32i.Reg → BitVec 20 → Inst} {x : Slot Cmd}
    (hmn : (String.ofList tok, mn) ∈ mnemonics) (ht : mn.type = some t) (hformat : formatOf t = .upper)
    (hx : (os.two fun d t => do
      let rd ← register d
      let imm ← upper t
      return Slot.inst (Cmd.inst (f rd imm))) = some x)
    (hd : ∀ (rd : Rv32i.Reg) imm (i : Instr) pc, i.op = t → i.a1.reg = rd.toNat → i.a2.imm <<< 12 = imm ++ 0#12 →
      Denotes pc i (f rd imm)) (h : lineSlots line tok os = .ok fs) : FirstPass label (fs.map (· {})) x := by
  obtain ⟨a, b, rfl, hx⟩ := two_eq_some hx
  obtain ⟨rd, h1, hx⟩ := Option.bind_eq_some_iff.mp hx
  obtain ⟨imm, h2, hx⟩ := Option.bind_eq_some_iff.mp hx
  obtain rfl := Option.some.inj hx
  obtain ⟨i, hi, h⟩ := lineSlots_plain hmn ht h
  rw [hformat] at h
  obtain ⟨w, hw, rfl⟩ := operandsUpper_eq h1 h
  rw [hi]
  exact .inst ⟨nofun, nofun, nofun⟩ fun pc => hd rd imm _ pc rfl rfl (parseImm_upper h2 hw)

/-- Loads, stores and `jalr`. -/
theorem firstPass_mem {mn : Mnemonic} {t : InstrType} {f : Rv32i.Reg → Rv32i.Reg → BitVec 12 → Inst} {x : Slot Cmd}
    (hmn : (String.ofList tok, mn) ∈ mnemonics) (ht : mn.type = some t) (hformat : formatOf t = .mem)
    (hx : (os.two fun d t => do
      let rd ← register d
      let (rs1, imm) ← offset t
      return Slot.inst (Cmd.inst (f rd rs1 imm))) = some x)
    (hd : ∀ (rd rs1 : Rv32i.Reg) imm (i : Instr) pc, i.op = t → i.a1.reg = rd.toNat → i.a2.reg = rs1.toNat →
      i.a3.imm = imm.signExtend 32 → Denotes pc i (f rd rs1 imm)) (h : lineSlots line tok os = .ok fs) :
    FirstPass label (fs.map (· {})) x := by
  obtain ⟨a, b, rfl, hx⟩ := two_eq_some hx
  obtain ⟨rd, h1, hx⟩ := Option.bind_eq_some_iff.mp hx
  obtain ⟨⟨rs1, imm⟩, h2, hx⟩ := Option.bind_eq_some_iff.mp hx
  obtain rfl := Option.some.inj hx
  obtain ⟨i, hi, h⟩ := lineSlots_plain hmn ht h
  rw [hformat] at h
  obtain rfl := operandsMem_eq h1 h2 h
  rw [hi]
  exact .inst ⟨nofun, nofun, nofun⟩ fun pc => hd rd rs1 imm _ pc rfl rfl rfl rfl

theorem firstPass_branch {o : Rv32i.Cond} {x : Slot Cmd} (hmn : (String.ofList tok, .branch o) ∈ mnemonics)
    (hx : (Mnemonic.branch o).meaning label os = some x) (h : lineSlots line tok os = .ok fs) :
    FirstPass label (fs.map (· {})) x := by
  obtain ⟨a, b, c, rfl, hx⟩ := three_eq_some hx
  obtain ⟨rs1, h1, hx⟩ := Option.bind_eq_some_iff.mp hx
  obtain ⟨rs2, h2, hx⟩ := Option.bind_eq_some_iff.mp hx
  obtain ⟨v, hv, hx⟩ := Option.bind_eq_some_iff.mp hx
  obtain rfl := Option.some.inj hx
  obtain ⟨i, hi, h⟩ := lineSlots_plain hmn rfl h
  rw [show formatOf o.type = .branch by cases o <;> rfl] at h
  obtain rfl := operandsBranch_eq h1 h2 h
  rw [hi]
  exact .branch ⟨rfl, rfl, rfl, rfl, rfl⟩ hv

theorem firstPass_jal {x : Slot Cmd} (hmn : (String.ofList tok, .jal) ∈ mnemonics)
    (hx : Mnemonic.jal.meaning label os = some x) (h : lineSlots line tok os = .ok fs) :
    FirstPass label (fs.map (· {})) x := by
  obtain ⟨i, hi, h⟩ := lineSlots_plain hmn rfl h
  rw [hi]
  rcases Option.or_eq_some_iff.mp hx with hx | ⟨-, hx⟩
  · obtain ⟨a, b, rfl, hx⟩ := two_eq_some hx
    obtain ⟨rd, h1, hx⟩ := Option.bind_eq_some_iff.mp hx
    obtain ⟨v, hv, hx⟩ := Option.bind_eq_some_iff.mp hx
    obtain rfl := Option.some.inj hx
    obtain rfl := operandsJal_eq h1 h
    exact .jal ⟨rfl, rfl, rfl, rfl⟩ hv
  · -- a label alone links in `ra`
    obtain ⟨a, rfl, hx⟩ := one_eq_some hx
    obtain ⟨v, hv, hx⟩ := Option.bind_eq_some_iff.mp hx
    obtain rfl := Option.some.inj hx
    obtain rfl := Except.ok.inj h
    exact .jal ⟨rfl, rfl, rfl, rfl⟩ hv

theorem firstPass_hcf {x : Slot Cmd} (hmn : (String.ofList tok, .hcf) ∈ mnemonics)
    (hx : Mnemonic.hcf.meaning label os = some x) (h : lineSlots line tok os = .ok fs) :
    FirstPass label (fs.map (· {})) x := by
  obtain ⟨rfl, rfl⟩ := zero_eq_some hx
  obtain ⟨i, hi, h⟩ := lineSlots_plain hmn rfl h
  obtain rfl := Except.ok.inj h
  rw [hi]
  exact .halt rfl

/-! ### Pseudo-instructions -/

theorem signExtend_zero : (0 : BitVec 12).signExtend 32 = 0 := by decide

/-- The slots of a line whose mnemonic is a pseudo-instruction. -/
theorem lineSlots_pseudo {gs : List (Instr → Instr)} (hp : pseudoSlots line tok os = .ok gs) (hne : gs ≠ [])
    (h : lineSlots line tok os = .ok fs) : fs = gs := by
  unfold lineSlots at h
  rw [hp] at h
  obtain ⟨ps, hps, h⟩ := Except.bind_eq_ok.mp h
  obtain rfl := Except.ok.inj hps
  rw [if_pos (List.length_pos_of_ne_nil hne)] at h
  exact (Except.ok.inj h).symm

theorem firstPass_li {x : Slot Cmd} (hx : Mnemonic.li.meaning label os = some x)
    (h : lineSlots line "li".toList os = .ok fs) : FirstPass label (fs.map (· {})) x := by
  obtain ⟨a, b, rfl, hx⟩ := two_eq_some hx
  obtain ⟨rd, h1, hx⟩ := Option.bind_eq_some_iff.mp hx
  obtain ⟨v, h2, hx⟩ := Option.bind_eq_some_iff.mp hx
  obtain rfl := Option.some.inj hx
  obtain ⟨n, hn, rfl⟩ := Option.map_eq_some_iff.mp h2
  obtain ⟨hlit, hlo, hhi⟩ := numberIn_eq_some.mp hn
  have hslots : liSlots line a b = _ := liSlots_eq (parseReg_register h1) hlit
  rw [if_pos ⟨hlo, by omega⟩] at hslots
  have hp : pseudoSlots line "li".toList ⟨some a, some b, none, none⟩ = liSlots line a b := rfl
  obtain rfl := lineSlots_pseudo (hp.trans hslots) (List.cons_ne_nil _ _) h
  exact .const ⟨nofun, nofun, nofun⟩ ⟨nofun, nofun, nofun⟩ ⟨rfl, rfl, rfl, rfl, rfl, rfl, rfl⟩

theorem firstPass_la {x : Slot Cmd} (hx : Mnemonic.la.meaning label os = some x)
    (h : lineSlots line "la".toList os = .ok fs) : FirstPass label (fs.map (· {})) x := by
  obtain ⟨a, b, rfl, hx⟩ := two_eq_some hx
  obtain ⟨rd, h1, hx⟩ := Option.bind_eq_some_iff.mp hx
  obtain ⟨v, hv, hx⟩ := Option.bind_eq_some_iff.mp hx
  obtain rfl := Option.some.inj hx
  have hslots : laSlots line a b = .ok _ := Except.bind_eq_ok.mpr ⟨_, parseReg_register h1, rfl⟩
  have hp : pseudoSlots line "la".toList ⟨some a, some b, none, none⟩ = laSlots line a b := rfl
  obtain rfl := lineSlots_pseudo (hp.trans hslots) (List.cons_ne_nil _ _) h
  exact .address ⟨rfl, rfl, ⟨rfl, rfl⟩, rfl, rfl, rfl, rfl, rfl⟩ hv

theorem firstPass_mv {x : Slot Cmd} (hx : Mnemonic.mv.meaning label os = some x)
    (h : lineSlots line "mv".toList os = .ok fs) : FirstPass label (fs.map (· {})) x := by
  obtain ⟨a, b, rfl, hx⟩ := two_eq_some hx
  obtain ⟨rd, h1, hx⟩ := Option.bind_eq_some_iff.mp hx
  obtain ⟨rs1, h2, hx⟩ := Option.bind_eq_some_iff.mp hx
  obtain rfl := Option.some.inj hx
  have hslots : mvSlots line a b = .ok _ :=
    Except.bind_eq_ok.mpr ⟨_, parseReg_register h1, Except.bind_eq_ok.mpr ⟨_, parseReg_register h2, rfl⟩⟩
  have hp : pseudoSlots line "mv".toList ⟨some a, some b, none, none⟩ = mvSlots line a b := rfl
  obtain rfl := lineSlots_pseudo (hp.trans hslots) (List.cons_ne_nil _ _) h
  exact .inst ⟨nofun, nofun, nofun⟩ fun pc => ⟨rfl, rfl, rfl, signExtend_zero.symm⟩

theorem firstPass_j {x : Slot Cmd} (hx : Mnemonic.j.meaning label os = some x)
    (h : lineSlots line "j".toList os = .ok fs) : FirstPass label (fs.map (· {})) x := by
  obtain ⟨a, rfl, hx⟩ := one_eq_some hx
  obtain ⟨v, hv, hx⟩ := Option.bind_eq_some_iff.mp hx
  obtain rfl := Option.some.inj hx
  obtain rfl := Except.ok.inj h
  exact .jal ⟨rfl, rfl, rfl, rfl⟩ hv

theorem firstPass_ret {x : Slot Cmd} (hx : Mnemonic.ret.meaning label os = some x)
    (h : lineSlots line "ret".toList os = .ok fs) : FirstPass label (fs.map (· {})) x := by
  obtain ⟨rfl, rfl⟩ := zero_eq_some hx
  obtain rfl := Except.ok.inj h
  exact .inst ⟨nofun, nofun, nofun⟩ fun pc => ⟨rfl, rfl, rfl, signExtend_zero.symm⟩

theorem firstPass_branchZero {o : Rv32i.Cond} {x : Slot Cmd}
    (hp : ∀ a b, pseudoSlots line tok ⟨some a, some b, none, none⟩ = branchZeroSlots o.type line a b)
    (hx : (os.two fun s l => do
      let rs1 ← register s
      let target ← label l
      return Slot.inst (Cmd.branch o rs1 0 target)) = some x) (h : lineSlots line tok os = .ok fs) :
    FirstPass label (fs.map (· {})) x := by
  obtain ⟨a, b, rfl, hx⟩ := two_eq_some hx
  obtain ⟨rs1, h1, hx⟩ := Option.bind_eq_some_iff.mp hx
  obtain ⟨v, hv, hx⟩ := Option.bind_eq_some_iff.mp hx
  obtain rfl := Option.some.inj hx
  have hslots : branchZeroSlots o.type line a b = .ok _ := Except.bind_eq_ok.mpr ⟨_, parseReg_register h1, rfl⟩
  obtain rfl := lineSlots_pseudo ((hp a b).trans hslots) (List.cons_ne_nil _ _) h
  exact .branch ⟨rfl, rfl, rfl, rfl, rfl⟩ hv

/-- **The first pass** on a line that means something. -/
theorem firstPass_of_denote {x : Slot Cmd} (hx : denote label tok os = some x) (h : lineSlots line tok os = .ok fs) :
    FirstPass label (fs.map (· {})) x := by
  obtain ⟨mn, hmn, hx⟩ := denote_eq_some hx
  have htok {s : String} (hs : s ∈ mn.pseudo) : tok = s.toList := by
    rw [← name_of_pseudo _ hmn s hs, String.toList_ofList]
  cases mn with
  | op => exact firstPass_op hmn hx h
  | opImm => exact firstPass_opImm hmn hx h
  | shiftImm => exact firstPass_shiftImm hmn hx h
  | lui => exact firstPass_upper hmn rfl rfl hx (fun _ _ _ _ h0 h1 h2 => ⟨h0, h1, h2⟩) h
  | auipc => exact firstPass_upper hmn rfl rfl hx (fun _ _ _ _ h0 h1 h2 => ⟨h0, h1, h2⟩) h
  | load o =>
    exact firstPass_mem hmn rfl (by cases o <;> rfl) hx (fun _ _ _ _ _ h0 h1 h2 h3 => ⟨h0, h1, h2, h3⟩) h
  | store o =>
    exact firstPass_mem (f := fun rs2 rs1 imm => .store o rs1 rs2 imm) hmn rfl (by cases o <;> rfl) hx
      (fun _ _ _ _ _ h0 h1 h2 h3 => ⟨h0, h1, h2, h3⟩) h
  | jalr => exact firstPass_mem hmn rfl rfl hx (fun _ _ _ _ _ h0 h1 h2 h3 => ⟨h0, h1, h2, h3⟩) h
  | branch => exact firstPass_branch hmn hx h
  | jal => exact firstPass_jal hmn hx h
  | hcf => exact firstPass_hcf hmn hx h
  | li =>
    obtain rfl := htok rfl
    exact firstPass_li hx h
  | la =>
    obtain rfl := htok rfl
    exact firstPass_la hx h
  | mv =>
    obtain rfl := htok rfl
    exact firstPass_mv hx h
  | j =>
    obtain rfl := htok rfl
    exact firstPass_j hx h
  | ret =>
    obtain rfl := htok rfl
    exact firstPass_ret hx h
  | beqz =>
    obtain rfl := htok rfl
    exact firstPass_branchZero (fun _ _ => rfl) hx h
  | bnez =>
    obtain rfl := htok rfl
    exact firstPass_branchZero (fun _ _ => rfl) hx h

end

/-! ## The second pass -/

section

variable {labels : List LabelLoc} {k : Nat} {i i' : Instr} {imem : Imem} {label : CStr → Option Word} {pc : Word}
  {is : List Instr} {x : Slot Cmd}

theorem normalizeInstr_of_unlabelled (h : Unlabelled i) : normalizeInstr labels k i = .ok i := by
  unfold normalizeInstr
  rw [if_neg h.a1]
  exact (if_neg h.a2).trans (if_neg h.a3)

/-- An instruction without labels stays as it is. -/
theorem Resolved.eq_of_unlabelled (hr : Resolved labels k i i') (h : Unlabelled i) : i' = i := by
  unfold Resolved at hr
  split at hr
  · exact hr
  · exact (Except.ok.inj ((normalizeInstr_of_unlabelled h).symm.trans hr)).symm

theorem Resolved.resolve (hr : Resolved labels k i i') {t : InstrType} (hop : i.op = t) (ht : t ≠ .UNIMPL) :
    Operands.Resolve labels i i' := by
  unfold Resolved at hr
  rw [if_neg (hop ▸ ht)] at hr
  exact normalizeInstr_resolve hr

/-- The slots from `k` on hold what the second pass makes of `is`. -/
def Finished (labels : List LabelLoc) (imem : Imem) (k : Nat) (is : List Instr) : Prop :=
  ∀ j i, is[j]? = some i → ∃ c, imem.fetch (k + j) = .ok c ∧ Resolved labels (k + j) i c

/-- The labels are in the table under the names that are copied. -/
def Known (labels : List LabelLoc) (label : CStr → Option Word) : Prop :=
  ∀ name v, label name = some v → ∀ line, labelAddr labels line (copyLabel name) = .ok v

/-- **The second pass** puts the addresses in. -/
theorem FirstPass.stored (h : FirstPass label is x) (hlabel : Known labels label) (hfin : Finished labels imem (pc.toNat / 4) is)
    (hpc : pc.toNat + 4 < 2 ^ 32) : HoldsAt imem pc x := by
  have hsecond : (pc + 4).toNat / 4 = pc.toNat / 4 + 1 := by
    rw [BitVec.toNat_add, show (4 : Word).toNat = 4 from rfl, Nat.mod_eq_of_lt hpc]
    omega
  cases h with
  | inst hl hd =>
    obtain ⟨c, hc, hr⟩ := hfin 0 _ rfl
    obtain rfl := hr.eq_of_unlabelled hl
    exact ⟨_, hc, hd pc⟩
  | halt hop =>
    obtain ⟨c, hc, hr⟩ := hfin 0 _ rfl
    exact ⟨c, hc, (hr.resolve hop nofun).op.trans hop⟩
  | @branch i o rs1 rs2 name v hi hv =>
    obtain ⟨c, hc, hr⟩ := hfin 0 _ rfl
    have hres := hr.resolve hi.op (by cases o <;> nofun)
    obtain ⟨w, hw, himm⟩ := hres.a3 hi.type
    rw [hi.label, hlabel _ _ hv] at hw
    obtain rfl := Except.ok.inj hw
    rw [if_neg (by rw [hi.op]; cases o <;> nofun)] at himm
    exact ⟨c, hc, hres.op.trans hi.op, hres.rd.trans hi.rs1, hres.rs.trans hi.rs2, himm⟩
  | jal hi hv =>
    obtain ⟨c, hc, hr⟩ := hfin 0 _ rfl
    have hres := hr.resolve hi.op nofun
    obtain ⟨w, hw, himm⟩ := hres.a2 hi.type
    rw [hi.label, hlabel _ _ hv] at hw
    obtain rfl := Except.ok.inj hw
    rw [if_neg (by rw [hi.op]; nofun)] at himm
    exact ⟨c, hc, hres.op.trans hi.op, hres.rd.trans hi.rd, himm⟩
  | const hl hl' hi =>
    obtain ⟨c, hc, hr⟩ := hfin 0 _ rfl
    obtain ⟨c', hc', hr'⟩ := hfin 1 _ rfl
    obtain rfl := hr.eq_of_unlabelled hl
    obtain rfl := hr'.eq_of_unlabelled hl'
    rw [← hsecond] at hc'
    exact ⟨c, c', hc, hc', hi.lui, hi.luiRd, hi.luiImm, hi.addi, hi.addiRd, hi.addiRs, hi.addiImm⟩
  | address hi hv =>
    obtain ⟨c, hc, hr⟩ := hfin 0 _ rfl
    obtain ⟨c', hc', hr'⟩ := hfin 1 _ rfl
    have hres := hr.resolve hi.lui nofun
    have hres' := hr'.resolve hi.addi nofun
    obtain ⟨w, hw, himm⟩ := hres.a2 hi.luiLabel.1
    obtain ⟨w', hw', himm'⟩ := hres'.a3 hi.addiLabel.1
    rw [hi.luiLabel.2, hlabel _ _ hv] at hw
    rw [hi.addiLabel.2, hlabel _ _ hv] at hw'
    obtain rfl := Except.ok.inj hw
    obtain rfl := Except.ok.inj hw'
    rw [if_pos hi.lui] at himm
    rw [if_pos hi.addi] at himm'
    rw [← hsecond] at hc'
    exact ⟨c, c', hc, hc', hres.op.trans hi.lui, hres.rd.trans hi.luiRd, himm, hres'.op.trans hi.addi,
      hres'.rd.trans hi.addiRd, hres'.rs.trans hi.addiRs, himm'⟩

end

/-! ## The program of a source -/

/-- The instruction statements from `loc` on, each with its location. -/
def instrsFrom (cfg : Config) : Nat → List (Nat × Stmt) → List (Nat × CStr × CStr)
  | _, [] => []
  | loc, p :: ps =>
    match p.2 with
    | .instr tok rest => (loc, tok, rest) :: instrsFrom cfg (locAfter loc (p.2.steps cfg)) ps
    | _ => instrsFrom cfg (locAfter loc (p.2.steps cfg)) ps

/-- The address that a name stands for in a source. -/
def labelOf (cfg : Config) (ps : List (Nat × Stmt)) (name : CStr) : Option Word :=
  ((labelsFrom cfg 0 ps).find? (·.label = name)).map fun l => BitVec.ofNat 32 l.loc

/-- The program of a source: at the location of an instruction statement what it means. -/
def programOf (cfg : Config) (ps : List (Nat × Stmt)) : Program Cmd := fun pc =>
  ((instrsFrom cfg 0 ps).find? (·.1 = pc.toNat)).bind fun e => denote (labelOf cfg ps) e.2.1 (Operands.read e.2.2)

section

variable {cfg : Config} {ps qs : List (Nat × Stmt)} {s t : State}

theorem exists_of_mem_instrsFrom {loc : Nat} {e : Nat × CStr × CStr} (h : e ∈ instrsFrom cfg loc ps) :
    ∃ pre line post, ps = pre ++ (line, .instr e.2.1 e.2.2) :: post ∧ e.1 = locAfter loc (stepsOf cfg pre) := by
  induction ps generalizing loc with
  | nil => cases h
  | cons p ps ih =>
    have hrec (h : e ∈ instrsFrom cfg (locAfter loc (p.2.steps cfg)) ps) : ∃ pre line post,
        p :: ps = pre ++ (line, .instr e.2.1 e.2.2) :: post ∧ e.1 = locAfter loc (stepsOf cfg pre) := by
      obtain ⟨pre, line, post, rfl, hloc⟩ := ih h
      refine ⟨p :: pre, line, post, rfl, ?_⟩
      rw [hloc, stepsOf_cons, locAfter_append]
    obtain ⟨line, name | ⟨tok, rest⟩ | ⟨tok, rest⟩⟩ := p
    · exact hrec h
    · exact hrec h
    · rcases List.mem_cons.mp h with rfl | h
      · exact ⟨[], line, ps, rfl, rfl⟩
      · exact hrec h

/-- What stands at and above the counter is new, as long as there is one section of instructions. -/
def Fresh (s : State) : Prop := ∀ j, s.memoff / 4 ≤ j → s.imem.code j = {}

theorem Fresh.exec {p : Nat × Stmt} (h : Fresh s) (hx : exec cfg s p = .ok t) (hp : ¬ p.2.IsDirective) : Fresh t := by
  have he := executes hx
  obtain ⟨line, name | ⟨tok, rest⟩ | ⟨tok, rest⟩⟩ := p
  · intro j hj
    rw [he.memoff] at hj
    rw [he.code]
    exact h j hj
  · exact absurd trivial hp
  · intro j hj
    rw [he.memoff, Stmt.steps, locAfter_replicate] at hj
    rw [he.code, writeCode_frame _ fun x hx _ => ?_]
    · exact h j (by omega)
    · obtain ⟨k, hk, rfl⟩ := List.mem_map.mp hx
      have := List.mem_range.mp hk
      simp only
      omega

theorem Fresh.run (h : Fresh s) (hx : ps.foldlM (Asm.exec cfg) s = .ok t) (hp : ∀ p ∈ ps, ¬ p.2.IsDirective) : Fresh t := by
  induction ps generalizing s with
  | nil =>
    rw [← Except.ok.inj hx]
    exact h
  | cons p ps ih =>
    obtain ⟨u, hu, hx⟩ := Except.bind_eq_ok.mp hx
    rw [List.forall_mem_cons] at hp
    exact ih (h.exec hu hp.1) hx hp.2

/-- In front of an instruction of the one section. -/
theorem OneText.head {p : Nat × Stmt} (h : OneText (ps ++ p :: qs)) (hp : p.2.IsInstr) :
    ∃ before text, ps = before ++ text ∧ (∀ p ∈ before, ¬ p.2.IsInstr) ∧ ∀ p ∈ text, ¬ p.2.IsDirective := by
  obtain ⟨before, text, after, heq, hb, ht, ha⟩ := h
  rcases List.append_eq_append_iff.mp heq with ⟨c, hc, h⟩ | ⟨c, rfl, h⟩
  · rcases c with _ | ⟨d, c⟩
    · exact ⟨before, [], by simpa using hc.symm, hb, nofun⟩
    · obtain ⟨rfl, -⟩ := List.cons.inj h
      exact absurd hp (hb p (by simp [hc]))
  · refine ⟨before, c, rfl, hb, fun q hq => ?_⟩
    rcases List.append_eq_append_iff.mp h with ⟨d, rfl, hd⟩ | ⟨d, rfl, -⟩
    · exact absurd hp (ha p (hd ▸ List.mem_append_right d List.mem_cons_self))
    · exact ht q (List.mem_append_left d hq)

/-- Where an instruction statement begins, the slots are new. -/
theorem OneText.fresh {p : Nat × Stmt} (h : OneText (ps ++ p :: qs)) (hp : p.2.IsInstr)
    (hx : ps.foldlM (exec cfg) (State.init cfg) = .ok s) : Fresh s := by
  obtain ⟨before, text, rfl, hb, ht⟩ := h.head hp
  rw [List.foldlM_append] at hx
  obtain ⟨u, hu, hx⟩ := Except.bind_eq_ok.mp hx
  refine Fresh.run (fun j _ => ?_) hx ht
  rw [code_run_of_not_instr hu hb]
  rfl

/-- The labels of the source, as the passes have them. -/
theorem known_labelOf (h : ps.foldlM (exec cfg) (State.init cfg) = .ok s) : Known s.labels (labelOf cfg ps) := by
  intro name v hv line
  obtain ⟨l, hl, rfl⟩ := Option.map_eq_some_iff.mp hv
  have hlabels : s.labels = labelsFrom cfg 0 ps := labels_run h
  have hname : l.label = name := by simpa using List.find?_some hl
  have hshort : name.length < MAX_LABEL_LEN := by
    have hmem : name ∈ labelNames ps := by
      rw [← @names_labelsFrom cfg ps 0, ← hname]
      exact List.mem_map_of_mem (List.mem_of_find?_eq_some hl)
    obtain ⟨⟨line', st⟩, hp, hst⟩ := List.mem_filterMap.mp hmem
    obtain ⟨pre, post, rfl⟩ := List.append_of_mem hp
    obtain ⟨u, w, -, hexec, -⟩ := run_split h
    rcases st with name' | ⟨tok, rest⟩ | ⟨tok, rest⟩
    · obtain rfl := Option.some.inj hst
      exact length_of_label hexec
    · cases hst
    · cases hst
  rw [copyLabel, List.take_of_length_le hshort.le, labelAddr, hlabels, hl]

end

section

variable {cfg : Config} {file : List Char} {s : State} {imem : Imem}

/-- The slots of an instruction statement behind both passes. -/
theorem Source.finished (h : Source cfg file s imem) {pre post : List (Nat × Stmt)} {line : Nat} {tok rest : CStr}
    (hs : sourceStmts file = pre ++ (line, .instr tok rest) :: post) :
    ∃ fs, lineSlots line tok (Operands.read rest) = .ok fs ∧
      Finished s.labels imem (location cfg pre / 4) (fs.map (· {})) ∧ location cfg pre ≤ cfg.memorySize := by
  have hrun := h.run
  have hone := h.oneText
  rw [hs] at hrun hone
  obtain ⟨u, v, hu, hv, hloc, hslot⟩ := slots_kept hone hrun
  have hmem := memoff_lt_of_emits hv (Stmt.IsInstr.emits trivial)
  have hmemoff : u.memoff = location cfg pre := hloc
  have hfresh := hone.fresh trivial hu
  obtain ⟨⟨m, c⟩, hm, hv⟩ := Except.bind_eq_ok.mp hv
  obtain ⟨mem, -, hv⟩ := Except.bind_eq_ok.mp hv
  obtain rfl := Except.ok.inj hv
  rw [parseInstr_eq] at hm
  split at hm
  · cases hm
  obtain ⟨fs, hfs, hw, rfl⟩ := rewrite_eq_ok hm
  have hlen := length_lineSlots hfs
  refine ⟨fs, hfs, fun j i hi => ?_, hmemoff ▸ hmem⟩
  rw [List.getElem?_map] at hi
  obtain ⟨f, hf, rfl⟩ := Option.map_eq_some_iff.mp hi
  obtain ⟨hj, rfl⟩ := List.getElem?_eq_some_iff.mp hf
  obtain ⟨hkeep, hk⟩ := hslot j (hlen ▸ hj)
  have hsize : imem.size = s.imem.size := (normalizeFrom_resolved h.normalized).1
  rw [← hmemoff]
  refine ⟨imem.code (u.memoff / 4 + j), if_pos (hsize ▸ hk), ?_⟩
  have hcode : s.imem.code (u.memoff / 4 + j) = fs[j] {} := by
    rw [hkeep]
    exact (writeSlots_code hw hj).trans (congrArg fs[j] (hfresh _ (Nat.le_add_right _ _)))
  rw [← hcode]
  exact h.resolved hk

/-- **The assembler is right**: the program of a source is in the instruction memory. -/
theorem assembled_source (h : Source cfg file s imem) : Assembled imem (programOf cfg (sourceStmts file)) := by
  intro pc slot hslot
  obtain ⟨⟨loc, tok, rest⟩, he, hslot⟩ := Option.bind_eq_some_iff.mp hslot
  have hloc : loc = pc.toNat := by simpa using List.find?_some he
  obtain ⟨pre, line, post, hs, hpre⟩ := exists_of_mem_instrsFrom (List.mem_of_find?_eq_some he)
  obtain ⟨fs, hfs, hfin, hle⟩ := h.finished hs
  have hpc : pc.toNat = location cfg pre := hloc.symm.trans hpre
  rw [← hpc] at hfin hle
  refine (firstPass_of_denote hslot hfs).stored (known_labelOf h.run) hfin ?_
  have := h.int
  omega

end

end SocModel.Asm
