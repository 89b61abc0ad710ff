import SocModel.Isa.Instr
import SocModel.Lib.Bytes
import SocModel.Lib.CText

/-!
# The assembler

`soc/libs/Emulator.cc`: the parsers of operands, directives, pseudo-instructions and instructions, the pass over
the file and the pass that resolves labels. Every way out of the program is an `AsmError`. The calls of
`append_source`, which keeps texts for messages, are in `SourceText`.

* `parseReg`, `parseImm`, `parseMem`, `parseAssemblerDirective`, `parsePseudoinstructions`, `parseInstr`,
  `parse`, `normalizeLabels` : the source's functions;
* `assemble` : the two passes on a file.
-/

namespace SocModel.Asm

open Lib

/-- How the assembler gives up. -/
inductive AsmError where
  /-- `print_syntax_error`. -/
  | syntaxError (line : Nat) (msg : String)
  /-- `exit(code)` after a message. -/
  | exit (code : Nat)
  | undefined (f : Fault)
  deriving DecidableEq, Repr

/-- The parameters of the configuration. -/
structure Config where
  memorySize : Nat := 65536
  textOffset : Nat := 0
  dataOffset : Nat := 8192
  maxLabelCount : Nat := 128
  deriving DecidableEq, Repr

def MAX_LABEL_LEN : Nat := 32

/-- `label_loc`. -/
structure LabelLoc where
  label : CStr
  loc : Nat
  deriving DecidableEq, Repr

/-- What the first pass builds. -/
structure State where
  imem : Imem
  mem : Store
  memoff : Nat
  labels : List LabelLoc

/-! ## Operands -/

def parseReg (line : Nat) (tok : CStr) : Except AsmError Int :=
  match tok with
  | 'x' :: ds =>
    let ri := atoi ds
    if ri < 0 ∨ ri > 32 then .error (.syntaxError line "Malformed register name") else .ok ri
  | _ =>
    match String.ofList tok with
    | "zero" => .ok 0
    | "ra" => .ok 1
    | "sp" => .ok 2
    | "gp" => .ok 3
    | "tp" => .ok 4
    | "t0" => .ok 5
    | "t1" => .ok 6
    | "t2" => .ok 7
    | "s0" => .ok 8
    | "s1" => .ok 9
    | "a0" => .ok 10
    | "a1" => .ok 11
    | "a2" => .ok 12
    | "a3" => .ok 13
    | "a4" => .ok 14
    | "a5" => .ok 15
    | "a6" => .ok 16
    | "a7" => .ok 17
    | "s2" => .ok 18
    | "s3" => .ok 19
    | "s4" => .ok 20
    | "s5" => .ok 21
    | "s6" => .ok 22
    | "s7" => .ok 23
    | "s8" => .ok 24
    | "s9" => .ok 25
    | "s10" => .ok 26
    | "s11" => .ok 27
    | "t3" => .ok 28
    | "t4" => .ok 29
    | "t5" => .ok 30
    | "t6" => .ok 31
    | _ => .error (.syntaxError line "Malformed register name")

def parseImm (line : Nat) (tok : CStr) (bits : Nat) : Except AsmError Word :=
  let c := tok.headD '\x00'
  if ¬ ('0' ≤ c ∧ c ≤ '9') ∧ c ≠ '-' then .error (.syntaxError line "Malformed immediate value")
  else
    let imml := (strtol 0 tok).1
    if imml > 2 ^ bits - 1 ∨ imml < -2 ^ (bits - 1) then .error (.exit 1) else .ok (BitVec.ofInt 32 imml)

/-- `imm(reg)`: the register and the immediate, which is not sign-extended. -/
def parseMem (line : Nat) (tok : CStr) (bits : Nat) : Except AsmError (Int × Word) :=
  match strtok ['('] tok with
  | none => .error (.undefined .nullPointer)
  | some (imms, rest) => do
    let imm ← parseImm line imms bits
    match strtok [')'] rest with
    | none => .error (.undefined .nullPointer)
    | some (regs, _) =>
      let reg ← parseReg line regs
      return (reg, imm)

def signextend (x : Word) (bits : Nat) : Word :=
  if x.getLsbD (bits - 1) then (BitVec.allOnes 32 <<< bits) ||| x else x

/-! ## Directives -/

/-- `memcpy(&_mem[offset], &v, size)`. -/
def storeElement (cfg : Config) (mem : Store) (offset size : Nat) (v : Int) : Except AsmError Store :=
  if offset + size ≤ cfg.memorySize then .ok (store mem offset size (BitVec.ofInt 64 v).toNat)
  else .error (.undefined .memoryRange)

/-- One element; a value is out of bounds when the bits above its size spell a positive number. -/
def parseElement (cfg : Config) (size : Nat) (s : State) (tok : CStr) : Except AsmError State :=
  let (v, erange) := strtol 0 tok
  if erange ∨ v / 2 ^ (8 * size) > 0 then .error (.exit 2)
  else do
    let mem ← storeElement cfg s.mem s.memoff size v
    return { s with mem, memoff := s.memoff + size }

def parseDataElement (cfg : Config) (size : Nat) (rest : CStr) (s : State) : Except AsmError State :=
  (tokens " \t\r\n".toList rest.length rest).foldlM (parseElement cfg size) s

/-- A directive is recognised by a prefix of its name, in the order of the comparisons. -/
def parseAssemblerDirective (cfg : Config) (line : Nat) (ftok rest : CStr) (s : State) :
    Except AsmError State :=
  if ftok.isPrefixOf ".text".toList then
    match strtok " \t\r\n".toList rest with
    | some _ => .error (.syntaxError line "Tokens after assembler directive")
    | none => .ok { s with memoff := cfg.textOffset }
  else if ftok.isPrefixOf ".data".toList then .ok { s with memoff := cfg.dataOffset }
  else if ftok.isPrefixOf ".byte".toList then parseDataElement cfg 1 rest s
  else if ftok.isPrefixOf ".half".toList then parseDataElement cfg 2 rest s
  else if ftok.isPrefixOf ".word".toList then parseDataElement cfg 4 rest s
  else .error (.exit 3)

/-! ## Instructions -/

/-- The operands after the mnemonic; a null pointer is `none`. -/
structure Operands where
  o1 : Option CStr := none
  o2 : Option CStr := none
  o3 : Option CStr := none
  o4 : Option CStr := none
  deriving DecidableEq, Repr

/-- Four calls of `strtok(NULL, " \t\r\n,")`. -/
def Operands.read (rest : CStr) : Operands :=
  let ts := tokens " \t\r\n,".toList 4 rest
  ⟨ts[0]?, ts[1]?, ts[2]?, ts[3]?⟩

/-- `imem[k] = i`. -/
def setInstr (m : Imem) (k : Nat) (i : Instr) : Except AsmError Imem :=
  if k < m.size then .ok { m with code := Function.update m.code k i }
  else .error (.undefined .arrayIndex)

/-- `strncpy(label, s, MAX_LABEL_LEN)`. -/
def copyLabel (s : CStr) : CStr := s.take MAX_LABEL_LEN

def Operand.ofReg (o : Operand) (r : Int) : Operand := { o with type := .reg, reg := r }

def Operand.ofImm (o : Operand) (v : Word) : Operand := { o with type := .imm, imm := v }

def Operand.ofLabel (o : Operand) (s : CStr) : Operand := { o with type := .label, label := copyLabel s }

def invalidFormat {α : Type} (line : Nat) : Except AsmError α := .error (.syntaxError line "Invalid format")

/-- `li rd, value`: `LUI` and `ADDI` with the low twelve bits. -/
def parseLi (line : Nat) (m : Imem) (ioff : Nat) (o1 o2 : CStr) : Except AsmError (Imem × Nat) := do
  let reg ← parseReg line o1
  let imml := (strtol 0 o2).1
  if reg < 0 ∨ imml > 2 ^ 32 - 1 ∨ imml < -2 ^ 31 then .error (.exit 1)
  else
    let hv := BitVec.ofInt 32 imml
    let i := m.code ioff
    let m ← setInstr m ioff
      { i with op := .LUI, a1 := Operand.ofReg i.a1 reg, a2 := Operand.ofImm i.a2 (hv >>> 12), origLine := line }
    let i2 := m.code (ioff + 1)
    let m ← setInstr m (ioff + 1)
      { i2 with
        op := .ADDI, a1 := Operand.ofReg i2.a1 reg, a2 := Operand.ofReg i2.a2 reg
        a3 := Operand.ofImm i2.a3 (hv &&& 0xFFF), origLine := line }
    return (m, 2)

/-- `la rd, label`. -/
def parseLa (line : Nat) (m : Imem) (ioff : Nat) (o1 o2 : CStr) : Except AsmError (Imem × Nat) := do
  let reg ← parseReg line o1
  let i := m.code ioff
  let m ← setInstr m ioff
    { i with op := .LUI, a1 := Operand.ofReg i.a1 reg, a2 := Operand.ofLabel i.a2 o2, origLine := line }
  let i2 := m.code (ioff + 1)
  let m ← setInstr m (ioff + 1)
    { i2 with
      op := .ADDI, a1 := Operand.ofReg i2.a1 reg, a2 := Operand.ofReg i2.a2 reg
      a3 := Operand.ofLabel i2.a3 o2, origLine := line }
  return (m, 2)

/-- `bnez rs, label` and `beqz rs, label`: a branch on `rs` and `x0`. -/
def parseBranchZero (op : InstrType) (line : Nat) (m : Imem) (ioff : Nat) (o1 o2 : CStr) :
    Except AsmError (Imem × Nat) := do
  let reg ← parseReg line o1
  let i := m.code ioff
  let m ← setInstr m ioff
    { i with
      op, a1 := Operand.ofReg i.a1 reg, a2 := Operand.ofReg i.a2 0, a3 := Operand.ofLabel i.a3 o2
      origLine := line }
  return (m, 1)

/-- The instructions a pseudo-instruction stands for, and how many; 0 for another mnemonic. -/
def parsePseudoinstructions (line : Nat) (ftok : CStr) (m : Imem) (ioff : Nat) (os : Operands) :
    Except AsmError (Imem × Nat) :=
  match String.ofList ftok with
  | "li" =>
    match os.o1, os.o2, os.o3 with
    | some o1, some o2, none => parseLi line m ioff o1 o2
    | _, _, _ => invalidFormat line
  | "la" =>
    match os.o1, os.o2, os.o3 with
    | some o1, some o2, none => parseLa line m ioff o1 o2
    | _, _, _ => invalidFormat line
  | "ret" =>
    match os.o1 with
    | some _ => invalidFormat line
    | none => do
      let i := m.code ioff
      let m ← setInstr m ioff
        { i with
          op := .JALR, a1 := Operand.ofReg i.a1 0, a2 := Operand.ofReg i.a2 1, a3 := Operand.ofImm i.a3 0
          origLine := line }
      return (m, 1)
  | "j" =>
    match os.o1, os.o2 with
    | some o1, none => do
      let i := m.code ioff
      let m ← setInstr m ioff
        { i with op := .JAL, a1 := Operand.ofReg i.a1 0, a2 := Operand.ofLabel i.a2 o1, origLine := line }
      return (m, 1)
    | _, _ => invalidFormat line
  | "mv" =>
    match os.o1, os.o2, os.o3 with
    | some o1, some o2, none => do
      let i := m.code ioff
      let rd ← parseReg line o1
      let rs ← parseReg line o2
      let m ← setInstr m ioff
        { i with
          op := .ADDI, a1 := Operand.ofReg i.a1 rd, a2 := Operand.ofReg i.a2 rs, a3 := Operand.ofImm i.a3 0
          origLine := line }
      return (m, 1)
    | _, _, _ => invalidFormat line
  | "bnez" =>
    match os.o1, os.o2, os.o3 with
    | some o1, some o2, none => parseBranchZero .BNE line m ioff o1 o2
    | _, _, _ => invalidFormat line
  | "beqz" =>
    match os.o1, os.o2, os.o3 with
    | some o1, some o2, none => parseBranchZero .BEQ line m ioff o1 o2
    | _, _, _ => invalidFormat line
  | _ => .ok (m, 0)

/-- The operation of a mnemonic. -/
def parseOp (tok : CStr) : InstrType :=
  match String.ofList tok with
  | "add" => .ADD
  | "sub" => .SUB
  | "slt" => .SLT
  | "sltu" => .SLTU
  | "and" => .AND
  | "or" => .OR
  | "xor" => .XOR
  | "sll" => .SLL
  | "srl" => .SRL
  | "sra" => .SRA
  | "addi" => .ADDI
  | "slti" => .SLTI
  | "sltiu" => .SLTIU
  | "andi" => .ANDI
  | "ori" => .ORI
  | "xori" => .XORI
  | "slli" => .SLLI
  | "srli" => .SRLI
  | "srai" => .SRAI
  | "lb" => .LB
  | "lbu" => .LBU
  | "lh" => .LH
  | "lhu" => .LHU
  | "lw" => .LW
  | "sb" => .SB
  | "sh" => .SH
  | "sw" => .SW
  | "beq" => .BEQ
  | "bge" => .BGE
  | "bgeu" => .BGEU
  | "blt" => .BLT
  | "bltu" => .BLTU
  | "bne" => .BNE
  | "jal" => .JAL
  | "jalr" => .JALR
  | "auipc" => .AUIPC
  | "lui" => .LUI
  | "mul" => .MUL
  | "saddi8i8s.vv" => .S_ADDI8I8S_VV
  | "saddi16i16s.vv" => .S_ADDI16I16S_VV
  | "ssubi8i8s.vv" => .S_SUBI8I8S_VV
  | "ssubi16i16s.vv" => .S_SUBI16I16S_VV
  | "spmuli8i16s.vv.l" => .S_PMULI8I16S_VV_L
  | "spmuli8i16s.vv.h" => .S_PMULI8I16S_VV_H
  | "samuli8i8s.vv.nq" => .S_AMULI8I8S_VV_NQ
  | "samuli8i8s.vv.l" => .S_AMULI8I8S_VV_L
  | "hcf" => .HCF
  | _ => .UNIMPL

/-- The operands of `rd, rs1, rs2`; the SIMD operations have their own message. -/
def operandsRRR (line : Nat) (msg : String) (i : Instr) (os : Operands) : Except AsmError Instr :=
  match os with
  | ⟨some o1, some o2, some o3, none⟩ => do
    let r1 ← parseReg line o1
    let r2 ← parseReg line o2
    let r3 ← parseReg line o3
    return { i with a1.reg := r1, a2.reg := r2, a3.reg := r3 }
  | _ => .error (.syntaxError line msg)

/-- The operands of `reg, imm(reg)`. -/
def operandsMem (line : Nat) (i : Instr) (os : Operands) : Except AsmError Instr :=
  match os with
  | ⟨some o1, some o2, none, none⟩ => do
    let r1 ← parseReg line o1
    let (r2, imm) ← parseMem line o2 12
    return { i with a1.reg := r1, a2.reg := r2, a3.imm := imm }
  | _ => invalidFormat line

/-- The operands of `rd, rs1, imm`. -/
def operandsRRI (line : Nat) (i : Instr) (os : Operands) : Except AsmError Instr :=
  match os with
  | ⟨some o1, some o2, some o3, none⟩ => do
    let r1 ← parseReg line o1
    let r2 ← parseReg line o2
    let imm ← parseImm line o3 12
    return { i with a1.reg := r1, a2.reg := r2, a3.imm := signextend imm 12 }
  | _ => invalidFormat line

/-- The operands of `rs1, rs2, label`. -/
def operandsBranch (line : Nat) (i : Instr) (os : Operands) : Except AsmError Instr :=
  match os with
  | ⟨some o1, some o2, some o3, none⟩ => do
    let r1 ← parseReg line o1
    let r2 ← parseReg line o2
    return { i with a1.reg := r1, a2.reg := r2, a3 := Operand.ofLabel i.a3 o3 }
  | _ => invalidFormat line

/-- The operands of `rd, imm`. -/
def operandsUpper (line : Nat) (i : Instr) (os : Operands) : Except AsmError Instr :=
  match os with
  | ⟨some o1, some o2, none, none⟩ => do
    let r1 ← parseReg line o1
    let imm ← parseImm line o2 20
    return { i with a1.reg := r1, a2.imm := imm }
  | _ => invalidFormat line

/-- The operands of `jal`: `rd, label`, or a label alone with `rd = ra`. -/
def operandsJal (line : Nat) (i : Instr) (os : Operands) : Except AsmError Instr :=
  match os with
  | ⟨some o1, some o2, none, none⟩ => do
    let r1 ← parseReg line o1
    return { i with a1 := Operand.ofReg i.a1 r1, a2 := Operand.ofLabel i.a2 o2 }
  | ⟨some o1, none, none, none⟩ =>
    .ok { i with a1 := Operand.ofReg i.a1 1, a2 := Operand.ofLabel i.a2 o1 }
  | _ => invalidFormat line

/-- The `switch (op)` of `parse_instr`, on the slot with `op` and `orig_line` already set. -/
def parseOperands (line : Nat) (i : Instr) (os : Operands) : Except AsmError Instr :=
  match i.op with
  | .UNIMPL | .HCF | .NOP => .ok i
  | .JAL => operandsJal line i os
  | .JALR | .LB | .LBU | .LH | .LHU | .LW | .SB | .SH | .SW => operandsMem line i os
  | .ADD | .SUB | .SLT | .SLTU | .AND | .OR | .XOR | .SLL | .SRL | .SRA | .MUL =>
    operandsRRR line "Invalid format" i os
  | .ADDI | .SLTI | .SLTIU | .ANDI | .ORI | .XORI | .SLLI | .SRLI | .SRAI => operandsRRI line i os
  | .BEQ | .BGE | .BGEU | .BLT | .BLTU | .BNE => operandsBranch line i os
  | .LUI | .AUIPC => operandsUpper line i os
  | .S_ADDI8I8S_VV | .S_ADDI16I16S_VV | .S_SUBI8I8S_VV | .S_SUBI16I16S_VV
  | .S_PMULI8I16S_VV_L | .S_PMULI8I16S_VV_H | .S_AMULI8I8S_VV_NQ | .S_AMULI8I8S_VV_L =>
    operandsRRR line "Invalid SIMD format" i os

/-- One instruction line: the new instruction memory and the number of instructions. -/
def parseInstr (cfg : Config) (line : Nat) (ftok rest : CStr) (m : Imem) (memoff : Nat) :
    Except AsmError (Imem × Nat) :=
  if memoff + 4 > cfg.dataOffset then .error (.exit 1)
  else do
    let os := Operands.read rest
    let ioff := memoff / 4
    let (m, pscnt) ← parsePseudoinstructions line ftok m ioff os
    if pscnt > 0 then return (m, pscnt)
    else
      let i ← parseOperands line { m.code ioff with op := parseOp ftok, origLine := line } os
      let m ← setInstr m ioff i
      return (m, 1)

/-! ## The two passes -/

/-- The words `0xcccccccc` that mark the instructions in data memory. -/
def markInstrs (cfg : Config) (mem : Store) (memoff : Nat) : Nat → Except AsmError Store
  | 0 => .ok mem
  | count + 1 => do
    let mem ← storeElement cfg mem memoff 4 0xcccccccc
    markInstrs cfg mem (memoff + 4) count

def parseInstrLine (cfg : Config) (line : Nat) (ftok rest : CStr) (s : State) : Except AsmError State := do
  let (imem, count) ← parseInstr cfg line ftok rest s.imem s.memoff
  let mem ← markInstrs cfg s.mem s.memoff count
  return { s with imem, mem, memoff := s.memoff + count * 4 }

def parseLabel (cfg : Config) (label : CStr) (s : State) : Except AsmError State :=
  if label.length ≥ MAX_LABEL_LEN then .error (.exit 3)
  else if s.labels.length ≥ cfg.maxLabelCount then .error (.exit 3)
  else .ok { s with labels := s.labels ++ [⟨label, s.memoff⟩] }

/-- One line of the file. -/
def parseLine (cfg : Config) (line : Nat) (text : List Char) (s : State) : Except AsmError State :=
  match strtok " \t\r\n".toList ((terminated text).map Char.toLower) with
  | none => .ok s
  | some (ftok, rest) =>
    if ftok.head? = some '#' then .ok s
    else if ftok.head? = some '.' then parseAssemblerDirective cfg line ftok rest s
    else if ftok.getLast? = some ':' then do
      let s ← parseLabel cfg ftok.dropLast s
      match strtok " \t\r\n".toList rest with
      | none => return s
      | some (ntok, rest) =>
        if ntok.head? = some '.' then parseAssemblerDirective cfg line ntok rest s
        else parseInstrLine cfg line ntok rest s
    else parseInstrLine cfg line ftok rest s

def parseLines (cfg : Config) : Nat → List CStr → State → Except AsmError State
  | _, [], s => .ok s
  | line, t :: ts, s => do
    let s ← parseLine cfg line t s
    parseLines cfg (line + 1) ts s

/-- The state of the emulator and of the CPU's instruction memory before the first pass. -/
def State.init (cfg : Config) : State where
  imem := ⟨cfg.dataOffset / 4, fun _ => {}⟩
  mem := fun _ => 0
  memoff := 0
  labels := []

def parse (cfg : Config) (file : List Char) : Except AsmError State :=
  parseLines cfg 1 (fgets 1023 [] file) (State.init cfg)

/-- The location of the first label of that name. -/
def labelAddr (labels : List LabelLoc) (line : Int) (label : CStr) : Except AsmError Word :=
  match labels.find? (·.label = label) with
  | some l => .ok (BitVec.ofNat 32 l.loc)
  | none => .error (.syntaxError line.toNat "Undefined label")

/-- `|pc - target| >= limit` leaves the program. -/
def checkRange (pc : Nat) (target : Word) (limit : Int) : Except AsmError Unit :=
  if |(pc : Int) - target.toInt| ≥ limit then .error (.exit 3) else .ok ()

/-- The labels of the instruction at `imem[k]`. The range check of `JAL` reads `a3`, not the target. -/
def normalizeInstr (labels : List LabelLoc) (k : Nat) (i : Instr) : Except AsmError Instr := do
  let i ← if i.a1.type = .label then do
      let v ← labelAddr labels i.origLine i.a1.label
      pure { i with a1 := Operand.ofImm i.a1 v }
    else pure i
  let i ← if i.a2.type = .label then do
      let v ← labelAddr labels i.origLine i.a2.label
      match i.op with
      | .LUI => pure { i with a2 := Operand.ofImm i.a2 (v >>> 12) }
      | .JAL => do
        checkRange (k * 4) i.a3.imm (2 ^ 21)
        pure { i with a2 := Operand.ofImm i.a2 v }
      | _ => pure { i with a2 := Operand.ofImm i.a2 v }
    else pure i
  if i.a3.type = .label then do
    let v ← labelAddr labels i.origLine i.a3.label
    match i.op with
    | .ADDI => return { i with a3 := Operand.ofImm i.a3 (v &&& 0xFFF) }
    | .BEQ | .BGE | .BGEU | .BLT | .BLTU | .BNE => do
      checkRange (k * 4) v (2 ^ 13)
      return { i with a3 := Operand.ofImm i.a3 v }
    | _ => return { i with a3 := Operand.ofImm i.a3 v }
  else return i

/-- The second pass from `imem[k]` on, `n` slots. -/
def normalizeFrom (labels : List LabelLoc) : Nat → Nat → Imem → Except AsmError Imem
  | _, 0, m => .ok m
  | k, n + 1, m =>
    if (m.code k).op = .UNIMPL then normalizeFrom labels (k + 1) n m
    else do
      let i ← normalizeInstr labels k (m.code k)
      normalizeFrom labels (k + 1) n { m with code := Function.update m.code k i }

def normalizeLabels (labels : List LabelLoc) (m : Imem) : Except AsmError Imem :=
  normalizeFrom labels 0 m.size m

/-- The instruction memory and the initial data memory of a file. -/
def assemble (cfg : Config) (file : List Char) : Except AsmError (Imem × Store) := do
  let s ← parse cfg file
  let imem ← normalizeLabels s.labels s.imem
  return (imem, s.mem)

end SocModel.Asm
