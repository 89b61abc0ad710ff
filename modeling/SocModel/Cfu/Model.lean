import SocModel.Isa.Instr

/-!
# The custom function unit

`CFU.cc`: every request is given to the controller and to both units, both units compute, and the
controller says whose result counts. The units keep their instruction, operands and result from one request
to the next. A lane is read as a signed `int8_t` or `int16_t`, the arithmetic is that of `int`, and the
result is narrowed again before it is shifted into place.
-/

namespace SocModel.Cfu

inductive UnitDecision where
  | addSub | mul | unknown
  deriving DecidableEq, Repr

/-- `(rs >> (i * 8)) & 0xFF` in an `int8_t`. -/
def int8 (rs : Word) (i : Nat) : BitVec 8 := ((rs >>> (i * 8)) &&& 0xFF#32).setWidth 8

/-- `(rs >> (i * 16)) & 0xFFFF` in an `int16_t`. -/
def int16 (rs : Word) (i : Nat) : BitVec 16 := ((rs >>> (i * 16)) &&& 0xFFFF#32).setWidth 16

/-- `result = 0`, then `result |= part(i)` for `i` from `lo` to `hi - 1`. -/
def collect (lo hi : Nat) (part : Nat → Word) : Word :=
  (List.range' lo (hi - lo)).foldl (fun result i => result ||| part i) 0

/-! ## `AddSubActivationUnit` -/

structure AddSubActivationUnit where
  instrType : InstrType
  rs1 : Word
  rs2 : Word
  result : Word

/-- A loop over bytes: `uint8_t res = static_cast<int8_t>(op(b1, b2)); result |= (res << (i * 8))`. -/
def byteLoop (op : Word → Word → Word) (rs1 rs2 : Word) : Word :=
  collect 0 4 fun i =>
    let res : BitVec 8 := (op ((int8 rs1 i).signExtend 32) ((int8 rs2 i).signExtend 32)).setWidth 8
    res.setWidth 32 <<< (i * 8)

/-- The same loop over halfwords. -/
def halfLoop (op : Word → Word → Word) (rs1 rs2 : Word) : Word :=
  collect 0 2 fun i =>
    let res : BitVec 16 := (op ((int16 rs1 i).signExtend 32) ((int16 rs2 i).signExtend 32)).setWidth 16
    res.setWidth 32 <<< (i * 16)

def AddSubActivationUnit.computation (u : AddSubActivationUnit) : AddSubActivationUnit :=
  match u.instrType with
  | .S_ADDI8I8S_VV => { u with result := byteLoop (· + ·) u.rs1 u.rs2 }
  | .S_ADDI16I16S_VV => { u with result := halfLoop (· + ·) u.rs1 u.rs2 }
  | .S_SUBI8I8S_VV => { u with result := byteLoop (· - ·) u.rs1 u.rs2 }
  | .S_SUBI16I16S_VV => { u with result := halfLoop (· - ·) u.rs1 u.rs2 }
  | _ => { u with result := 0 }

/-! ## `MulUnit` -/

structure MulUnit where
  instrType : InstrType
  rs1 : Word
  rs2 : Word
  result : Word

/-- `int16_t mul = static_cast<int16_t>(b1) * static_cast<int16_t>(b2)`: the factors are promoted to `int`. -/
def mul16 (b1 b2 : BitVec 8) : BitVec 16 :=
  (((b1.signExtend 16).signExtend 32) * ((b2.signExtend 16).signExtend 32)).setWidth 16

/-- Byte `i` of both operands gives the halfword `(uint16_t)mul << ((i - lo) * 16)`, for `lo` and `lo + 1`. -/
def pmulLoop (lo : Nat) (rs1 rs2 : Word) : Word :=
  collect lo (lo + 2) fun i => (mul16 (int8 rs1 i) (int8 rs2 i)).setWidth 32 <<< ((i - lo) * 16)

/-- A byte of each of the four products: `uint8_t b = byte(mul); result |= (b << (i * 8))`. -/
def amulLoop (byte : Word → Word) (rs1 rs2 : Word) : Word :=
  collect 0 4 fun i =>
    let b : BitVec 8 := (byte ((mul16 (int8 rs1 i) (int8 rs2 i)).signExtend 32)).setWidth 8
    b.setWidth 32 <<< (i * 8)

def MulUnit.computation (u : MulUnit) : MulUnit :=
  match u.instrType with
  | .S_PMULI8I16S_VV_L => { u with result := pmulLoop 0 u.rs1 u.rs2 }
  | .S_PMULI8I16S_VV_H => { u with result := pmulLoop 2 u.rs1 u.rs2 }
  | .S_AMULI8I8S_VV_NQ => { u with result := amulLoop (fun mul => mul.sshiftRight 8 &&& 0xFF#32) u.rs1 u.rs2 }
  | .S_AMULI8I8S_VV_L => { u with result := amulLoop (fun mul => mul &&& 0xFF#32) u.rs1 u.rs2 }
  | _ => { u with result := 0 }

/-! ## `Controller` and `CFU` -/

/-- `Controller::outputSel`. -/
def outputSel (instrType : InstrType) : UnitDecision :=
  match instrType with
  | .S_ADDI8I8S_VV | .S_ADDI16I16S_VV | .S_SUBI8I8S_VV | .S_SUBI16I16S_VV => .addSub
  | .S_PMULI8I16S_VV_L | .S_PMULI8I16S_VV_H | .S_AMULI8I8S_VV_NQ | .S_AMULI8I8S_VV_L => .mul
  | _ => .unknown

/-- `CFU`; `controller` is the controller's `instr_type`. -/
structure CFU where
  controller : InstrType
  addSubUnit : AddSubActivationUnit
  mulUnit : MulUnit

namespace CFU

/-- `Controller::send_information_to_unit`. -/
def sendInformationToUnit (i : Instr) (rs1 rs2 : Word) (s : CFU) : CFU :=
  { controller := i.op
    addSubUnit := { s.addSubUnit with instrType := i.op, rs1, rs2 }
    mulUnit := { s.mulUnit with instrType := i.op, rs1, rs2 } }

/-- `CFU::get_result`; the `CLASS_ERROR` of an unknown decision ends the run. -/
def getResult (i : Instr) (rs1 rs2 : Word) (s : CFU) : Except Fault (Word × CFU) :=
  let s := s.sendInformationToUnit i rs1 rs2
  let s := { s with mulUnit := s.mulUnit.computation }
  let s := { s with addSubUnit := s.addSubUnit.computation }
  match outputSel s.controller with
  | .addSub => .ok (s.addSubUnit.result, s)
  | .mul => .ok (s.mulUnit.result, s)
  | .unknown => .error .assertion

end CFU

end SocModel.Cfu
