import SocModel.Cfu.Model
import SocModel.Lib.Lanes
import Mathlib.Tactic.Linarith

/-!
# What the SIMD operations compute

`simd op` is the operation by lanes behind each opcode; the loops of the two units compute it
(`byteLoop_eq`, `halfLoop_eq`, `pmulLoop_eq`, `amulLoop_eq`). A product of two signed bytes fits an `int16_t`
(`toInt_product`), so no lane of a product is cut.
-/

namespace SocModel.Cfu
open SocModel.Lanes

/-! ## Lanes -/

theorem getLsbD_byteMask {i : Nat} (hi : i < 8) : (0xFF#32).getLsbD i = true := by
  revert i
  decide

theorem int8_eq_lane (rs : Word) (i : Nat) : int8 rs i = lane 8 i rs := by
  apply BitVec.eq_of_getLsbD_eq
  intro j hj
  simp only [int8, lane, BitVec.getLsbD_setWidth, BitVec.getLsbD_and, getLsbD_byteMask hj, Bool.and_true]

theorem int16_eq_lane (rs : Word) (i : Nat) : int16 rs i = lane 16 i rs := by
  apply BitVec.eq_of_getLsbD_eq
  intro j hj
  have hmask : (0xFFFF#32).getLsbD j = true := by
    revert j
    decide
  simp only [int16, lane, BitVec.getLsbD_setWidth, BitVec.getLsbD_and, hmask, Bool.and_true]

/-- A loop whose parts are shifted lanes packs them. -/
theorem collect_eq_pack {w : Nat} (lo m : Nat) (f : Nat → BitVec w) (part : Nat → Word)
    (h : ∀ k, part (lo + k) = (f k).setWidth 32 <<< (k * w)) : collect lo (lo + m) part = pack 32 f m := by
  unfold collect
  rw [Nat.add_sub_cancel_left]
  induction m with
  | zero => rfl
  | succ m ih => rw [List.range'_1_concat, List.foldl_append, ih, pack, List.foldl_cons, List.foldl_nil, h]

/-! ## The signed products -/

/-- The 16 bits of the product of two signed bytes. -/
def product (a b : BitVec 8) : BitVec 16 := BitVec.ofInt 16 (a.toInt * b.toInt)

/-- `-128 * -128` is the largest product: all of them fit 16 bits. -/
theorem toInt_product (a b : BitVec 8) : (product a b).toInt = a.toInt * b.toInt := by
  have ha : -128 ≤ a.toInt ∧ a.toInt ≤ 127 := by
    have h1 := BitVec.le_toInt a
    have h2 := BitVec.toInt_lt (x := a)
    omega
  have hb : -128 ≤ b.toInt ∧ b.toInt ≤ 127 := by
    have h1 := BitVec.le_toInt b
    have h2 := BitVec.toInt_lt (x := b)
    omega
  have hle : a.toInt * b.toInt ≤ 16384 := by nlinarith
  have hge : -16384 ≤ a.toInt * b.toInt := by nlinarith
  rw [product, BitVec.toInt_ofInt]
  apply Int.bmod_eq_of_le <;> omega

/-! ## Narrowing undoes the promotion to `int` -/

theorem getLsbD_signExtend_low {w : Nat} (x : BitVec w) (hw : w ≤ 32) {i : Nat} (hi : i < w) :
    (x.signExtend 32).getLsbD i = x.getLsbD i := by
  have hi' : i < 32 := by omega
  simp only [BitVec.getLsbD_signExtend, hi, hi', decide_true, Bool.true_and, if_true]

theorem setWidth_signExtend {w : Nat} (x : BitVec w) (hw : w ≤ 32) : (x.signExtend 32).setWidth w = x := by
  apply BitVec.eq_of_getLsbD_eq
  intro i hi
  rw [BitVec.getLsbD_setWidth, getLsbD_signExtend_low x hw hi]
  simp only [hi, decide_true, Bool.true_and]

theorem setWidth_sub {w : Nat} (x y : Word) (hw : w ≤ 32) :
    (x - y).setWidth w = x.setWidth w - y.setWidth w := by
  have h : ((x - y) + y).setWidth w = (x - y).setWidth w + y.setWidth w := BitVec.setWidth_add _ _ hw
  rw [BitVec.sub_add_cancel] at h
  rw [h, BitVec.add_sub_cancel]

theorem setWidth_add_signExtend {w : Nat} (a b : BitVec w) (hw : w ≤ 32) :
    (a.signExtend 32 + b.signExtend 32).setWidth w = a + b := by
  rw [BitVec.setWidth_add _ _ hw, setWidth_signExtend a hw, setWidth_signExtend b hw]

theorem setWidth_sub_signExtend {w : Nat} (a b : BitVec w) (hw : w ≤ 32) :
    (a.signExtend 32 - b.signExtend 32).setWidth w = a - b := by
  rw [setWidth_sub _ _ hw, setWidth_signExtend a hw, setWidth_signExtend b hw]

theorem mul16_eq (a b : BitVec 8) : mul16 a b = product a b := by
  rw [mul16, BitVec.setWidth_mul _ _ (by decide), setWidth_signExtend _ (by decide),
    setWidth_signExtend _ (by decide)]
  apply BitVec.eq_of_toInt_eq
  rw [BitVec.toInt_mul, BitVec.toInt_signExtend_of_le (by decide), BitVec.toInt_signExtend_of_le (by decide),
    product, BitVec.toInt_ofInt]

/-- `(mul >> 8) & 0xFF` is the high byte of the product. -/
theorem high_byte (p : BitVec 16) :
    (((p.signExtend 32).sshiftRight 8) &&& 0xFF#32).setWidth 8 = lane 8 1 p := by
  apply BitVec.eq_of_getLsbD_eq
  intro i hi
  have h16 : 8 + i < 16 := by omega
  have h32 : 8 + i < 32 := by omega
  have hlt : ¬ 32 ≤ i := by omega
  rw [getLsbD_lane _ hi, BitVec.getLsbD_setWidth, BitVec.getLsbD_and, getLsbD_byteMask hi,
    BitVec.getLsbD_sshiftRight, getLsbD_signExtend_low p (by decide) h16]
  simp only [hi, h32, hlt, decide_true, decide_false, Bool.not_false, Bool.true_and, Bool.and_true, if_true,
    Nat.one_mul]

/-- `mul & 0xFF` is the low byte of the product. -/
theorem low_byte (p : BitVec 16) : ((p.signExtend 32) &&& 0xFF#32).setWidth 8 = lane 8 0 p := by
  apply BitVec.eq_of_getLsbD_eq
  intro i hi
  have h16 : i < 16 := by omega
  rw [getLsbD_lane _ hi, BitVec.getLsbD_setWidth, BitVec.getLsbD_and, getLsbD_byteMask hi,
    getLsbD_signExtend_low p (by decide) h16]
  simp only [hi, decide_true, Bool.true_and, Bool.and_true, Nat.zero_mul, Nat.zero_add]

/-! ## The loops -/

theorem byteLoop_eq (op : Word → Word → Word) (f : BitVec 8 → BitVec 8 → BitVec 8)
    (h : ∀ a b : BitVec 8, (op (a.signExtend 32) (b.signExtend 32)).setWidth 8 = f a b) (rs1 rs2 : Word) :
    byteLoop op rs1 rs2 = (LaneOp.mk 8 8 id f).eval 4 rs1 rs2 := by
  apply collect_eq_pack 0 4
  intro k
  simp only [h, int8_eq_lane, Nat.zero_add, id]

theorem halfLoop_eq (op : Word → Word → Word) (f : BitVec 16 → BitVec 16 → BitVec 16)
    (h : ∀ a b : BitVec 16, (op (a.signExtend 32) (b.signExtend 32)).setWidth 16 = f a b) (rs1 rs2 : Word) :
    halfLoop op rs1 rs2 = (LaneOp.mk 16 16 id f).eval 2 rs1 rs2 := by
  apply collect_eq_pack 0 2
  intro k
  simp only [h, int16_eq_lane, Nat.zero_add, id]

theorem pmulLoop_eq (lo : Nat) (rs1 rs2 : Word) :
    pmulLoop lo rs1 rs2 = (LaneOp.mk 8 16 (lo + ·) product).eval 2 rs1 rs2 := by
  apply collect_eq_pack lo 2
  intro k
  simp only [mul16_eq, int8_eq_lane, Nat.add_sub_cancel_left]

theorem amulLoop_eq (byte : Word → Word) (j : Nat)
    (h : ∀ p : BitVec 16, (byte (p.signExtend 32)).setWidth 8 = lane 8 j p) (rs1 rs2 : Word) :
    amulLoop byte rs1 rs2 = (LaneOp.mk 8 8 id fun a b => lane 8 j (product a b)).eval 4 rs1 rs2 := by
  apply collect_eq_pack 0 4
  intro k
  simp only [h, mul16_eq, int8_eq_lane, Nat.zero_add, id]

/-! ## The operations by lanes -/

/-- The operation behind each opcode. -/
def simd : InstrType → LaneOp
  | .S_ADDI16I16S_VV => ⟨16, 16, id, (· + ·)⟩
  | .S_SUBI16I16S_VV => ⟨16, 16, id, (· - ·)⟩
  | .S_SUBI8I8S_VV => ⟨8, 8, id, (· - ·)⟩
  | .S_PMULI8I16S_VV_L => ⟨8, 16, (0 + ·), product⟩
  | .S_PMULI8I16S_VV_H => ⟨8, 16, (2 + ·), product⟩
  | .S_AMULI8I8S_VV_NQ => ⟨8, 8, id, fun a b => lane 8 1 (product a b)⟩
  | .S_AMULI8I8S_VV_L => ⟨8, 8, id, fun a b => lane 8 0 (product a b)⟩
  | _ => ⟨8, 8, id, (· + ·)⟩

/-- How many lanes a result has. -/
def lanes : InstrType → Nat
  | .S_ADDI16I16S_VV | .S_SUBI16I16S_VV | .S_PMULI8I16S_VV_L | .S_PMULI8I16S_VV_H => 2
  | _ => 4

/-- The word of all lanes. -/
def simdWord (op : InstrType) (rs1 rs2 : Word) : Word := (simd op).eval (lanes op) rs1 rs2

theorem lanes_mul_width (op : InstrType) : lanes op * (simd op).width = 32 := by
  cases op <;> rfl

theorem AddSubActivationUnit.result_computation (u : AddSubActivationUnit) (h : outputSel u.instrType = .addSub) :
    u.computation.result = simdWord u.instrType u.rs1 u.rs2 := by
  obtain ⟨op, rs1, rs2, result⟩ := u
  have hadd8 := byteLoop_eq (· + ·) _ (fun a b => setWidth_add_signExtend a b (by decide)) rs1 rs2
  have hsub8 := byteLoop_eq (· - ·) _ (fun a b => setWidth_sub_signExtend a b (by decide)) rs1 rs2
  have hadd16 := halfLoop_eq (· + ·) _ (fun a b => setWidth_add_signExtend a b (by decide)) rs1 rs2
  have hsub16 := halfLoop_eq (· - ·) _ (fun a b => setWidth_sub_signExtend a b (by decide)) rs1 rs2
  revert h
  cases op with
  | S_ADDI8I8S_VV => exact fun _ => hadd8
  | S_SUBI8I8S_VV => exact fun _ => hsub8
  | S_ADDI16I16S_VV => exact fun _ => hadd16
  | S_SUBI16I16S_VV => exact fun _ => hsub16
  | _ => exact fun h => nomatch h

theorem MulUnit.result_computation (u : MulUnit) (h : outputSel u.instrType = .mul) :
    u.computation.result = simdWord u.instrType u.rs1 u.rs2 := by
  obtain ⟨op, rs1, rs2, result⟩ := u
  have hhigh := amulLoop_eq (fun mul => mul.sshiftRight 8 &&& 0xFF#32) 1 high_byte rs1 rs2
  have hlow := amulLoop_eq (fun mul => mul &&& 0xFF#32) 0 low_byte rs1 rs2
  revert h
  cases op with
  | S_PMULI8I16S_VV_L => exact fun _ => pmulLoop_eq 0 rs1 rs2
  | S_PMULI8I16S_VV_H => exact fun _ => pmulLoop_eq 2 rs1 rs2
  | S_AMULI8I8S_VV_NQ => exact fun _ => hhigh
  | S_AMULI8I8S_VV_L => exact fun _ => hlow
  | _ => exact fun h => nomatch h

theorem outputSel_of_isCfu {op : InstrType} (h : op.isCfu = true) : outputSel op = .addSub ∨ outputSel op = .mul := by
  revert h
  cases op <;> decide

/-- Whatever the units hold, a request leaves the word of its opcode and operands. -/
theorem getResult_eq {i : Instr} (hi : i.op.isCfu = true) (rs1 rs2 : Word) (s : CFU) :
    ∃ s', s.getResult i rs1 rs2 = .ok (simdWord i.op rs1 rs2, s') := by
  let sent := s.sendInformationToUnit i rs1 rs2
  obtain hsel | hsel := outputSel_of_isCfu hi
  · have hres : sent.addSubUnit.computation.result = simdWord i.op rs1 rs2 :=
      sent.addSubUnit.result_computation hsel
    apply Exists.intro
    simp only [CFU.getResult, CFU.sendInformationToUnit, hsel]
    rw [← hres]
    rfl
  · have hres : sent.mulUnit.computation.result = simdWord i.op rs1 rs2 := sent.mulUnit.result_computation hsel
    apply Exists.intro
    simp only [CFU.getResult, CFU.sendInformationToUnit, hsel]
    rw [← hres]
    rfl

/-! ## The lanes of a result -/

/-- What the opcode asks of the lanes of `r`: sums and differences modulo the lane, exact signed products, the
high or the low byte of each product. -/
def LanesOf (op : InstrType) (rs1 rs2 r : Word) : Prop :=
  match op with
  | .S_ADDI8I8S_VV => ∀ k < 4, lane 8 k r = lane 8 k rs1 + lane 8 k rs2
  | .S_SUBI8I8S_VV => ∀ k < 4, lane 8 k r = lane 8 k rs1 - lane 8 k rs2
  | .S_ADDI16I16S_VV => ∀ k < 2, lane 16 k r = lane 16 k rs1 + lane 16 k rs2
  | .S_SUBI16I16S_VV => ∀ k < 2, lane 16 k r = lane 16 k rs1 - lane 16 k rs2
  | .S_PMULI8I16S_VV_L => ∀ k < 2, (lane 16 k r).toInt = (lane 8 k rs1).toInt * (lane 8 k rs2).toInt
  | .S_PMULI8I16S_VV_H => ∀ k < 2, (lane 16 k r).toInt = (lane 8 (2 + k) rs1).toInt * (lane 8 (2 + k) rs2).toInt
  | .S_AMULI8I8S_VV_NQ => ∀ k < 4, ∃ p : BitVec 16,
      p.toInt = (lane 8 k rs1).toInt * (lane 8 k rs2).toInt ∧ lane 8 k r = lane 8 1 p
  | .S_AMULI8I8S_VV_L => ∀ k < 4, ∃ p : BitVec 16,
      p.toInt = (lane 8 k rs1).toInt * (lane 8 k rs2).toInt ∧ lane 8 k r = lane 8 0 p
  | _ => False

theorem lane_simdWord {op : InstrType} (rs1 rs2 : Word) {k : Nat} (hk : k < lanes op) :
    lane (simd op).width k (simdWord op rs1 rs2) = (simd op).op (lane (simd op).srcWidth ((simd op).src k) rs1)
      (lane (simd op).srcWidth ((simd op).src k) rs2) :=
  (simd op).lane_eval rs1 rs2 hk (Nat.le_of_eq (lanes_mul_width op))

theorem lanesOf_simdWord {op : InstrType} (h : op.isCfu = true) (rs1 rs2 : Word) :
    LanesOf op rs1 rs2 (simdWord op rs1 rs2) := by
  have hlane : ∀ k < lanes op, _ := fun k hk => lane_simdWord rs1 rs2 hk
  revert h hlane
  cases op with
  | S_ADDI8I8S_VV => exact fun _ hlane => hlane
  | S_SUBI8I8S_VV => exact fun _ hlane => hlane
  | S_ADDI16I16S_VV => exact fun _ hlane => hlane
  | S_SUBI16I16S_VV => exact fun _ hlane => hlane
  | S_PMULI8I16S_VV_L =>
    intro _ hlane k hk
    have hk' := congrArg BitVec.toInt (hlane k hk)
    have hsrc : (simd .S_PMULI8I16S_VV_L).src k = k := Nat.zero_add k
    rw [hsrc] at hk'
    exact hk'.trans (toInt_product _ _)
  | S_PMULI8I16S_VV_H =>
    intro _ hlane k hk
    exact (congrArg BitVec.toInt (hlane k hk)).trans (toInt_product _ _)
  | S_AMULI8I8S_VV_NQ => exact fun _ hlane k hk => ⟨_, toInt_product _ _, hlane k hk⟩
  | S_AMULI8I8S_VV_L => exact fun _ hlane k hk => ⟨_, toInt_product _ _, hlane k hk⟩
  | _ => exact fun h => nomatch h

/-- **`get_result` computes by lanes.** For each SIMD opcode the result is a function of the operands alone,
whatever the units did before; its lanes are those the opcode asks for; and a lane of it depends on the same
lanes of the operands only. -/
theorem getResult_lanewise (i : Instr) (hi : i.op.isCfu = true) :
    ∃ result : Word → Word → Word,
      (∀ s rs1 rs2, ∃ s', CFU.getResult i rs1 rs2 s = .ok (result rs1 rs2, s')) ∧
      (∀ rs1 rs2, LanesOf i.op rs1 rs2 (result rs1 rs2)) ∧
      ∀ rs1 rs2 rs1' rs2', ∀ k < lanes i.op,
        lane (simd i.op).srcWidth ((simd i.op).src k) rs1 = lane (simd i.op).srcWidth ((simd i.op).src k) rs1' →
        lane (simd i.op).srcWidth ((simd i.op).src k) rs2 = lane (simd i.op).srcWidth ((simd i.op).src k) rs2' →
        lane (simd i.op).width k (result rs1 rs2) = lane (simd i.op).width k (result rs1' rs2') := by
  refine ⟨simdWord i.op, ?_, ?_, ?_⟩
  · intro s rs1 rs2
    exact getResult_eq hi rs1 rs2 s
  · intro rs1 rs2
    exact lanesOf_simdWord hi rs1 rs2
  · intro rs1 rs2 rs1' rs2' k hk h1 h2
    exact (simd i.op).lane_eval_congr hk (Nat.le_of_eq (lanes_mul_width i.op)) h1 h2

/-- The units after an addition. -/
def afterAddition : CFU :=
  ⟨.S_ADDI8I8S_VV, ⟨.S_ADDI8I8S_VV, 1, 2, 3⟩, ⟨.S_ADDI8I8S_VV, 1, 2, 0⟩⟩

/-- `spmuli8i16s.vv.l` of two words with negative bytes next to each other. -/
theorem getResult_lanewise_pmul : ∃ v s',
    CFU.getResult { op := .S_PMULI8I16S_VV_L } 0xFF80FF80 0x02FE7F80 afterAddition = .ok (v, s') ∧
      (lane 16 0 v).toInt = -128 * -128 ∧ (lane 16 1 v).toInt = -1 * 127 := by
  obtain ⟨result, hresult, hlanes, -⟩ := getResult_lanewise { op := .S_PMULI8I16S_VV_L } (by decide)
  obtain ⟨s', hs'⟩ := hresult afterAddition 0xFF80FF80 0x02FE7F80
  have hlanes := hlanes 0xFF80FF80 0x02FE7F80
  exact ⟨_, s', hs', hlanes 0 (by decide), hlanes 1 (by decide)⟩

example : pmulLoop 0 0xFF80FF80 0x02FE7F80 = 0xFF814000 := by decide

end SocModel.Cfu
