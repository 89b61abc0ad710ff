import Mathlib.Algebra.BigOperators.Group.Finset.Basic
import Mathlib.Tactic.Common
import SocModel.Lib.Bytes

/-!
# The array of processing elements

The four stages of `SystolicArray.cc` that compute one tile, for an array of `n` rows and columns (`SASIZE` in the
source). The loops of a stage write each element once and read elements the stage has not written, so a stage is
a function of the whole grid; rows and columns from `n` on do not exist and are never read.

`FlushAndEmit` reads `pe[i][j - 1]` also for `j = 0`, in front of the row: what it finds there is `ghost i`.

* `Wave` : what every register holds after `t` cycles, `Fed` : the same in the middle of a cycle;
* `Wave.propagate`, `Wave.flush` : one cycle, for arrays whose rows the counters can count;
* `tile_product` : after all cycles the results are the product of the two tiles, whatever the ghosts were.
-/

namespace SocModel.Sa

open Lib

structure Valid8 where
  valid : Bool
  data : Byte

structure Valid16 where
  valid : Bool
  sum : BitVec 16

structure PE where
  weightReg : Valid8 := ⟨false, 0⟩
  inReg : Valid8 := ⟨false, 0⟩
  fwdIn : Valid8 := ⟨false, 0⟩
  psumReg : Valid16 := ⟨false, 0⟩
  fwdPsum : Valid16 := ⟨false, 0⟩

/-- What the events of one tile share: the elements, `Result` and `emitRow`. -/
structure Array2 where
  pe : Nat → Nat → PE
  result : Nat → Nat → BitVec 16
  emitRow : Nat → Nat

/-- `Construct_PE` and the two vectors beside it. -/
def Array2.construct : Array2 := ⟨fun _ _ => {}, fun _ _ => 0, fun _ => 0⟩

section

variable (n : Nat)

def preloadWeight (bTile : Nat → Nat → Byte) (cycle : Nat) (s : Array2) : Array2 :=
  { s with pe := fun i j => { s.pe i j with
      weightReg := if i = 0 then ⟨true, bTile (n - 1 - cycle) j⟩ else (s.pe (i - 1) j).weightReg } }

/-- Stage 1 of `PropagateA_And_MAC`. -/
def inject (aTile : Nat → Nat → Byte) (cycle : Nat) (pe : Nat → Nat → PE) : Nat → Nat → PE := fun i j =>
  { pe i j with
    inReg :=
      if j = 0 then if i ≤ cycle ∧ cycle - i < n then ⟨true, aTile (cycle - i) i⟩ else ⟨false, 0⟩
      else (pe i (j - 1)).fwdIn }

/-- The first loop of `FlushAndEmit`. -/
def shift (ghost : Nat → Valid8) (pe : Nat → Nat → PE) : Nat → Nat → PE := fun i j =>
  { pe i j with inReg := if j = 0 then ghost i else (pe i (j - 1)).fwdIn }

/-- The MAC loop. -/
def mac (pe : Nat → Nat → PE) : Nat → Nat → PE := fun i j =>
  let P := pe i j
  if P.weightReg.valid && P.inReg.valid then
    let prod := P.inReg.data.zeroExtend 16 * P.weightReg.data.zeroExtend 16
    let prev := if 0 < i ∧ (pe (i - 1) j).fwdPsum.valid = true then (pe (i - 1) j).fwdPsum.sum else 0
    { P with psumReg := ⟨true, prev + prod⟩ }
  else { P with psumReg := { P.psumReg with valid := false } }

/-- The forward loop. -/
def forward (pe : Nat → Nat → PE) : Nat → Nat → PE := fun i j =>
  { pe i j with fwdIn := (pe i j).inReg, fwdPsum := (pe i j).psumReg }

/-- Column `j` has a result to emit. -/
def fires (s : Array2) (j : Nat) : Bool := (s.pe (n - 1) j).psumReg.valid && decide (s.emitRow j < n)

/-- The emit loop. -/
def emit (s : Array2) : Array2 where
  pe := fun i j =>
    if i = n - 1 ∧ fires n s j = true then
      { s.pe i j with
        psumReg := { (s.pe i j).psumReg with valid := false }
        fwdPsum := { (s.pe i j).fwdPsum with valid := false } }
    else s.pe i j
  result := fun r j =>
    if fires n s j = true ∧ r = s.emitRow j then (s.pe (n - 1) j).psumReg.sum else s.result r j
  -- the counters are of type uint16_t
  emitRow := fun j => if fires n s j then (s.emitRow j + 1) % 2 ^ 16 else s.emitRow j

def propagateAndMac (aTile : Nat → Nat → Byte) (cycle : Nat) (s : Array2) : Array2 :=
  emit n { s with pe := forward (mac (inject n aTile cycle s.pe)) }

def flushAndEmit (ghost : Nat → Valid8) (s : Array2) : Array2 :=
  emit n { s with pe := forward (mac (shift ghost s.pe)) }

/-! ## What the registers hold -/

/-- The sum of the first `k` products of a row and a column. -/
def dotUpTo (a b : Nat → Byte) (k : Nat) : Nat := ∑ i ∈ Finset.range k, (a i).toNat * (b i).toNat

/-- Element `(i, j)` holds an operand after `t` cycles. -/
def Active (t i j : Nat) : Prop := i + j < t ∧ t ≤ n + i + j

instance (t i j : Nat) : Decidable (Active n t i j) := by unfold Active; infer_instance

variable (aTile bTile : Nat → Nat → Byte)

/-- The array after `t` cycles. A ghost enters column 0 at cycle `2 n - 1` and moves one column a cycle; by then
the columns it reaches have emitted all their results. -/
structure Wave (t : Nat) (s : Array2) : Prop where
  weight : ∀ i < n, ∀ j < n, (s.pe i j).weightReg = ⟨true, bTile i j⟩
  operand : ∀ i < n, ∀ j < n, t < j + 2 * n →
    (s.pe i j).fwdIn.valid = decide (Active n t i j) ∧
      (Active n t i j → (s.pe i j).fwdIn.data = aTile (t - 1 - i - j) i)
  psum : ∀ i < n - 1, ∀ j < n, t < j + 2 * n →
    (s.pe i j).fwdPsum.valid = decide (Active n t i j) ∧
      (Active n t i j → (s.pe i j).fwdPsum.sum =
        BitVec.ofNat 16 (dotUpTo (aTile (t - 1 - i - j)) (fun k => bTile k j) (i + 1)))
  emitted : ∀ j < n, s.emitRow j = min n (t - (n - 1) - j)
  result : ∀ r < n, ∀ j < n, r < s.emitRow j →
    s.result r j = BitVec.ofNat 16 (dotUpTo (aTile r) (fun k => bTile k j) n)

end

variable {n : Nat} {aTile bTile : Nat → Nat → Byte}

theorem dotUpTo_succ (a b : Nat → Byte) (k : Nat) :
    dotUpTo a b (k + 1) = dotUpTo a b k + (a k).toNat * (b k).toNat :=
  Finset.sum_range_succ _ _

theorem zeroExtend_mul (a b : Byte) :
    a.zeroExtend 16 * b.zeroExtend 16 = BitVec.ofNat 16 (a.toNat * b.toNat) := by
  apply BitVec.eq_of_toNat_eq
  have ha : a.toNat < 2 ^ 16 := lt_trans a.isLt (by decide)
  have hb : b.toNat < 2 ^ 16 := lt_trans b.isLt (by decide)
  simp only [BitVec.toNat_mul, BitVec.truncate_eq_setWidth, BitVec.toNat_setWidth, BitVec.toNat_ofNat,
    Nat.mod_eq_of_lt ha, Nat.mod_eq_of_lt hb]

/-! ## Preloading -/

/-- After `c` cycles of preloading, the rows above hold the last `c` rows of the tile. -/
theorem preload_weight (c : Nat) (hc : c ≤ n) (i j : Nat) (hi : i < c) :
    (((List.range c).foldl (fun s c => preloadWeight n bTile c s) .construct).pe i j).weightReg =
      ⟨true, bTile (n - c + i) j⟩ := by
  induction c generalizing i with
  | zero => omega
  | succ c ih =>
    rw [List.range_succ, List.foldl_append, List.foldl_cons, List.foldl_nil]
    generalize (List.range c).foldl (fun s c => preloadWeight n bTile c s) .construct = s at ih ⊢
    unfold preloadWeight
    dsimp only
    split
    · next h0 =>
      subst h0
      rw [show n - 1 - c = n - (c + 1) + 0 by omega]
    · next h0 =>
      rw [ih (by omega) (i - 1) (by omega), show n - c + (i - 1) = n - (c + 1) + i by omega]

/-- Preloading writes the weights only. -/
theorem preload_rest (cs : List Nat) (s : Array2) (i j : Nat) :
    let t := cs.foldl (fun s c => preloadWeight n bTile c s) s
    (t.pe i j).fwdIn = (s.pe i j).fwdIn ∧ (t.pe i j).fwdPsum = (s.pe i j).fwdPsum ∧ t.emitRow = s.emitRow := by
  induction cs generalizing s with
  | nil => exact ⟨rfl, rfl, rfl⟩
  | cons c cs ih => exact ih (preloadWeight n bTile c s)

theorem wave_zero : Wave n aTile bTile 0 ((List.range n).foldl (fun s c => preloadWeight n bTile c s) .construct) where
  weight i hi j hj := by
    rw [preload_weight n le_rfl i j hi, Nat.sub_self, Nat.zero_add]
  operand i hi j hj _ := by
    have hf : ¬ Active n 0 i j := fun h => Nat.not_lt_zero _ h.1
    rw [(preload_rest _ _ i j).1]
    exact ⟨by simp [Array2.construct, hf], fun h => absurd h hf⟩
  psum i hi j hj _ := by
    have hf : ¬ Active n 0 i j := fun h => Nat.not_lt_zero _ h.1
    rw [(preload_rest _ _ i j).2.1]
    exact ⟨by simp [Array2.construct, hf], fun h => absurd h hf⟩
  emitted j hj := by
    rw [(preload_rest _ _ 0 j).2.2]
    simp [Array2.construct]
  result r hr j hj h := by
    rw [(preload_rest _ _ 0 j).2.2] at h
    exact absurd h (Nat.not_lt_zero r)

/-! ## One cycle -/

theorem mac_weightReg (pe : Nat → Nat → PE) (i j : Nat) : (mac pe i j).weightReg = (pe i j).weightReg := by
  by_cases h : ((pe i j).weightReg.valid && (pe i j).inReg.valid) = true
  · simp only [mac, h, if_true]
  · simp only [mac, h]
    rfl

theorem mac_inReg (pe : Nat → Nat → PE) (i j : Nat) : (mac pe i j).inReg = (pe i j).inReg := by
  by_cases h : ((pe i j).weightReg.valid && (pe i j).inReg.valid) = true
  · simp only [mac, h, if_true]
  · simp only [mac, h]
    rfl

theorem mac_valid (pe : Nat → Nat → PE) (i j : Nat) :
    (mac pe i j).psumReg.valid = ((pe i j).weightReg.valid && (pe i j).inReg.valid) := by
  by_cases h : ((pe i j).weightReg.valid && (pe i j).inReg.valid) = true
  · simp only [mac, h, if_true]
  · simp only [mac, h]
    rfl

/-- The array in the middle of cycle `t`: the operands of the clean columns are in place. -/
structure Fed (n : Nat) (aTile : Nat → Nat → Byte) (t : Nat) (s : Array2) (pe : Nat → Nat → PE) : Prop where
  weightReg : ∀ i j, (pe i j).weightReg = (s.pe i j).weightReg
  fwdPsum : ∀ i j, (pe i j).fwdPsum = (s.pe i j).fwdPsum
  inReg : ∀ i < n, ∀ j < n, t + 1 < j + 2 * n → (pe i j).inReg.valid = decide (Active n (t + 1) i j) ∧
    (Active n (t + 1) i j → (pe i j).inReg.data = aTile (t - i - j) i)

section

variable {t : Nat} {s : Array2} {pe : Nat → Nat → PE}

/-- The sums of the clean columns, before the bottom row emits. -/
theorem Fed.sums (hf : Fed n aTile t s pe) (h : Wave n aTile bTile t s) {i j : Nat} (hi : i < n) (hj : j < n)
    (hc : t + 1 < j + 2 * n) : (mac pe i j).psumReg.valid = decide (Active n (t + 1) i j) ∧
      (Active n (t + 1) i j → (mac pe i j).psumReg.sum =
        BitVec.ofNat 16 (dotUpTo (aTile (t - i - j)) (fun k => bTile k j) (i + 1))) := by
  obtain ⟨hv, hd⟩ := hf.inReg i hi j hj hc
  have hwt : (pe i j).weightReg = ⟨true, bTile i j⟩ := (hf.weightReg i j).trans (h.weight i hi j hj)
  by_cases ha : Active n (t + 1) i j
  · have hprev : (if 0 < i ∧ (pe (i - 1) j).fwdPsum.valid = true then (pe (i - 1) j).fwdPsum.sum else 0) =
        BitVec.ofNat 16 (dotUpTo (aTile (t - i - j)) (fun k => bTile k j) i) := by
      rcases Nat.eq_zero_or_pos i with rfl | hpos
      · rfl
      · have ha' : Active n t (i - 1) j := by unfold Active at *; omega
        obtain ⟨h1, h2⟩ := h.psum (i - 1) (by omega) j hj (by omega)
        rw [hf.fwdPsum, h1, if_pos ⟨hpos, by simpa using ha'⟩, h2 ha',
          show t - 1 - (i - 1) - j = t - i - j by omega, show i - 1 + 1 = i by omega]
    unfold mac
    simp only [hwt, hv, ha, decide_true, Bool.and_self, if_true, hprev, hd ha, true_and, forall_const]
    rw [zeroExtend_mul, dotUpTo_succ, BitVec.ofNat_add]
  · refine ⟨?_, fun h => absurd h ha⟩
    unfold mac
    simp [hwt, hv, ha]

/-- A column emits when its bottom element is active: later, it has emitted all its rows. -/
theorem Fed.fires_eq (hf : Fed n aTile t s pe) (h : Wave n aTile bTile t s) (hn : 0 < n) {j : Nat} (hj : j < n) :
    fires n { s with pe := forward (mac pe) } j = decide (Active n (t + 1) (n - 1) j) := by
  unfold fires
  simp only [h.emitted j hj, forward]
  by_cases hc : t + 1 < j + 2 * n
  · rw [(hf.sums h (by omega) hj hc).1]
    by_cases ha : Active n (t + 1) (n - 1) j
    · have : min n (t - (n - 1) - j) < n := by unfold Active at ha; omega
      simp [ha, this]
    · simp [ha]
  · have ha : ¬ Active n (t + 1) (n - 1) j := by unfold Active; omega
    have : ¬ min n (t - (n - 1) - j) < n := by omega
    simp [ha, this]

/-- What both kinds of cycle do once the operands of the clean columns are in place, while no counter wraps. -/
theorem Fed.cycle (hf : Fed n aTile t s pe) (h : Wave n aTile bTile t s) (hn : 0 < n)
    (hlt : min n (t + 1 - (n - 1)) < 2 ^ 16) :
    Wave n aTile bTile (t + 1) (emit n { s with pe := forward (mac pe) }) where
  weight i hi j hj := by
    unfold emit
    dsimp only
    split <;> simp only [forward, mac_weightReg, hf.weightReg, h.weight i hi j hj]
  operand i hi j hj hc := by
    have hi' := hf.inReg i hi j hj hc
    rw [show t + 1 - 1 = t from rfl]
    unfold emit
    dsimp only
    split <;> simpa only [forward, mac_inReg] using hi'
  psum i hi j hj hc := by
    have hm := hf.sums h (i := i) (by omega) hj hc
    rw [show t + 1 - 1 = t from rfl]
    unfold emit
    dsimp only
    rw [if_neg (by omega)]
    exact hm
  emitted j hj := by
    unfold emit
    simp only [hf.fires_eq h hn hj, h.emitted j hj]
    by_cases ha : Active n (t + 1) (n - 1) j
    · simp only [ha, decide_true, if_true]
      unfold Active at ha
      rw [Nat.mod_eq_of_lt (by omega)]
      omega
    · simp only [ha, decide_false, Bool.false_eq_true, if_false]
      unfold Active at ha
      omega
  result r hr j hj hlt' := by
    unfold emit at hlt' ⊢
    simp only [hf.fires_eq h hn hj, h.emitted j hj] at hlt' ⊢
    by_cases ha : Active n (t + 1) (n - 1) j
    · simp only [ha, decide_true, if_true, true_and] at hlt' ⊢
      have hact := ha
      unfold Active at ha
      rw [Nat.mod_eq_of_lt (by omega)] at hlt'
      by_cases hr' : r = min n (t - (n - 1) - j)
      · rw [if_pos hr']
        have hs := (hf.sums h (by omega) hj (by omega)).2 hact
        rw [show n - 1 + 1 = n by omega, show t - (n - 1) - j = r by omega] at hs
        exact hs
      · rw [if_neg hr']
        exact h.result r hr j hj (by rw [h.emitted j hj]; omega)
    · simp only [ha, decide_false, Bool.false_eq_true, false_and, if_false] at hlt' ⊢
      exact h.result r hr j hj (by rw [h.emitted j hj]; exact hlt')

/-- The operand that moves right one column. -/
theorem Wave.operand_right (h : Wave n aTile bTile t s) {i j : Nat} (hi : i < n)
    (hj : j + 1 < n) (hc : t + 1 < j + 1 + 2 * n) :
    (s.pe i j).fwdIn.valid = decide (Active n (t + 1) i (j + 1)) ∧
      (Active n (t + 1) i (j + 1) → (s.pe i j).fwdIn.data = aTile (t - i - (j + 1)) i) := by
  obtain ⟨hv, hd⟩ := h.operand i hi j (by omega) (by omega)
  have hiff : Active n t i j ↔ Active n (t + 1) i (j + 1) := by unfold Active; omega
  refine ⟨by rw [hv, decide_eq_decide, hiff], fun ha => ?_⟩
  rw [hd (hiff.mpr ha), show t - 1 - i - j = t - i - (j + 1) by omega]

theorem Wave.fed_inject (h : Wave n aTile bTile t s) : Fed n aTile t s (inject n aTile t s.pe) := by
  refine ⟨fun i j => rfl, fun i j => rfl, fun i hi j hj hc => ?_⟩
  cases j with
  | zero =>
    have hiff : (i ≤ t ∧ t - i < n) ↔ Active n (t + 1) i 0 := by unfold Active; omega
    simp only [inject, if_true, hiff]
    by_cases ha : Active n (t + 1) i 0
    · simp [ha]
    · simp [ha]
  | succ j => exact h.operand_right hi hj hc

theorem Wave.fed_shift (h : Wave n aTile bTile t s) (ht : 2 * n - 1 ≤ t) (ghost : Nat → Valid8) :
    Fed n aTile t s (shift ghost s.pe) := by
  refine ⟨fun i j => rfl, fun i j => rfl, fun i hi j hj hc => ?_⟩
  cases j with
  | zero => omega
  | succ j => exact h.operand_right hi hj hc

theorem Wave.propagate (h : Wave n aTile bTile t s) (hn : 0 < n) (hlt : n < 2 ^ 16) :
    Wave n aTile bTile (t + 1) (propagateAndMac n aTile t s) :=
  h.fed_inject.cycle h hn (by omega)

theorem Wave.flush (h : Wave n aTile bTile t s) (hn : 0 < n) (hlt : n < 2 ^ 16) (ht : 2 * n - 1 ≤ t)
    (ghost : Nat → Valid8) : Wave n aTile bTile (t + 1) (flushAndEmit n ghost s) :=
  (h.fed_shift ht ghost).cycle h hn (by omega)

end

/-- **Main result.** After the last cycle every result of the tile is the product of a row and a column. -/
theorem tile_product {s : Array2} (h : Wave n aTile bTile (3 * n - 1) s) {r j : Nat} (hr : r < n) (hj : j < n) :
    s.result r j = BitVec.ofNat 16 (dotUpTo (aTile r) (fun k => bTile k j) n) :=
  h.result r hr j hj (by rw [h.emitted j hj]; omega)

end SocModel.Sa
