import Mathlib.Data.Nat.Basic
import Mathlib.Tactic.Common

/-!
# Words cut into lanes

* `lane w k x` : bits `k * w .. k * w + w - 1` of `x`, a lane of `w` bits;
* `pack n f m` : the word of `n` bits with `f 0, …, f (m - 1)` in its lanes, put together by shifts and ORs
  (`getLsbD_pack`, `lane_pack`);
* `LaneOp` : an operation that sees one lane of each operand for each lane of its result (`lane_eval`,
  `lane_eval_congr`).
-/

namespace SocModel.Lanes

variable {n w m k : Nat}

/-- Lane `k` of `w` bits. -/
def lane (w k : Nat) (x : BitVec n) : BitVec w := (x >>> (k * w)).setWidth w

/-- The OR of `f 0, …, f (m - 1)`, each shifted to its lane. -/
def pack (n : Nat) (f : Nat → BitVec w) : Nat → BitVec n
  | 0 => 0#n
  | m + 1 => pack n f m ||| ((f m).setWidth n <<< (m * w))

theorem getLsbD_lane (x : BitVec n) {i : Nat} (hi : i < w) : (lane w k x).getLsbD i = x.getLsbD (k * w + i) := by
  simp [lane, hi]

theorem getLsbD_pack_step (x : BitVec w) (i : Nat) :
    (x.setWidth n <<< (m * w)).getLsbD i = (decide (i < n) && decide (i / w = m) && x.getLsbD (i % w)) := by
  simp only [BitVec.getLsbD_shiftLeft, BitVec.getLsbD_setWidth]
  by_cases hn : i < n
  · by_cases hw : w = 0
    · subst hw
      simp
    have hdiv := Nat.div_add_mod i w
    have hmod := Nat.mod_lt i (Nat.pos_of_ne_zero hw)
    by_cases hm : i / w = m
    · -- the bit lies in lane `m`, at position `i % w` of it
      have hi : m * w + i % w = i := by
        rw [← hm, Nat.mul_comm]
        exact hdiv
      have hsub : i - m * w = i % w := by omega
      have hlt : ¬ i < m * w := by omega
      have hn' : i % w < n := by omega
      simp [hn, hm, hsub, hlt, hn']
    · rcases Nat.lt_or_gt_of_ne hm with hlt | hgt
      · -- below the lane: the shift brings in a zero
        have : i < m * w := (Nat.div_lt_iff_lt_mul (Nat.pos_of_ne_zero hw)).mp hlt
        simp [this, hm]
      · -- above the lane: past the width of `x`
        have hge : (m + 1) * w ≤ i := (Nat.le_div_iff_mul_le (Nat.pos_of_ne_zero hw)).mp hgt
        have : w ≤ i - m * w := by
          rw [Nat.add_mul, Nat.one_mul] at hge
          omega
        simp [hm, BitVec.getLsbD_of_ge x _ this]
  · simp [hn]

theorem getLsbD_pack (f : Nat → BitVec w) (m i : Nat) :
    (pack n f m).getLsbD i = (decide (i < n) && decide (i / w < m) && (f (i / w)).getLsbD (i % w)) := by
  induction m with
  | zero => simp [pack]
  | succ m ih =>
    rw [pack, BitVec.getLsbD_or, ih, getLsbD_pack_step]
    by_cases hm : i / w = m
    · simp [hm]
    · have : i / w < m + 1 ↔ i / w < m := by omega
      simp [hm, this]

/-- Each lane is read back as it was put in. -/
theorem lane_pack (f : Nat → BitVec w) (hk : k < m) (hm : m * w ≤ n) : lane w k (pack n f m) = f k := by
  apply BitVec.eq_of_getLsbD_eq
  intro i hi
  have hw : 0 < w := by omega
  have hdiv : (k * w + i) / w = k := by
    rw [Nat.add_comm, Nat.add_mul_div_right _ _ hw, Nat.div_eq_of_lt hi, Nat.zero_add]
  have hmod : (k * w + i) % w = i := by
    rw [Nat.add_comm, Nat.add_mul_mod_self_right, Nat.mod_eq_of_lt hi]
  have hn : k * w + i < n := by
    have : (k + 1) * w ≤ m * w := Nat.mul_le_mul_right w hk
    rw [Nat.add_mul, Nat.one_mul] at this
    omega
  rw [getLsbD_lane _ hi, getLsbD_pack, hdiv, hmod]
  simp [hn, hk]

/-! ## Operations by lanes -/

/-- Lane `k` of the result, of `width` bits, from lane `src k` of each operand, of `srcWidth` bits. -/
structure LaneOp where
  srcWidth : Nat
  width : Nat
  src : Nat → Nat
  op : BitVec srcWidth → BitVec srcWidth → BitVec width

namespace LaneOp

/-- The word of `m` result lanes. -/
def eval (o : LaneOp) (m : Nat) (x y : BitVec n) : BitVec n :=
  pack n (fun k => o.op (lane o.srcWidth (o.src k) x) (lane o.srcWidth (o.src k) y)) m

theorem lane_eval (o : LaneOp) (x y : BitVec n) (hk : k < m) (hm : m * o.width ≤ n) :
    lane o.width k (o.eval m x y) = o.op (lane o.srcWidth (o.src k) x) (lane o.srcWidth (o.src k) y) :=
  lane_pack _ hk hm

/-- Nothing outside the source lane reaches a result lane. -/
theorem lane_eval_congr (o : LaneOp) {x y x' y' : BitVec n} (hk : k < m) (hm : m * o.width ≤ n)
    (hx : lane o.srcWidth (o.src k) x = lane o.srcWidth (o.src k) x')
    (hy : lane o.srcWidth (o.src k) y = lane o.srcWidth (o.src k) y') :
    lane o.width k (o.eval m x y) = lane o.width k (o.eval m x' y') := by
  rw [lane_eval o x y hk hm, lane_eval o x' y' hk hm, hx, hy]

end LaneOp

end SocModel.Lanes
