import Mathlib.Algebra.BigOperators.Group.Finset.Piecewise
import Mathlib.Tactic.Common

/-!
# Sums over blocks

A loop that runs from 0 in steps of `n` cuts the numbers below `s` into blocks, the last one what is left. Sums over
the blocks are sums over the numbers.

* `starts` : the values the loop counter takes;
* `sum_starts` : all blocks, `sum_starts_mem` : the one block of a number;
* `sum_tiles` : the tiles of a matrix product, cut in three directions.
-/

namespace SocModel.Lib

/-- The values of `x` in `for (x = 0; x < s; x += n)`. -/
def starts (n s : Nat) : List Nat := (List.range ((s + n - 1) / n)).map (· * n)

/-- `i` is in the block that starts at `b`. -/
def InBlock (n s b i : Nat) : Prop := b ≤ i ∧ i < b + min n (s - b)

instance (n s b i : Nat) : Decidable (InBlock n s b i) := by unfold InBlock; infer_instance

theorem starts_lt {n s b : Nat} (h : b ∈ starts n s) : b < s := by
  simp only [starts, List.mem_map, List.mem_range] at h
  obtain ⟨c, hc, rfl⟩ := h
  rcases Nat.eq_zero_or_pos n with rfl | hn
  · simp at hc
  · have hle := (Nat.le_div_iff_mul_le hn).mp (Nat.succ_le_of_lt hc)
    rw [Nat.succ_mul] at hle
    omega

section

variable {α : Type*} [AddCommMonoid α]

/-- The first `c` blocks. -/
theorem sum_blocks (n s c : Nat) (g : Nat → α) :
    ((List.range c).map fun b => ∑ x ∈ Finset.range (min n (s - b * n)), g (b * n + x)).sum =
      ∑ k ∈ Finset.range (min s (c * n)), g k := by
  induction c with
  | zero => simp
  | succ c ih =>
    rw [List.range_succ, List.map_append, List.sum_append, ih, List.map_singleton, List.sum_singleton, Nat.succ_mul]
    rcases Nat.lt_or_ge s (c * n) with h | h
    · rw [show s - c * n = 0 by omega, Nat.min_zero, Finset.sum_range_zero, add_zero, Nat.min_eq_left h.le,
        Nat.min_eq_left (by omega)]
    · rw [Nat.min_eq_right h, ← Finset.sum_range_add]
      congr 2
      omega

theorem sum_starts {n : Nat} (hn : 0 < n) (s : Nat) (g : Nat → α) :
    ((starts n s).map fun b => ∑ x ∈ Finset.range (min n (s - b)), g (b + x)).sum = ∑ k ∈ Finset.range s, g k := by
  have hle : s ≤ (s + n - 1) / n * n := by
    have h1 := Nat.div_add_mod (s + n - 1) n
    have h2 := Nat.mod_lt (s + n - 1) hn
    rw [Nat.mul_comm n] at h1
    omega
  rw [starts, List.map_map]
  exact (sum_blocks n s _ g).trans (by rw [Nat.min_eq_left hle])

theorem sum_starts_mem {n : Nat} (hn : 0 < n) (s i : Nat) (v : α) :
    ((starts n s).map fun b => if InBlock n s b i then v else 0).sum = if i < s then v else 0 := by
  have hone : ∀ b m : Nat, (∑ x ∈ Finset.range m, if b + x = i then v else 0) =
      if b ≤ i ∧ i < b + m then v else 0 := by
    intro b m
    split
    · next h =>
      rw [Finset.sum_eq_single_of_mem (i - b) (Finset.mem_range.mpr (by omega))
        (fun x _ hx => if_neg (by omega)), if_pos (by omega)]
    · next h =>
      refine Finset.sum_eq_zero fun x hx => if_neg ?_
      rw [Finset.mem_range] at hx
      omega
  have hsum := sum_starts hn s fun k => if k = i then v else 0
  simp only [hone] at hsum
  rw [Finset.sum_ite_eq' (Finset.range s) i fun _ => v] at hsum
  simpa only [InBlock, Finset.mem_range] using hsum

theorem sum_flatMap {β : Type*} (l : List β) (f : β → List α) :
    (l.flatMap f).sum = (l.map fun b => (f b).sum).sum := by
  induction l with
  | nil => rfl
  | cons b l ih => rw [List.flatMap_cons, List.sum_append, ih, List.map_cons, List.sum_cons]

theorem sum_map_ite (l : List Nat) (p : Prop) [Decidable p] (f : Nat → α) :
    (l.map fun k => if p then f k else 0).sum = if p then (l.map f).sum else 0 := by
  split
  · rfl
  · exact List.sum_eq_zero fun x hx => by simpa using (List.mem_map.mp hx).choose_spec.2.symm

/-- The tiles of a product of `a` rows, `b` columns and `d` terms: each element is the sum of all terms. -/
theorem sum_tiles {n : Nat} (hn : 0 < n) (a b d i j : Nat) (g : Nat → α) :
    ((starts n a).flatMap fun r => (starts n b).flatMap fun c => (starts n d).map fun k =>
      if InBlock n a r i ∧ InBlock n b c j then ∑ x ∈ Finset.range (min n (d - k)), g (k + x) else 0).sum =
      if i < a ∧ j < b then ∑ k ∈ Finset.range d, g k else 0 := by
  simp only [sum_flatMap, sum_map_ite, sum_starts hn, ite_and]
  simp only [sum_starts_mem hn]

end

end SocModel.Lib
