import Mathlib.Tactic.Common
import Mathlib.Tactic.Ring
import Mathlib.Data.Set.Lattice
import Mathlib.Order.CompletePartialOrder

/-!
# A little-endian byte store

A `Store` maps addresses to bytes. `load` reads the number that `n` bytes spell from the low byte up, `store`
writes the `n` low bytes of a number.

* `load_store_self`, `load_store_of_disjoint` : reading back, and reading elsewhere;
* `Frame s t W` : `s` and `t` differ inside `W` at most (`Frame.trans`, `Frame.mono`, `Frame.load`);
* `store_comm` : stores to disjoint ranges commute.
-/

namespace SocModel.Lib

abbrev Byte := BitVec 8

abbrev Store := Nat → Byte

/-- The addresses of a range of `n` bytes at `a`. -/
def range (a n : Nat) : Set Nat := {x | a ≤ x ∧ x < a + n}

@[simp] theorem mem_range {a n x : Nat} : x ∈ range a n ↔ a ≤ x ∧ x < a + n := Iff.rfl

theorem disjoint_range {a n b m : Nat} (h : a + n ≤ b ∨ b + m ≤ a) : Disjoint (range a n) (range b m) := by
  rw [Set.disjoint_left]
  intro x hx hy
  simp only [mem_range] at hx hy
  omega

/-- The value of the `n` bytes at `a`. -/
def load (s : Store) (a : Nat) : Nat → Nat
  | 0 => 0
  | n + 1 => (s a).toNat + 256 * load s (a + 1) n

/-- The store with the `n` low bytes of `v` at `a`. -/
def store (s : Store) (a n v : Nat) : Store := fun x =>
  if a ≤ x ∧ x < a + n then BitVec.ofNat 8 (v / 256 ^ (x - a)) else s x

theorem store_apply_of_mem {s : Store} {a n v x : Nat} (h : a ≤ x ∧ x < a + n) :
    store s a n v x = BitVec.ofNat 8 (v / 256 ^ (x - a)) := if_pos h

theorem store_apply_of_not_mem {s : Store} {a n v x : Nat} (h : ¬ (a ≤ x ∧ x < a + n)) :
    store s a n v x = s x := if_neg h

@[simp] theorem store_zero (s : Store) (a v : Nat) : store s a 0 v = s := by
  funext x
  exact store_apply_of_not_mem (by omega)

theorem load_congr {s t : Store} {a n : Nat} (h : ∀ x, a ≤ x → x < a + n → s x = t x) :
    load s a n = load t a n := by
  induction n generalizing a with
  | zero => rfl
  | succ n ih =>
    rw [load, load, h a (by omega) (by omega), ih fun x hx hx' => h x (by omega) (by omega)]

theorem load_lt (s : Store) (a n : Nat) : load s a n < 256 ^ n := by
  induction n generalizing a with
  | zero => exact Nat.one_pos
  | succ n ih =>
    have hb : (s a).toNat < 256 := (s a).isLt
    have := ih (a + 1)
    rw [load, pow_succ]
    omega

/-- A byte of a loaded value. -/
theorem load_div_mod (s : Store) (a n i : Nat) (hi : i < n) :
    load s a n / 256 ^ i % 256 = (s (a + i)).toNat := by
  induction n generalizing a i with
  | zero => omega
  | succ n ih =>
    have hb : (s a).toNat < 256 := (s a).isLt
    cases i with
    | zero =>
      rw [load, pow_zero, Nat.div_one]
      simp only [Nat.add_zero]
      omega
    | succ i =>
      rw [load, pow_succ, Nat.mul_comm (256 ^ i) 256, ← Nat.div_div_eq_div_mul,
        show ((s a).toNat + 256 * load s (a + 1) n) / 256 = load s (a + 1) n by omega, ih _ _ (by omega)]
      congr 2
      omega

theorem load_store_self (s : Store) (a n v : Nat) : load (store s a n v) a n = v % 256 ^ n := by
  suffices h : ∀ k j w, w = v / 256 ^ j → j + k = n → load (store s a n v) (a + j) k = w % 256 ^ k by
    simpa using h n 0 v (by simp) (by omega)
  intro k
  induction k with
  | zero =>
    intro j w _ _
    rw [load, pow_zero, Nat.mod_one]
  | succ k ih =>
    intro j w hw hj
    rw [load, store_apply_of_mem ⟨by omega, by omega⟩, show a + j + 1 = a + (j + 1) by omega,
      ih (j + 1) (w / 256) (by rw [hw, Nat.div_div_eq_div_mul, ← pow_succ]) (by omega),
      show a + j - a = j by omega, ← hw, BitVec.toNat_ofNat, show 256 ^ (k + 1) = 256 * 256 ^ k by ring,
      Nat.mod_mul]

theorem load_store_of_disjoint {s : Store} {a n v b m : Nat} (h : Disjoint (range a n) (range b m)) :
    load (store s a n v) b m = load s b m :=
  load_congr fun _ hx hx' => store_apply_of_not_mem fun ha => Set.disjoint_left.mp h ha ⟨hx, hx'⟩

theorem store_comm {s : Store} {a n v b m w : Nat} (h : Disjoint (range a n) (range b m)) :
    store (store s a n v) b m w = store (store s b m w) a n v := by
  funext x
  by_cases hb : b ≤ x ∧ x < b + m
  · have ha : ¬ (a ≤ x ∧ x < a + n) := fun ha => Set.disjoint_left.mp h ha hb
    rw [store_apply_of_mem hb, store_apply_of_not_mem ha, store_apply_of_mem hb]
  · rw [store_apply_of_not_mem hb]
    by_cases ha : a ≤ x ∧ x < a + n
    · rw [store_apply_of_mem ha, store_apply_of_mem ha]
    · rw [store_apply_of_not_mem ha, store_apply_of_not_mem ha, store_apply_of_not_mem hb]

/-! ## Frames -/

/-- `s` and `t` agree outside `W`. -/
def Frame (s t : Store) (W : Set Nat) : Prop := ∀ x, x ∉ W → t x = s x

theorem Frame.refl (s : Store) (W : Set Nat) : Frame s s W := fun _ _ => rfl

theorem Frame.mono {s t : Store} {W W' : Set Nat} (h : Frame s t W) (hW : W ⊆ W') : Frame s t W' :=
  fun x hx => h x fun hw => hx (hW hw)

theorem Frame.trans {s t u : Store} {W : Set Nat} (h : Frame s t W) (h' : Frame t u W) : Frame s u W :=
  fun x hx => (h' x hx).trans (h x hx)

theorem Frame.store (s : Store) (a n v : Nat) : Frame s (store s a n v) (range a n) :=
  fun _ hx => store_apply_of_not_mem hx

theorem Frame.load {s t : Store} {W : Set Nat} (h : Frame s t W) {a n : Nat} (hd : Disjoint (range a n) W) :
    load t a n = load s a n :=
  load_congr fun x hx hx' => h x (Set.disjoint_left.mp hd ⟨hx, hx'⟩)

end SocModel.Lib
