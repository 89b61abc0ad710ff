import Mathlib.Data.List.ProdSigma
import Mathlib.Tactic.Common

/-!
# Loops over arrays, and what they access

A `Recorded` computation works on a state and records the elements it accesses, in order, whether they exist or
not. Its loops count up or down; a property of their accesses follows the syntax of the loop.

* `Touches P m` : every element that `m` accesses satisfies `P`, from any state;
* `Hits x m` : `m` accesses `x`, from any state;
* `exec_forEach`, `exec_forEach_product` : what loops do, as folds; `Keeps` : the part of the state they leave alone;
* `get_foldl_inPlace` : a loop that overwrites the array it reads computes each new element from the old array, if
  it never reads an element that it has written.
-/

namespace SocModel.Lib

universe u v w

/-- The value, the new state and the accesses. -/
def Recorded (ι : Type u) (σ : Type v) (α : Type w) := σ → α × σ × List ι

namespace Recorded

variable {ι σ β : Type*} {α γ : Type w}

def val (m : Recorded ι σ α) (s : σ) : α := (m s).1

def exec (m : Recorded ι σ α) (s : σ) : σ := (m s).2.1

def touched (m : Recorded ι σ α) (s : σ) : List ι := (m s).2.2

instance : Monad (Recorded ι σ) where
  pure a := fun s => (a, s, [])
  bind m f := fun s =>
    let (a, t, xs) := m s
    let (b, u, ys) := f a t
    (b, u, xs ++ ys)

/-- Reads from the element `x`. -/
def read (x : ι) (f : σ → α) : Recorded ι σ α := fun s => (f s, s, [x])

/-- Writes to the element `x`. -/
def write (x : ι) (f : σ → σ) : Recorded ι σ Unit := fun s => ((), f s, [x])

def forEach (xs : List β) (body : β → Recorded ι σ Unit) : Recorded ι σ Unit :=
  match xs with
  | [] => pure ()
  | x :: xs => do
    body x
    forEach xs body

/-- `for (int i = lo; i < hi; ++i)` -/
def up (lo hi : Nat) (body : Int → Recorded ι σ Unit) : Recorded ι σ Unit :=
  forEach (List.range' lo (hi - lo)) fun i => body i

/-- `for (int i = hi - 1; i >= lo; --i)` -/
def down (lo hi : Nat) (body : Int → Recorded ι σ Unit) : Recorded ι σ Unit :=
  forEach (List.range' lo (hi - lo)).reverse fun i => body i

/-! ## What the computations do -/

variable (m : Recorded ι σ α) (f : α → Recorded ι σ γ) (body : β → Recorded ι σ Unit) (s : σ)

@[simp] theorem exec_pure (a : α) : (pure a : Recorded ι σ α).exec s = s := rfl

@[simp] theorem touched_pure (a : α) : (pure a : Recorded ι σ α).touched s = [] := rfl

@[simp] theorem exec_bind : (m >>= f).exec s = (f (m.val s)).exec (m.exec s) := rfl

@[simp] theorem touched_bind : (m >>= f).touched s = m.touched s ++ (f (m.val s)).touched (m.exec s) := rfl

@[simp] theorem val_read (x : ι) (g : σ → α) : (read x g).val s = g s := rfl

@[simp] theorem exec_read (x : ι) (g : σ → α) : (read x g).exec s = s := rfl

@[simp] theorem touched_read (x : ι) (g : σ → α) : (read x g).touched s = [x] := rfl

@[simp] theorem exec_write (x : ι) (g : σ → σ) : (write x g).exec s = g s := rfl

@[simp] theorem touched_write (x : ι) (g : σ → σ) : (write x g).touched s = [x] := rfl

theorem exec_forEach (xs : List β) : (forEach xs body).exec s = xs.foldl (fun s x => (body x).exec s) s := by
  induction xs generalizing s with
  | nil => rfl
  | cons x xs ih => exact ih ((body x).exec s)

/-- Nested loops are one loop over the pairs. -/
theorem exec_forEach_product (xs : List β) (ys : List γ) (body : β → γ → Recorded ι σ Unit) :
    (forEach xs fun x => forEach ys (body x)).exec s = (xs ×ˢ ys).foldl (fun s p => (body p.1 p.2).exec s) s := by
  induction xs generalizing s with
  | nil => rfl
  | cons x xs ih =>
    rw [List.product_cons, List.foldl_append, List.foldl_map, ← exec_forEach (body x), ← ih]
    rfl

/-! ## What they access -/

variable {m f body} {P : ι → Prop} {x : ι}

/-- Every access satisfies `P`. -/
def Touches (P : ι → Prop) (m : Recorded ι σ α) : Prop := ∀ s, ∀ x ∈ m.touched s, P x

theorem Touches.pure (a : α) : Touches P (Pure.pure a : Recorded ι σ α) := fun _ _ h => absurd h List.not_mem_nil

theorem Touches.read {g : σ → α} (h : P x) : Touches P (Recorded.read x g) :=
  fun _ _ hy => List.mem_singleton.mp hy ▸ h

theorem Touches.write {g : σ → σ} (h : P x) : Touches P (Recorded.write x g) :=
  fun _ _ hy => List.mem_singleton.mp hy ▸ h

theorem Touches.bind (hm : Touches P m) (hf : ∀ a, Touches P (f a)) : Touches P (m >>= f) := by
  intro s y hy
  rcases List.mem_append.mp hy with hy | hy
  · exact hm s y hy
  · exact hf _ _ y hy

theorem Touches.ite {c : Prop} [Decidable c] {m' : Recorded ι σ α} (h : c → Touches P m)
    (h' : ¬ c → Touches P m') : Touches P (if c then m else m') := by
  split
  · next hc => exact h hc
  · next hc => exact h' hc

theorem Touches.forEach {xs : List β} (h : ∀ y ∈ xs, Touches P (body y)) : Touches P (Recorded.forEach xs body) := by
  induction xs with
  | nil => exact Touches.pure ()
  | cons y ys ih =>
    exact (h y List.mem_cons_self).bind fun _ => ih fun z hz => h z (List.mem_cons_of_mem y hz)

theorem Touches.up {lo hi : Nat} {body : Int → Recorded ι σ Unit}
    (h : ∀ i : Int, lo ≤ i → i < hi → Touches P (body i)) : Touches P (Recorded.up lo hi body) := by
  refine Touches.forEach fun i hi => ?_
  rw [List.mem_range'_1] at hi
  exact h i (by omega) (by omega)

theorem Touches.down {lo hi : Nat} {body : Int → Recorded ι σ Unit}
    (h : ∀ i : Int, lo ≤ i → i < hi → Touches P (body i)) : Touches P (Recorded.down lo hi body) := by
  refine Touches.forEach fun i hi => ?_
  rw [List.mem_reverse, List.mem_range'_1] at hi
  exact h i (by omega) (by omega)

theorem Touches.mono {Q : ι → Prop} (h : Touches P m) (hPQ : ∀ y, P y → Q y) : Touches Q m :=
  fun s y hy => hPQ y (h s y hy)

/-- `x` is accessed. -/
def Hits (x : ι) (m : Recorded ι σ α) : Prop := ∀ s, x ∈ m.touched s

theorem Hits.read {g : σ → α} : Hits x (Recorded.read x g) := fun _ => List.mem_singleton_self x

theorem Hits.bind_left (h : Hits x m) : Hits x (m >>= f) := fun s => List.mem_append_left _ (h s)

theorem Hits.bind_right (h : ∀ a, Hits x (f a)) : Hits x (m >>= f) := fun _ => List.mem_append_right _ (h _ _)

theorem Hits.forEach {xs : List β} {y : β} (hy : y ∈ xs) (h : Hits x (body y)) :
    Hits x (Recorded.forEach xs body) := by
  induction xs with
  | nil => exact absurd hy List.not_mem_nil
  | cons z zs ih =>
    rcases List.mem_cons.mp hy with rfl | hy
    · exact h.bind_left
    · exact Hits.bind_right fun _ => ih hy

theorem Hits.up {lo hi i : Nat} {body : Int → Recorded ι σ Unit} (h : Hits x (body i)) (hlo : lo ≤ i) (hhi : i < hi) :
    Hits x (Recorded.up lo hi body) :=
  Hits.forEach (y := i) (List.mem_range'_1.mpr (by omega)) h

theorem Hits.down {lo hi i : Nat} {body : Int → Recorded ι σ Unit} (h : Hits x (body i)) (hlo : lo ≤ i)
    (hhi : i < hi) : Hits x (Recorded.down lo hi body) :=
  Hits.forEach (y := i) (List.mem_reverse.mpr (List.mem_range'_1.mpr (by omega))) h

/-! ## What they leave alone -/

/-- The part `g` of the state is the same before and after. -/
def Keeps {δ : Type*} (g : σ → δ) (m : Recorded ι σ α) : Prop := ∀ s, g (m.exec s) = g s

theorem Keeps.forEach {δ : Type*} {g : σ → δ} {xs : List β} (h : ∀ y ∈ xs, Keeps g (body y)) :
    Keeps g (Recorded.forEach xs body) := by
  induction xs with
  | nil => exact fun _ => rfl
  | cons y ys ih =>
    intro s
    exact (ih (fun z hz => h z (List.mem_cons_of_mem y hz)) _).trans (h y List.mem_cons_self s)

end Recorded

/-! ## In-place loops -/

section

variable {σ κ ν : Type*} [DecidableEq κ]

/-- **Main result.** Each step overwrites one element with a value that depends on it and on the elements `reads`
lists. If none of these is written earlier, the loop computes every element from the array it found. -/
theorem get_foldl_inPlace (get : σ → κ → ν) (step : κ → σ → σ) (f : κ → (κ → ν) → ν) (reads : κ → List κ) {xs : List κ}
    (hstep : ∀ x ∈ xs, ∀ s y, get (step x s) y = if y = x then f x (get s) else get s y)
    (hf : ∀ x v w, v x = w x → (∀ y ∈ reads x, v y = w y) → f x v = f x w)
    (hxs : xs.Pairwise fun x y => x ≠ y ∧ x ∉ reads y) (s : σ) (y : κ) :
    get (xs.foldl (fun s x => step x s) s) y = if y ∈ xs then f y (get s) else get s y := by
  induction xs generalizing s with
  | nil => simp
  | cons x xs ih =>
    obtain ⟨hx, hxs⟩ := List.pairwise_cons.mp hxs
    have hget := hstep x List.mem_cons_self s
    rw [List.foldl_cons, ih (fun z hz => hstep z (List.mem_cons_of_mem x hz)) hxs]
    by_cases hy : y ∈ xs
    · obtain ⟨hne, hread⟩ := hx y hy
      rw [if_pos hy, if_pos (List.mem_cons_of_mem x hy)]
      refine hf y _ _ ((hget y).trans (if_neg hne.symm)) fun z hz => (hget z).trans (if_neg ?_)
      rintro rfl
      exact hread hz
    · rw [if_neg hy, hget]
      by_cases hyx : y = x
      · simp [hyx]
      · simp [hyx, hy]

/-- The order of two nested loops. -/
theorem pairwise_product {α β : Type*} {R : α × β → α × β → Prop} {xs : List α} {ys : List β}
    {S : α → α → Prop} {T : β → β → Prop} (hxs : xs.Pairwise S) (hys : ys.Pairwise T)
    (hrow : ∀ a b b', T b b' → R (a, b) (a, b')) (hcol : ∀ a a' b b', S a a' → R (a, b) (a', b')) :
    (xs ×ˢ ys).Pairwise R := by
  induction xs with
  | nil => exact List.Pairwise.nil
  | cons x xs ih =>
    obtain ⟨hx, hxs⟩ := List.pairwise_cons.mp hxs
    rw [List.product_cons, List.pairwise_append, List.pairwise_map]
    refine ⟨hys.imp fun h => hrow x _ _ h, ih hxs, fun p hp q hq => ?_⟩
    obtain ⟨b, -, rfl⟩ := List.mem_map.mp hp
    exact hcol x q.1 b q.2 (hx q.1 (List.mem_product.mp hq).1)

end

end SocModel.Lib
