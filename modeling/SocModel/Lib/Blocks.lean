import SocModel.Lib.Bytes

/-!
# Copying blocks in windows

Block `g` of a region is the `w` bytes at `S g`; it is copied to `D g`. The blocks go in order, a window of them at
a time: the blocks of a window are all loaded before the first of them is stored.

* `copyBlocks` : one window, `Windows` : the stores after some number of whole windows;
* `Windows.copied` : blocks that do not meet each other arrive as they were at first;
* `Windows.frame`, `Windows.last` : what no window touches, and the last block.
-/

namespace SocModel.Lib

/-- A byte of a block stored with the value of another block. -/
theorem store_load_apply (s m : Store) (a d : Nat) {b w : Nat} (hb : b < w) :
    store m d w (load s a w) (d + b) = s (a + b) := by
  rw [store_apply_of_mem ⟨by omega, by omega⟩, show d + b - d = b by omega]
  apply BitVec.eq_of_toNat_eq
  rw [BitVec.toNat_ofNat]
  exact load_div_mod s a w b hb

section

variable (S D : Nat → Nat) (w : Nat)

/-- Blocks `n`, …, `n + k - 1`, loaded from `s`, stored into `m`. -/
def copyBlocks (s m : Store) (n : Nat) : Nat → Store
  | 0 => m
  | k + 1 => store (copyBlocks s m n k) (D (n + k)) w (load s (S (n + k)) w)

/-- The addresses of the first `n` blocks. -/
def blocks (n : Nat) : Set Nat := {x | ∃ g < n, x ∈ range (D g) w}

/-- `m` is the store after the windows up to block `n`; a window has `cap` blocks, the last one what is left. -/
inductive Windows (m₀ : Store) (cap total : Nat) : Nat → Store → Prop
  | start : Windows m₀ cap total 0 m₀
  | next {n k : Nat} {m : Store} (h : Windows m₀ cap total n m) (hk : 0 < k) (hc : k = cap ∨ n + k = total)
    (ht : n + k ≤ total) : Windows m₀ cap total (n + k) (copyBlocks S D w m m n k)

end

variable {S D : Nat → Nat} {w : Nat}

theorem blocks_mono {n n' : Nat} (h : n ≤ n') : blocks D w n ⊆ blocks D w n' :=
  fun _ ⟨g, hg, hx⟩ => ⟨g, by omega, hx⟩

theorem copyBlocks_frame (s m : Store) (n k : Nat) : Frame m (copyBlocks S D w s m n k) (blocks D w (n + k)) := by
  induction k with
  | zero => exact Frame.refl _ _
  | succ k ih =>
    refine (ih.mono (blocks_mono (by omega))).trans ((Frame.store _ _ _ _).mono ?_)
    exact fun x hx => ⟨n + k, by omega, hx⟩

namespace Windows

variable {m₀ m : Store} {cap total n : Nat}

theorem le_total (h : Windows S D w m₀ cap total n m) : n ≤ total := by
  cases h <;> omega

theorem frame (h : Windows S D w m₀ cap total n m) : Frame m₀ m (blocks D w n) := by
  induction h with
  | start => exact Frame.refl _ _
  | next h hk hc ht ih => exact (ih.mono (blocks_mono (by omega))).trans (copyBlocks_frame _ _ _ _)

/-- No window stores a byte of the source, so every block is loaded as it was at first, and no later block is
stored over it. -/
theorem copied (hD : ∀ g g', g < g' → g' < total → Disjoint (range (D g) w) (range (D g') w))
    (hS : ∀ g g', g < total → g' < total → Disjoint (range (S g) w) (range (D g') w))
    (h : Windows S D w m₀ cap total n m) : ∀ g < n, ∀ b < w, m (D g + b) = m₀ (S g + b) := by
  have hsrc {n : Nat} {m : Store} (h : Windows S D w m₀ cap total n m) {g b : Nat} (hg : g < total)
      (hb : b < w) : m (S g + b) = m₀ (S g + b) := by
    have hle := h.le_total
    refine h.frame _ ?_
    rintro ⟨g', hg', hx⟩
    exact Set.disjoint_left.mp (hS g g' hg (by omega)) (by simp [hb]) hx
  induction h with
  | start => exact fun g hg => absurd hg (by omega)
  | @next n k m h hk hc ht ih =>
    suffices hall : ∀ j ≤ k, ∀ g < n + j, ∀ b < w, copyBlocks S D w m m n j (D g + b) = m₀ (S g + b) from
      hall k le_rfl
    intro j
    induction j with
    | zero => exact fun _ g hg b hb => ih g hg b hb
    | succ j ihj =>
      intro hj g hg b hb
      rw [copyBlocks]
      by_cases hgj : g = n + j
      · subst hgj
        rw [store_load_apply _ _ _ _ hb, hsrc h (by omega) hb]
      · rw [store_apply_of_not_mem, ihj (by omega) g (by omega) b hb]
        exact fun hx => Set.disjoint_left.mp (hD g (n + j) (by omega) (by omega)) (by simp [hb]) hx

/-- The last block is the last to be stored: it holds what the store before its window has at its source. -/
theorem last (h : Windows S D w m₀ cap total total m) (hpos : 0 < total) :
    ∃ n m', n < total ∧ (n = 0 ∨ cap ≤ n) ∧ Windows S D w m₀ cap total n m' ∧
      ∀ b < w, m (D (total - 1) + b) = m' (S (total - 1) + b) := by
  generalize hn : total = n at h
  subst hn
  cases h with
  | start => omega
  | @next n k m' h hk hc ht =>
    refine ⟨n, m', by omega, ?_, h, fun b hb => ?_⟩
    · cases h with
      | start => exact .inl rfl
      | next h hk' hc' ht' => omega
    · obtain ⟨j, rfl⟩ : ∃ j, k = j + 1 := ⟨k - 1, by omega⟩
      rw [copyBlocks, show n + (j + 1) - 1 = n + j by omega, store_load_apply _ _ _ _ hb]

/-- A value that every byte outside `x` has, and that no block loads from `x`, spreads to no other byte. -/
theorem const {x : Nat} {v : Byte} (hS : ∀ g < total, x ∉ range (S g) w) (h₀ : ∀ y, y ≠ x → m₀ y = v)
    (h : Windows S D w m₀ cap total n m) : ∀ y, y ≠ x → m y = v := by
  induction h with
  | start => exact h₀
  | @next n k m h hk hc ht ih =>
    suffices hall : ∀ j ≤ k, ∀ y, y ≠ x → copyBlocks S D w m m n j y = v from hall k le_rfl
    intro j
    induction j with
    | zero => exact fun _ => ih
    | succ j ihj =>
      intro hj y hy
      rw [copyBlocks]
      by_cases hb : D (n + j) ≤ y ∧ y < D (n + j) + w
      · obtain ⟨b, rfl⟩ : ∃ b, y = D (n + j) + b := ⟨y - D (n + j), by omega⟩
        rw [store_load_apply _ _ _ _ (by omega)]
        refine ih _ fun he => hS (n + j) (by omega) ?_
        simp only [mem_range]
        omega
      · rw [store_apply_of_not_mem hb]
        exact ihj (by omega) y hy

end Windows

end SocModel.Lib
