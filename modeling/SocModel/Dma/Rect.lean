import SocModel.Lib.Blocks

/-!
# Rectangles of bytes and their words

The rectangle `DMA_SIZE_CFG` describes, and its words as the DMA counts them: row by row, four bytes a column, the
last column of a row rounded up. A transfer copies whole words (`Windows` of the words of the two rectangles).

* `IsCopy` : the destination holds the source, every other byte is as before;
* `isCopy_of_windows` : when the width is a multiple of 4, whole words are a copy;
* `not_isCopy_of_windows` : otherwise there is a store of which they are not.
-/

namespace SocModel.Dma

open Lib

/-- `height` rows of `width` bytes, `stride` bytes apart. -/
structure Rect where
  base : Nat
  stride : Nat
  width : Nat
  height : Nat

namespace Rect

def cell (R : Rect) (r c : Nat) : Nat := R.base + r * R.stride + c

def bytes (R : Rect) : Set Nat := {x | ∃ r < R.height, ∃ c < R.width, x = R.cell r c}

theorem forall_bytes {R : Rect} {p : Nat → Prop} :
    (∀ x ∈ R.bytes, p x) ↔ ∀ r < R.height, ∀ c < R.width, p (R.cell r c) :=
  ⟨fun h r hr c hc => h _ ⟨r, hr, c, hc, rfl⟩, fun h _ ⟨r, hr, c, hc, hx⟩ => hx ▸ h r hr c hc⟩

theorem disjoint_of_lt {R R' : Rect} (h : ∀ x ∈ R.bytes, x < R'.base) : Disjoint R.bytes R'.bytes := by
  rw [Set.disjoint_left]
  rintro x hx ⟨r, -, c, -, rfl⟩
  have := h _ hx
  unfold cell at this
  omega

def wordsPerRow (R : Rect) : Nat := (R.width + 3) / 4

/-- The address of word `g`. -/
def word (R : Rect) (g : Nat) : Nat := R.base + g / R.wordsPerRow * R.stride + g % R.wordsPerRow * 4

def words (R : Rect) : Nat := R.wordsPerRow * R.height

theorem cell_mem {R : Rect} {r c : Nat} (hr : r < R.height) (hc : c < R.width) : R.cell r c ∈ R.bytes :=
  ⟨r, hr, c, hc, rfl⟩

theorem row_lt {R : Rect} {g : Nat} (h : g < R.words) : g / R.wordsPerRow < R.height :=
  Nat.div_lt_of_lt_mul h

theorem col_lt {R : Rect} {g : Nat} (h : g < R.words) : g % R.wordsPerRow < R.wordsPerRow := by
  refine Nat.mod_lt _ (Nat.pos_of_ne_zero fun h0 => ?_)
  rw [words, h0, Nat.zero_mul] at h
  omega

/-- The first byte of a word is in the rectangle. -/
theorem word_mem {R : Rect} {g : Nat} (h : g < R.words) : R.word g ∈ R.bytes := by
  have hc := col_lt h
  refine ⟨_, row_lt h, g % R.wordsPerRow * 4, ?_, rfl⟩
  unfold wordsPerRow at *
  omega

/-- Word `g` of row `r`, column `q`. -/
theorem word_at (R : Rect) {r q : Nat} (hq : q < R.wordsPerRow) :
    R.word (R.wordsPerRow * r + q) = R.cell r (q * 4) := by
  rw [word, cell, Nat.mul_add_div (by omega), Nat.mul_add_mod, Nat.div_eq_of_lt hq, Nat.mod_eq_of_lt hq,
    Nat.add_zero]

theorem index_lt {R : Rect} {r q : Nat} (hr : r < R.height) (hq : q < R.wordsPerRow) :
    R.wordsPerRow * r + q < R.words :=
  calc R.wordsPerRow * r + q < R.wordsPerRow * r + R.wordsPerRow := by omega
    _ = R.wordsPerRow * (r + 1) := rfl
    _ ≤ R.wordsPerRow * R.height := Nat.mul_le_mul_left _ hr

theorem row_mono (R : Rect) {r r' : Nat} (h : r ≤ r') : R.base + r * R.stride ≤ R.base + r' * R.stride :=
  Nat.add_le_add_left (Nat.mul_le_mul_right _ h) _

/-! ## Widths of whole words -/

theorem word_add_mem {R : Rect} (hw : R.width % 4 = 0) {g b : Nat} (h : g < R.words) (hb : b < 4) :
    R.word g + b ∈ R.bytes := by
  have hc := col_lt h
  refine ⟨_, row_lt h, g % R.wordsPerRow * 4 + b, ?_, ?_⟩
  · unfold wordsPerRow at *
    omega
  · rw [word, cell, Nat.add_assoc]

theorem words_subset {R : Rect} (hw : R.width % 4 = 0) {g : Nat} (h : g < R.words) :
    range (R.word g) 4 ⊆ R.bytes := by
  rintro x ⟨h1, h2⟩
  obtain ⟨b, rfl⟩ : ∃ b, x = R.word g + b := ⟨x - R.word g, by omega⟩
  exact word_add_mem hw h (by omega)

theorem cell_eq_word {R : Rect} (hw : R.width % 4 = 0) {r c : Nat} (hc : c < R.width) :
    R.cell r c = R.word (R.wordsPerRow * r + c / 4) + c % 4 := by
  rw [word_at R (by unfold wordsPerRow; omega), cell, cell]
  omega

/-- Rows that do not overlap have words that do not overlap. -/
theorem disjoint_words {R : Rect} (hw : R.width % 4 = 0) (hs : R.width ≤ R.stride) {g g' : Nat} (hg : g < g')
    (h : g' < R.words) : Disjoint (range (R.word g) 4) (range (R.word g') 4) := by
  have hc := col_lt (lt_trans hg h)
  have hc' := col_lt h
  have hr : g / R.wordsPerRow ≤ g' / R.wordsPerRow := Nat.div_le_div_right hg.le
  apply disjoint_range
  left
  rcases Nat.eq_or_lt_of_le hr with heq | hlt
  · have h1 := Nat.div_add_mod g R.wordsPerRow
    have h2 := Nat.div_add_mod g' R.wordsPerRow
    rw [heq] at h1
    rw [word, word, heq]
    omega
  · have hm := R.row_mono (Nat.succ_le_of_lt hlt)
    rw [Nat.succ_mul] at hm
    unfold word
    unfold wordsPerRow at *
    omega

end Rect

/-! ## Copies -/

/-- `m` holds the source rectangle of `m₀` in the destination rectangle, and `m₀` everywhere else. -/
def IsCopy (src dst : Rect) (m₀ m : Store) : Prop :=
  (∀ r < dst.height, ∀ c < dst.width, m (dst.cell r c) = m₀ (src.cell r c)) ∧ ∀ x, x ∉ dst.bytes → m x = m₀ x

/-- Two rectangles of one shape a transfer may copy between. -/
structure Fits (src dst : Rect) : Prop where
  width : src.width = dst.width
  height : src.height = dst.height
  stride : dst.width ≤ dst.stride
  disjoint : Disjoint src.bytes dst.bytes

variable {src dst : Rect} {m₀ m : Store} {cap : Nat}

theorem Fits.wordsPerRow (h : Fits src dst) : src.wordsPerRow = dst.wordsPerRow := by
  rw [Rect.wordsPerRow, h.width, Rect.wordsPerRow]

theorem Fits.words (h : Fits src dst) : src.words = dst.words := by
  rw [Rect.words, h.wordsPerRow, h.height, Rect.words]

/-- Whole words are the rectangle when the width is a multiple of 4. -/
theorem isCopy_of_windows (h : Fits src dst) (hw : dst.width % 4 = 0)
    (hm : Windows src.word dst.word 4 m₀ cap dst.words dst.words m) : IsCopy src dst m₀ m := by
  have hws : src.width % 4 = 0 := by rw [h.width, hw]
  have hcopied := hm.copied (fun g g' hg hg' => Rect.disjoint_words hw h.stride hg hg') fun g g' hg hg' =>
    h.disjoint.mono (Rect.words_subset hws (by rwa [h.words])) (Rect.words_subset hw hg')
  refine ⟨fun r hr c hc => ?_, fun x hx => hm.frame x ?_⟩
  · rw [Rect.cell_eq_word hw hc, Rect.cell_eq_word hws (by rwa [h.width]), h.wordsPerRow]
    refine hcopied _ (Rect.index_lt hr ?_) _ (Nat.mod_lt _ (by decide))
    unfold Rect.wordsPerRow
    omega
  · rintro ⟨g, hg, hxg⟩
    exact hx (Rect.words_subset hw hg hxg)

/-! ## Widths that leave a partial word -/

/-- The byte behind the last byte of the rectangle. -/
def Rect.behind (R : Rect) : Nat := R.cell (R.height - 1) R.width

theorem Rect.behind_not_mem (R : Rect) : R.behind ∉ R.bytes := by
  rintro ⟨r, hr, c, hc, he⟩
  have hm := R.row_mono (show r ≤ R.height - 1 by omega)
  unfold Rect.behind Rect.cell at he
  omega

/-- The last word of the rectangle reaches the byte behind it. -/
theorem Rect.last_word {R : Rect} (hw : R.width % 4 ≠ 0) (hh : 0 < R.height) :
    R.word (R.words - 1) + R.width % 4 = R.behind := by
  have hpos : 0 < R.wordsPerRow := by unfold wordsPerRow; omega
  have hi : R.words - 1 = R.wordsPerRow * (R.height - 1) + (R.wordsPerRow - 1) := by
    obtain ⟨k, hk⟩ : ∃ k, R.height = k + 1 := ⟨R.height - 1, by omega⟩
    rw [words, hk, Nat.mul_succ, Nat.add_sub_cancel]
    omega
  rw [hi, word_at R (by omega), behind, cell, cell]
  unfold wordsPerRow
  omega

/-- The bytes of words lie at most two bytes behind the byte behind the last row. -/
theorem Rect.word_le_behind {R : Rect} {g : Nat} (h : g < R.words) :
    R.word g ≤ R.behind - 1 ∧ R.word g + 3 ≤ R.behind + 2 := by
  have hc := col_lt h
  have hr := row_lt h
  have hm := R.row_mono (show g / R.wordsPerRow ≤ R.height - 1 by omega)
  unfold word behind cell
  unfold wordsPerRow at *
  omega

theorem Fits.behind_ne (h : Fits src dst) (hw : 0 < dst.width) (hh : 0 < dst.height) :
    src.behind ≠ dst.behind := by
  intro he
  have h1 : src.cell (dst.height - 1) (dst.width - 1) ∈ src.bytes :=
    Rect.cell_mem (by rw [h.height]; omega) (by rw [h.width]; omega)
  have h2 : dst.cell (dst.height - 1) (dst.width - 1) ∈ dst.bytes := Rect.cell_mem (by omega) (by omega)
  refine Set.disjoint_left.mp h.disjoint h1 ?_
  unfold Rect.behind at he
  rw [h.width, h.height] at he
  unfold Rect.cell at he h2 ⊢
  convert h2 using 1
  omega

/-- If a word of the destination meets the byte behind the source, it starts there: the bytes before are cells of
the source. -/
theorem Fits.meets (h : Fits src dst) (hw : 5 ≤ dst.width) (hh : 0 < dst.height)
    {g : Nat} (hg : g < dst.words) (hx : src.behind ∈ range (dst.word g) 4) :
    src.behind = dst.base + g / dst.wordsPerRow * dst.stride := by
  have hc := Rect.col_lt hg
  have hr := Rect.row_lt hg
  obtain ⟨c, hce⟩ : ∃ c, src.behind = dst.cell (g / dst.wordsPerRow) c ∧ c ≤ dst.width + 2 := by
    simp only [mem_range] at hx
    unfold Rect.word at hx
    refine ⟨src.behind - (dst.base + g / dst.wordsPerRow * dst.stride), ?_, ?_⟩
    · unfold Rect.cell
      omega
    · unfold Rect.wordsPerRow at *
      omega
  obtain ⟨hce, hcw⟩ := hce
  by_contra hne
  -- `k` bytes before the byte behind the source there is a cell of both rectangles
  obtain ⟨k, hk1, hk2, hk3⟩ : ∃ k, 0 < k ∧ k ≤ c ∧ c - k < dst.width ∧ k ≤ dst.width := by
    have hc0 : c ≠ 0 := fun h0 => hne (by rw [hce, h0, Rect.cell, Nat.add_zero])
    rcases Nat.lt_or_ge dst.width c with hlt | hge
    · exact ⟨c - dst.width + 1, by omega, by omega, by omega, by omega⟩
    · exact ⟨1, by omega, by omega, by omega, by omega⟩
  have h1 : src.cell (dst.height - 1) (dst.width - k) ∈ src.bytes :=
    Rect.cell_mem (by rw [h.height]; omega) (by rw [h.width]; omega)
  have h2 : dst.cell (g / dst.wordsPerRow) (c - k) ∈ dst.bytes := Rect.cell_mem hr hk3.1
  refine Set.disjoint_left.mp h.disjoint h1 ?_
  unfold Rect.behind at hce
  rw [h.width, h.height] at hce
  unfold Rect.cell at hce h2 ⊢
  convert h2 using 1
  omega

/-- The store with a 1 behind the destination and 0 everywhere else. -/
def markBehind (dst : Rect) : Store := fun x => if x = dst.behind then 1 else 0

/-- The last word overwrites the byte behind the destination, with a byte that never came from there. -/
theorem not_isCopy_of_windows (h : Fits src dst) (hw : dst.width % 4 ≠ 0) (hh : 0 < dst.height)
    (hcap : dst.height ≤ cap) (hm : Windows src.word dst.word 4 (markBehind dst) cap dst.words dst.words m) :
    ¬ IsCopy src dst (markBehind dst) m := by
  have hws : src.width % 4 ≠ 0 := by rw [h.width]; exact hw
  have hpos : 0 < dst.words := Nat.mul_pos (by unfold Rect.wordsPerRow; omega) hh
  have hzero : ∀ x, x ≠ dst.behind → markBehind dst x = 0 := fun x hx => if_neg hx
  have hbne := h.behind_ne (by omega) hh
  suffices h0 : m dst.behind = 0 by
    intro hc
    have := hc.2 _ (dst.behind_not_mem)
    rw [h0, markBehind, if_pos rfl] at this
    exact absurd this (by decide)
  obtain ⟨n, m', hn, hcases, hm', hlast⟩ := hm.last hpos
  have hlast := hlast (dst.width % 4) (Nat.mod_lt _ (by decide))
  have hsl : src.word (dst.words - 1) + dst.width % 4 = src.behind := by
    rw [← h.words, ← h.width]
    exact Rect.last_word hws (by rw [h.height]; exact hh)
  rw [Rect.last_word hw hh, hsl] at hlast
  rw [hlast]
  by_cases hx : src.behind ∈ blocks dst.word 4 n
  · obtain ⟨g, hg, hx⟩ := hx
    -- a second window means rows of two words or more
    have hw2 : 2 ≤ dst.wordsPerRow := by
      by_contra hlt
      have : dst.words ≤ 1 * dst.height := Nat.mul_le_mul_right _ (by omega)
      omega
    have hmeet := h.meets (by unfold Rect.wordsPerRow at hw2; omega) hh (lt_trans hg hn) hx
    refine hm'.const (x := dst.behind) (fun g' hg' hb => ?_) hzero _ hbne
    have hle := (Rect.word_le_behind (show g' < src.words by rwa [h.words])).2
    have hr := Rect.row_lt (lt_trans hg hn)
    have hmono := dst.row_mono (show g / dst.wordsPerRow ≤ dst.height - 1 by omega)
    simp only [mem_range, Rect.behind, Rect.cell] at hb
    unfold Rect.wordsPerRow at *
    omega
  · rw [hm'.frame _ hx]
    exact hzero _ hbne

end SocModel.Dma
