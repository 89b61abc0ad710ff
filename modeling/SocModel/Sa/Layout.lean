import SocModel.Sa.Load

/-!
# The two layouts of a matrix in the SRAM

The DMA writes row `r` of a matrix `r * stride` bytes behind its base, as the destination stride that
`AskDMAtoWrite_matA` gives it says. The unpacking loops take each row from a whole number of words. The layouts are one
for the strides that are multiples of four, and where there is one row only (`unpack_layout_iff`).
-/

namespace SocModel.Sa

open Lib

/-- Row `r`, column `c` of the matrix is where a transfer with the destination stride puts it. -/
def WrittenAt (sram : Store) (addr : Word) (stride : Nat) (matrix : Nat → Nat → Byte) : Prop :=
  ∀ r < stride, ∀ c < stride, sram (addr.toNat + r * stride + c) = matrix r c

/-- The unpacking loops yield the matrix; `m` is what the destination held before. -/
def Unpacks (sram : Store) (addr : Word) (stride : Nat) (m matrix : Nat → Nat → Byte) : Prop :=
  ∃ m', unpack sram addr stride m = .ok m' ∧ ∀ r < stride, ∀ c < stride, m' r c = matrix r c

/-- The words that the loops read are in the SRAM. -/
def Readable (addr : Word) (stride : Nat) : Prop :=
  stride = 0 ∨ wordIdx addr stride (stride - 1) (stride - 1) < SA_SRAM_SIZE

section

variable {addr : Word} {stride : Nat}

/-- What the loops yield, byte by byte. -/
theorem unpacks_iff (hs : stride ≤ MATRIX_SIZE) (h4 : addr.toNat % 4 = 0) (sram : Store) (m matrix : Nat → Nat → Byte) :
    Unpacks sram addr stride m matrix ↔ Readable addr stride ∧
      ∀ r < stride, ∀ c < stride, sram (addr.toNat + r * (4 * rowWords stride) + c) = matrix r c := by
  by_cases h0 : stride = 0
  · subst h0
    exact iff_of_true ⟨m, if_pos rfl, fun _ h => absurd h (Nat.not_lt_zero _)⟩
      ⟨.inl rfl, fun _ h => absurd h (Nat.not_lt_zero _)⟩
  · by_cases hroom : wordIdx addr stride (stride - 1) (stride - 1) < SA_SRAM_SIZE
    · obtain ⟨m', hm', helem⟩ := unpack_apply sram m h4 hs hroom
      have hread : ∀ r < stride, ∀ c < stride, m' r c = sram (addr.toNat + r * (4 * rowWords stride) + c) := by
        intro r hr c hc
        rw [helem, if_pos ⟨hr, hc⟩]
      constructor
      · rintro ⟨m'', hm'', hmat⟩
        obtain rfl : m' = m'' := Except.ok.inj (hm'.symm.trans hm'')
        exact ⟨.inr hroom, fun r hr c hc => (hread r hr c hc).symm.trans (hmat r hr c hc)⟩
      · rintro ⟨-, hmat⟩
        exact ⟨m', hm', fun r hr c hc => (hread r hr c hc).trans (hmat r hr c hc)⟩
    · have hfault : unpack sram addr stride m = .error .arrayIndex := by
        unfold unpack
        rw [if_neg h0, if_pos (.inr (Nat.not_lt.mp hroom))]
      refine iff_of_false ?_ fun h => h.1.elim h0 hroom
      rintro ⟨m', hm', -⟩
      exact nomatch hfault.symm.trans hm'

/-- A region of whole rows of words that fits is read within the SRAM. -/
theorem readable_of_agree (hfit : addr.toNat + stride * stride ≤ memSize) (hs : stride % 4 = 0 ∨ stride = 1) :
    Readable addr stride := by
  unfold Readable wordIdx rowWords
  rcases hs with hs | rfl
  · obtain ⟨k, rfl⟩ : ∃ k, stride = 4 * k := ⟨stride / 4, by omega⟩
    rcases Nat.eq_zero_or_pos k with rfl | hk
    · exact .inl rfl
    right
    have hrow : (4 * k + 3) / 4 = k := by omega
    have hlast : (4 * k - 1) / 4 = k - 1 := by omega
    have hsq : 4 * k * (4 * k) = 4 * ((4 * k - 1) * k + k) := by
      have : 4 * k * k = (4 * k - 1) * k + k := by
        rw [← Nat.succ_mul]
        congr 1
        omega
      rw [← this]
      ring
    rw [hrow, hlast]
    unfold memSize SA_SRAM_SIZE at *
    omega
  · right
    unfold memSize SA_SRAM_SIZE at *
    omega

theorem row_agree (hs : stride % 4 = 0 ∨ stride = 1) {r : Nat} (hr : r < stride) :
    r * (4 * rowWords stride) = r * stride := row_eq hs hr

/-- **When the two layouts are one.** For a stride of 64 at most and an aligned region that fits in the SRAM: for every
content the loops yield the matrix exactly when the bytes they read are those of the written layout; and they do so
for every matrix exactly when the stride is a multiple of four or 1. -/
theorem unpack_layout_iff (addr : Word) (stride : Nat) (hs : stride ≤ MATRIX_SIZE) (h4 : addr.toNat % 4 = 0)
    (hfit : addr.toNat + stride * stride ≤ memSize) (m : Nat → Nat → Byte) :
    (∀ sram matrix, WrittenAt sram addr stride matrix →
      (Unpacks sram addr stride m matrix ↔ Readable addr stride ∧ ∀ r < stride, ∀ c < stride,
        sram (addr.toNat + r * (4 * rowWords stride) + c) = sram (addr.toNat + r * stride + c))) ∧
    ((∀ sram matrix, WrittenAt sram addr stride matrix → Unpacks sram addr stride m matrix) ↔
      stride % 4 = 0 ∨ stride = 1) := by
  have hcontent : ∀ sram matrix, WrittenAt sram addr stride matrix →
      (Unpacks sram addr stride m matrix ↔ Readable addr stride ∧ ∀ r < stride, ∀ c < stride,
        sram (addr.toNat + r * (4 * rowWords stride) + c) = sram (addr.toNat + r * stride + c)) := by
    intro sram matrix hw
    rw [unpacks_iff hs h4]
    apply and_congr_right'
    constructor
    · intro h r hr c hc
      rw [h r hr c hc, hw r hr c hc]
    · intro h r hr c hc
      rw [h r hr c hc, hw r hr c hc]
  refine ⟨hcontent, ?_, ?_⟩
  · intro hall
    by_contra hno
    rw [not_or] at hno
    -- a matrix that differs from zero only in row 1, column 0
    let sram : Store := fun x => if x = addr.toNat + stride then 1 else 0
    have h := ((hcontent sram _ fun _ _ _ _ => rfl).mp (hall sram _ fun _ _ _ _ => rfl)).2
    have hbyte := h 1 (by omega) 0 (by omega)
    have hne : ¬ addr.toNat + 1 * (4 * rowWords stride) + 0 = addr.toNat + stride := by
      unfold rowWords
      omega
    have heq : addr.toNat + 1 * stride + 0 = addr.toNat + stride := by omega
    simp only [sram, hne, heq, if_false, if_true] at hbyte
    exact absurd hbyte (by decide)
  · intro hagree sram matrix hw
    rw [hcontent sram matrix hw]
    refine ⟨readable_of_agree hfit hagree, ?_⟩
    intro r hr c hc
    rw [row_agree hagree hr]

theorem unpack_layout_iff_eight : (∀ sram matrix, WrittenAt sram 64 8 matrix →
      (Unpacks sram 64 8 (fun _ _ => 0) matrix ↔ Readable 64 8 ∧ ∀ r < 8, ∀ c < 8,
        sram (64 + r * (4 * rowWords 8) + c) = sram (64 + r * 8 + c))) ∧
    ((∀ sram matrix, WrittenAt sram 64 8 matrix → Unpacks sram 64 8 (fun _ _ => 0) matrix) ↔ 8 % 4 = 0 ∨ 8 = 1) :=
  unpack_layout_iff 64 8 (by decide) (by decide) (by decide) _

/-- With stride 5, row 1 is written from byte 5 on and unpacked from byte 8 on. -/
theorem not_unpacks_five : ¬ ∀ sram matrix, WrittenAt sram 0 5 matrix → Unpacks sram 0 5 (fun _ _ => 0) matrix := by
  intro hall
  have h := hall (fun x => if x = 5 then 1 else 0) _ fun _ _ _ _ => rfl
  have hbyte := ((unpacks_iff (by decide) (by decide) _ _ _).mp h).2 1 (by decide) 0 (by decide)
  exact absurd hbyte (by decide)

end

end SocModel.Sa
