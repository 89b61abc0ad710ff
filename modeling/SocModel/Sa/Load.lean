import SocModel.Dma.Copy
import SocModel.Sa.Product

/-!
# From the data memory to the product

What the two transfers leave in the SRAM, what is unpacked from it, and when the tiles then add up to the product of
the matrices in the data memory.

* `copyRect` : an exact transfer, `isCopy_copyRect` : it is a copy;
* `Job` : the configurations a multiplication may have, `Agree` : those for which the five stages agree;
* `Loaded` : the SRAM after both transfers, `product_of_loaded` : what the tiles make of it.
-/

namespace SocModel.Sa

open Lib Bus Dma

/-! ## Exact transfers -/

/-- The row of a rectangle that holds a byte. -/
def rowOf (R : Rect) (x : Nat) : Option Nat :=
  (List.range R.height).find? fun r => decide (R.cell r 0 ≤ x ∧ x < R.cell r 0 + R.width)

/-- `m` after an exact transfer of `src` to `dst`. -/
def copyRect (src dst : Rect) (m : Store) : Store := fun x =>
  match rowOf dst x with
  | some r => m (src.cell r (x - dst.cell r 0))
  | none => m x

theorem rowOf_eq_some {R : Rect} {x r : Nat} (h : rowOf R x = some r) :
    r < R.height ∧ R.cell r 0 ≤ x ∧ x < R.cell r 0 + R.width := by
  have hm := List.mem_of_find?_eq_some h
  have hp := List.find?_some h
  exact ⟨List.mem_range.mp hm, of_decide_eq_true hp⟩

theorem rowOf_eq_none {R : Rect} {x : Nat} (h : rowOf R x = none) : x ∉ R.bytes := by
  rintro ⟨r, hr, c, hc, rfl⟩
  refine List.find?_eq_none.mp h r (List.mem_range.mpr hr) (decide_eq_true ?_)
  unfold Rect.cell
  omega

theorem copyRect_of_not_mem {src dst : Rect} {x : Nat} (hx : x ∉ dst.bytes) (m : Store) :
    copyRect src dst m x = m x := by
  unfold copyRect
  cases h : rowOf dst x with
  | none => rfl
  | some r =>
    obtain ⟨hr, h1, h2⟩ := rowOf_eq_some h
    refine absurd ⟨r, hr, x - dst.cell r 0, by omega, ?_⟩ hx
    simp only [Rect.cell] at *
    omega

/-- With one stride for both sides every byte keeps its distance from the base. -/
theorem copyRect_of_mem {src dst : Rect} (hs : src.stride = dst.stride) {x : Nat} (hx : x ∈ dst.bytes) (m : Store) :
    copyRect src dst m x = m (src.base + (x - dst.base)) := by
  unfold copyRect
  cases h : rowOf dst x with
  | none => exact absurd hx (rowOf_eq_none h)
  | some r =>
    obtain ⟨hr, h1, h2⟩ := rowOf_eq_some h
    dsimp only
    congr 1
    simp only [Rect.cell, hs] at *
    omega

theorem isCopy_copyRect {src dst : Rect} (hs : src.stride = dst.stride) (m : Store) :
    IsCopy src dst m (copyRect src dst m) := by
  refine ⟨fun r hr c hc => ?_, fun x hx => copyRect_of_not_mem hx m⟩
  rw [copyRect_of_mem hs (Rect.cell_mem hr hc), Rect.cell, Rect.cell, hs]
  congr 1
  omega

/-! ## Configurations -/

/-- The registers that a multiplication reads. -/
structure Config where
  M : Word
  K : Word
  N : Word
  aAddr : Word
  bAddr : Word
  aAddrDm : Word
  bAddrDm : Word
  strideA : Word
  strideB : Word

def State.config (s : State) : Config where
  M := s.M
  K := s.K
  N := s.N
  aAddr := s.aAddr
  bAddr := s.bAddr
  aAddrDm := s.aAddrDm
  bAddrDm := s.bAddrDm
  strideA := s.strideA
  strideB := s.strideB

namespace Config

variable (c : Config)

/-- The matrices in the data memory. -/
def sourceA : Rect := ⟨c.aAddrDm.toNat, c.strideA.toNat, c.K.toNat, c.M.toNat⟩

def sourceB : Rect := ⟨c.bAddrDm.toNat, c.strideB.toNat, c.N.toNat, c.K.toNat⟩

/-- Their places in the SRAM. -/
def regionA : Rect := ⟨c.aAddr.toNat, c.strideA.toNat, c.K.toNat, c.M.toNat⟩

def regionB : Rect := ⟨c.bAddr.toNat, c.strideB.toNat, c.N.toNat, c.K.toNat⟩

/-- What `AskDMAtoWrite_matB` asks for: `M` rows of `K` columns. -/
def loadedB : Rect := ⟨c.bAddr.toNat, c.strideB.toNat, c.K.toNat, c.M.toNat⟩

end Config

/-- The bus addresses of the SRAM. -/
def InWindow (x : Nat) : Prop := SA_MEMORY_BASE ≤ x ∧ x < SA_MEMORY_BASE + memSize

instance (x : Nat) : Decidable (InWindow x) := by unfold InWindow; infer_instance

/-- A multiplication of two matrices in the data memory, with room for them in the SRAM. -/
structure Job (c : Config) : Prop where
  sizeM : 1 ≤ c.M.toNat ∧ c.M.toNat ≤ MATRIX_SIZE
  sizeK : 1 ≤ c.K.toNat ∧ c.K.toNat ≤ MATRIX_SIZE
  sizeN : 1 ≤ c.N.toNat ∧ c.N.toNat ≤ MATRIX_SIZE
  strideA : c.K.toNat ≤ c.strideA.toNat ∧ c.strideA.toNat < 256
  strideB : c.N.toNat ≤ c.strideB.toNat ∧ c.strideB.toNat < 256
  aligned : c.aAddr.toNat % 4 = 0 ∧ c.bAddr.toNat % 4 = 0
  inSramA : ∀ x ∈ c.regionA.bytes, x < memSize
  inSramB : ∀ x ∈ c.regionB.bytes, x < memSize
  disjoint : Disjoint c.regionA.bytes c.regionB.bytes
  inMemoryA : ∀ x ∈ c.sourceA.bytes, ¬ InWindow x
  inMemoryB : ∀ x ∈ c.sourceB.bytes, ¬ InWindow x

/-- Both DMA programs, the unpacking and the tiles mean the same bytes. -/
structure Agree (c : Config) : Prop where
  /-- `M` rows of `K` columns of `B` are loaded. -/
  loaded : c.N.toNat ≤ c.K.toNat ∧ c.K.toNat ≤ c.M.toNat
  /-- `strideA` rows and columns of `A`, `strideB` of `B` are unpacked and multiplied. -/
  unpackedA : c.M.toNat ≤ c.strideA.toNat ∧ c.strideA.toNat ≤ MATRIX_SIZE
  unpackedB : c.K.toNat ≤ c.strideB.toNat ∧ c.strideB.toNat ≤ MATRIX_SIZE
  /-- Rows are unpacked from whole words. -/
  wholeA : c.strideA.toNat % 4 = 0 ∨ c.M.toNat = 1
  wholeB : c.strideB.toNat % 4 = 0 ∨ c.K.toNat = 1
  /-- `strideB` terms are added, of which those behind `strideA` are 0. -/
  terms : c.strideA.toNat = c.K.toNat ∨ c.strideB.toNat = c.K.toNat
  roomA : wordIdx c.aAddr c.strideA.toNat (c.strideA.toNat - 1) (c.strideA.toNat - 1) < SA_SRAM_SIZE
  roomB : wordIdx c.bAddr c.strideB.toNat (c.strideB.toNat - 1) (c.strideB.toNat - 1) < SA_SRAM_SIZE
  /-- The transfer of `B` keeps `A`, or writes the bytes of `A` over `A`. -/
  kept : Disjoint c.regionA.bytes c.loadedB.bytes ∨
    c.aAddrDm.toNat + c.bAddr.toNat = c.bAddrDm.toNat + c.aAddr.toNat

/-! ## The SRAM -/

/-- The memory that the DMA sees: the SRAM in its window, the data memory elsewhere. -/
def bus (dm sram : Store) : Store := fun x => if InWindow x then sram (x - SA_MEMORY_BASE) else dm x

/-- Both matrices are in the SRAM, as far as they are unpacked. -/
structure Loaded (c : Config) (dm sram : Store) : Prop where
  a : ∀ i < c.M.toNat, ∀ k < c.K.toNat, sram (c.regionA.cell i k) = dm (c.sourceA.cell i k)
  b : ∀ k < c.K.toNat, ∀ j < c.N.toNat, sram (c.regionB.cell k j) = dm (c.sourceB.cell k j)

/-- The product of the matrices in the data memory. -/
def product (c : Config) (dm : Store) (i j : Nat) : Nat :=
  ∑ k ∈ Finset.range c.K.toNat, (dm (c.sourceA.cell i k)).toNat * (dm (c.sourceB.cell k j)).toNat

/-! ## Transfers into the SRAM -/

/-- The bus addresses of a region of the SRAM. -/
def onBus (R : Rect) : Rect := { R with base := SA_MEMORY_BASE + R.base }

/-- The data memory and the SRAM after an exact transfer on the bus. What the first holds in the window is never
read. -/
def transfer (src dst : Rect) (dm sram : Store) : Store × Store :=
  let m := copyRect src dst (bus dm sram)
  (m, fun x => if x < memSize then m (SA_MEMORY_BASE + x) else sram x)

theorem mem_onBus {R : Rect} {x : Nat} : SA_MEMORY_BASE + x ∈ (onBus R).bytes ↔ x ∈ R.bytes := by
  constructor
  · rintro ⟨r, hr, c, hc, h⟩
    refine ⟨r, hr, c, hc, ?_⟩
    simp only [Rect.cell, onBus] at *
    omega
  · rintro ⟨r, hr, c, hc, h⟩
    refine ⟨r, hr, c, hc, ?_⟩
    simp only [Rect.cell, onBus] at *
    omega

theorem bus_sram (dm sram : Store) {x : Nat} (hx : x < memSize) : bus dm sram (SA_MEMORY_BASE + x) = sram x := by
  rw [bus, if_pos ⟨by omega, by omega⟩, Nat.add_sub_cancel_left]

theorem bus_dm (dm sram : Store) {x : Nat} (hx : ¬ InWindow x) : bus dm sram x = dm x := if_neg hx

/-- A byte of the SRAM that the transfer writes. -/
theorem transfer_of_mem {src R : Rect} (hs : src.stride = R.stride) (dm sram : Store) {x : Nat} (hx : x < memSize)
    (hm : x ∈ R.bytes) :
    (transfer src (onBus R) dm sram).2 x = bus dm sram (src.base + (x - R.base)) := by
  unfold transfer
  dsimp only
  rw [if_pos hx, copyRect_of_mem (show src.stride = (onBus R).stride from hs) (mem_onBus.mpr hm)]
  congr 2
  simp only [onBus]
  omega

theorem transfer_of_not_mem {src R : Rect} (dm sram : Store) {x : Nat} (hx : x < memSize) (hm : x ∉ R.bytes) :
    (transfer src (onBus R) dm sram).2 x = sram x := by
  unfold transfer
  dsimp only
  rw [if_pos hx, copyRect_of_not_mem (fun h => hm (mem_onBus.mp h)), bus_sram dm sram hx]

/-- A transfer into the SRAM leaves the data memory alone. -/
theorem transfer_dm {src R : Rect} (hR : ∀ x ∈ R.bytes, x < memSize) (dm sram : Store) {x : Nat}
    (hx : ¬ InWindow x) : (transfer src (onBus R) dm sram).1 x = dm x := by
  unfold transfer
  dsimp only
  rw [copyRect_of_not_mem, bus_dm dm sram hx]
  intro hm
  have hb : SA_MEMORY_BASE ≤ x := by
    obtain ⟨r, -, k, -, h⟩ := hm
    simp only [Rect.cell, onBus] at h
    omega
  obtain ⟨y, rfl⟩ := Nat.exists_eq_add_of_le hb
  have hy := hR y (mem_onBus.mp hm)
  exact hx ⟨by omega, by omega⟩

section Transfers

variable {c : Config} {dm sram : Store}

/-- The rectangle that `AskDMAtoWrite_matB` fetches. -/
def Config.fetchedB (c : Config) : Rect := ⟨c.bAddrDm.toNat, c.strideB.toNat, c.K.toNat, c.M.toNat⟩

/-- `A` is in the SRAM, and the data memory is `dm`. -/
structure LoadedA (c : Config) (dm dm' sram : Store) : Prop where
  a : ∀ i < c.M.toNat, ∀ k < c.K.toNat, sram (c.regionA.cell i k) = dm (c.sourceA.cell i k)
  dm : ∀ x, ¬ InWindow x → dm' x = dm x

theorem cell_sub (R : Rect) (base r k : Nat) : base + (R.cell r k - R.base) = base + r * R.stride + k := by
  unfold Rect.cell
  omega

theorem Config.fetchedB_stride (c : Config) : c.fetchedB.stride = c.loadedB.stride := rfl

theorem loadedA_transfer (hj : Job c) (dm sram : Store) :
    LoadedA c dm (transfer c.sourceA (onBus c.regionA) dm sram).1 (transfer c.sourceA (onBus c.regionA) dm sram).2 where
  a i hi k hk := by
    have hm : c.regionA.cell i k ∈ c.regionA.bytes := Rect.cell_mem hi hk
    rw [transfer_of_mem (show c.sourceA.stride = c.regionA.stride from rfl) dm sram (hj.inSramA _ hm) hm, cell_sub]
    exact bus_dm _ _ (hj.inMemoryA _ (Rect.cell_mem hi hk))
  dm x hx := transfer_dm hj.inSramA dm sram hx

/-- The transfer of `B`, on top of `A`. -/
theorem LoadedA.transfer (hj : Job c) (hA : Agree c) {dm' : Store} (h : LoadedA c dm dm' sram) :
    Loaded c dm (transfer c.fetchedB (onBus c.loadedB) dm' sram).2 where
  a i hi k hk := by
    have hm : c.regionA.cell i k ∈ c.regionA.bytes := Rect.cell_mem hi hk
    have hlt := hj.inSramA _ hm
    by_cases hB : c.regionA.cell i k ∈ c.loadedB.bytes
    · -- overwritten with the byte that is there already
      rcases hA.kept with hd | hd
      · exact absurd hB (Set.disjoint_left.mp hd hm)
      · have hsame : c.fetchedB.base + (c.regionA.cell i k - c.loadedB.base) = c.sourceA.cell i k := by
          obtain ⟨r, hr, q, hq, he⟩ := hB
          simp only [Rect.cell, Config.fetchedB, Config.regionA, Config.loadedB, Config.sourceA] at he ⊢
          omega
        rw [transfer_of_mem c.fetchedB_stride dm' sram hlt hB, hsame, bus_dm _ _ (hj.inMemoryA _ (Rect.cell_mem hi hk)),
          h.dm _ (hj.inMemoryA _ (Rect.cell_mem hi hk))]
    · rw [transfer_of_not_mem dm' sram hlt hB, h.a i hi k hk]
  b k hk j hj' := by
    have hcols := hA.loaded
    have hm : c.regionB.cell k j ∈ c.loadedB.bytes :=
      ⟨k, lt_of_lt_of_le hk hcols.2, j, lt_of_lt_of_le hj' hcols.1, rfl⟩
    have hout := hj.inMemoryB _ (Rect.cell_mem (R := c.sourceB) hk hj')
    rw [transfer_of_mem c.fetchedB_stride dm' sram (hj.inSramB _ (Rect.cell_mem hk hj')) hm]
    exact (congrArg _ (cell_sub c.loadedB _ k j)).trans ((bus_dm _ _ hout).trans (h.dm _ hout))

end Transfers

/-! ## The programs of the DMA -/

/-- The three registers that describe a transfer. -/
structure Program where
  src : Word
  dst : Word
  cfg : Word

/-- What `AskDMAtoWrite_matA` writes. -/
def Config.programA (c : Config) : Program where
  src := c.aAddrDm
  dst := c.aAddr + BitVec.ofNat 32 SA_MEMORY_BASE
  cfg := sizeCfg (c.strideA &&& 0xFF) ((c.K - 1) &&& 0xFF) ((c.M - 1) &&& 0xFF)

/-- What `AskDMAtoWrite_matB` writes. -/
def Config.programB (c : Config) : Program where
  src := c.bAddrDm
  dst := c.bAddr + BitVec.ofNat 32 SA_MEMORY_BASE
  cfg := sizeCfg (c.strideB &&& 0xFF) (c.K - 1) (c.M - 1)

/-- The registers of the DMA hold the program. -/
structure Programmed (p : Program) (d : Dma.State) : Prop where
  src : d.srcAddr = p.src
  dst : d.dstAddr = p.dst
  cfg : d.dmaSizeCfg = p.cfg

theorem toNat_sizeCfg {stride tw th : Word} (hs : stride.toNat < 256) (hw : tw.toNat < 256) (hh : th.toNat < 256) :
    (sizeCfg stride tw th).toNat = ((stride.toNat * 256 + stride.toNat) * 256 + tw.toNat) * 256 + th.toNat := by
  have hor : ∀ a b i : Nat, b < 2 ^ i → a * 2 ^ i ||| b = a * 2 ^ i + b := by
    intro a b i hb
    rw [Nat.mul_comm, Nat.two_pow_add_eq_or_of_lt hb]
  unfold sizeCfg
  simp only [BitVec.toNat_or, BitVec.toNat_shiftLeft, Nat.shiftLeft_eq]
  rw [Nat.mod_eq_of_lt (by omega), Nat.mod_eq_of_lt (by omega), Nat.mod_eq_of_lt (by omega), hor _ _ 24 (by omega),
    show stride.toNat * 2 ^ 24 + stride.toNat * 2 ^ 16 = (stride.toNat * 256 + stride.toNat) * 2 ^ 16 by omega,
    hor _ _ 16 (by omega),
    show (stride.toNat * 256 + stride.toNat) * 2 ^ 16 + tw.toNat * 2 ^ 8 =
      ((stride.toNat * 256 + stride.toNat) * 256 + tw.toNat) * 2 ^ 8 by omega,
    hor _ _ 8 (by omega)]
  rfl

/-- The fields the DMA decodes. -/
theorem cfgByte_sizeCfg {stride tw th : Word} (hs : stride.toNat < 256) (hw : tw.toNat < 256) (hh : th.toNat < 256) :
    cfgByte (sizeCfg stride tw th) 24 = stride.toNat ∧ cfgByte (sizeCfg stride tw th) 16 = stride.toNat ∧
      cfgByte (sizeCfg stride tw th) 8 = tw.toNat ∧ cfgByte (sizeCfg stride tw th) 0 = th.toNat := by
  unfold cfgByte
  rw [toNat_sizeCfg hs hw hh]
  generalize stride.toNat = a, tw.toNat = b, th.toNat = c at *
  have h24 : (((a * 256 + a) * 256 + b) * 256 + c) / 2 ^ 24 = a := by omega
  have h16 : (((a * 256 + a) * 256 + b) * 256 + c) / 2 ^ 16 = a * 256 + a := by omega
  have h8 : (((a * 256 + a) * 256 + b) * 256 + c) / 2 ^ 8 = (a * 256 + a) * 256 + b := by omega
  rw [h24, h16, h8]
  omega

theorem toNat_and_FF {w : Word} (h : w.toNat < 256) : (w &&& 0xFF).toNat = w.toNat := by
  have := Nat.and_two_pow_sub_one_eq_mod w.toNat 8
  exact this.trans (Nat.mod_eq_of_lt h)

theorem toNat_sub_one {w : Word} (h : 1 ≤ w.toNat) : (w - 1).toNat = w.toNat - 1 := by
  rw [BitVec.toNat_sub_of_le h]
  rfl

theorem toNat_onBus {a : Word} (h : a.toNat < memSize) :
    (a + BitVec.ofNat 32 SA_MEMORY_BASE).toNat = SA_MEMORY_BASE + a.toNat := by
  rw [BitVec.toNat_add, BitVec.toNat_ofNat]
  unfold memSize SA_SRAM_SIZE at h
  unfold SA_MEMORY_BASE
  omega

/-- The two programs are the rectangles of the configuration. -/
theorem Programmed.rects {p : Program} {d : Dma.State} (h : Programmed p d) {src dst stride tw th : Word}
    (hp : p = ⟨src, dst + BitVec.ofNat 32 SA_MEMORY_BASE, sizeCfg (stride &&& 0xFF) tw th⟩) {w h' : Nat}
    (hdst : dst.toNat < memSize) (hs : stride.toNat < 256) (hw : tw.toNat + 1 = w) (hw' : w ≤ MATRIX_SIZE)
    (hh : th.toNat + 1 = h') (hh' : h' ≤ MATRIX_SIZE) :
    srcRect d = ⟨src.toNat, stride.toNat, w, h'⟩ ∧ dstRect d = onBus ⟨dst.toNat, stride.toNat, w, h'⟩ := by
  subst hp
  unfold MATRIX_SIZE at hw' hh'
  have hff := toNat_and_FF hs
  have hlt : (stride &&& 0xFF).toNat < 256 := by omega
  have htw : tw.toNat < 256 := by omega
  have hth : th.toNat < 256 := by omega
  obtain ⟨h24, h16, h8, h0⟩ := cfgByte_sizeCfg hlt htw hth
  have hbus := toNat_onBus hdst
  unfold srcRect dstRect onBus
  rw [h.src, h.dst, h.cfg, h24, h16, h8, h0, hff, hbus, hw, hh]
  exact ⟨rfl, rfl⟩

theorem Job.addr_lt {c : Config} (hj : Job c) : c.aAddr.toNat < memSize ∧ c.bAddr.toNat < memSize := by
  have ha := hj.inSramA _ (Rect.cell_mem (r := 0) (c := 0) hj.sizeM.1 hj.sizeK.1)
  have hb := hj.inSramB _ (Rect.cell_mem (r := 0) (c := 0) hj.sizeK.1 hj.sizeN.1)
  simp only [Rect.cell, Config.regionA, Config.regionB] at ha hb
  omega

theorem Job.rectsA {c : Config} (hj : Job c) {d : Dma.State} (h : Programmed c.programA d) :
    srcRect d = c.sourceA ∧ dstRect d = onBus c.regionA := by
  have hK := toNat_sub_one hj.sizeK.1
  have hM := toNat_sub_one hj.sizeM.1
  have hKs := hj.sizeK
  have hMs := hj.sizeM
  unfold MATRIX_SIZE at hKs hMs
  have hKf := toNat_and_FF (w := c.K - 1) (by omega)
  have hMf := toNat_and_FF (w := c.M - 1) (by omega)
  exact h.rects rfl hj.addr_lt.1 hj.strideA.2 (by omega) hKs.2 (by omega) hMs.2

theorem Job.rectsB {c : Config} (hj : Job c) {d : Dma.State} (h : Programmed c.programB d) :
    srcRect d = c.fetchedB ∧ dstRect d = onBus c.loadedB := by
  have hK := toNat_sub_one hj.sizeK.1
  have hM := toNat_sub_one hj.sizeM.1
  have hKs := hj.sizeK
  have hMs := hj.sizeM
  exact h.rects rfl hj.addr_lt.2 hj.strideB.2 (by omega) hKs.2 (by omega) hMs.2

/-! ## Unpacking -/

/-- An unpacked element is the byte at a multiple of four bytes from the base for its row. -/
theorem unpack_apply (sram : Store) (m : Nat → Nat → Byte) {addr : Word} {stride : Nat} (h4 : addr.toNat % 4 = 0)
    (hs : stride ≤ MATRIX_SIZE) (hroom : wordIdx addr stride (stride - 1) (stride - 1) < SA_SRAM_SIZE) :
    ∃ m', unpack sram addr stride m = .ok m' ∧ ∀ i j, m' i j =
      if i < stride ∧ j < stride then sram (addr.toNat + i * (4 * rowWords stride) + j) else m i j := by
  unfold unpack
  split
  · next h0 => exact ⟨m, rfl, fun i j => (if_neg (by omega)).symm⟩
  · rw [if_neg (by omega)]
    refine ⟨_, rfl, fun i j => ?_⟩
    split
    · have hbyte := load_div_mod sram (4 * wordIdx addr stride i j) 4 (j % 4) (Nat.mod_lt _ (by decide))
      rw [show 4 * wordIdx addr stride i j + j % 4 = addr.toNat + i * (4 * rowWords stride) + j by
        unfold wordIdx
        rw [Nat.mul_left_comm i 4]
        omega] at hbyte
      apply BitVec.eq_of_toNat_eq
      rw [BitVec.toNat_ofNat, ← hbyte, Nat.mul_comm (j % 4), Nat.pow_mul]
    · rfl

/-- The row distance of the unpacking is the stride, where it matters. -/
theorem row_eq {stride rows i : Nat} (h : stride % 4 = 0 ∨ rows = 1) (hi : i < rows) :
    i * (4 * rowWords stride) = i * stride := by
  rcases h with h | h
  · congr 1
    unfold rowWords
    omega
  · obtain rfl : i = 0 := by omega
    simp

/-- What the tiles make of the loaded SRAM. -/
theorem product_of_loaded {c : Config} {dm sram : Store} (hA : Agree c) (hl : Loaded c dm sram)
    {a b : Nat → Nat → Byte}
    (ha : ∀ i j, a i j = if i < c.strideA.toNat ∧ j < c.strideA.toNat then
      sram (c.aAddr.toNat + i * (4 * rowWords c.strideA.toNat) + j) else 0)
    (hb : ∀ i j, b i j = if i < c.strideB.toNat ∧ j < c.strideB.toNat then
      sram (c.bAddr.toNat + i * (4 * rowWords c.strideB.toNat) + j) else 0)
    {i j : Nat} (hi : i < c.M.toNat) (hj : j < c.N.toNat) :
    accumulated a b (tiles c.strideA.toNat c.strideB.toNat) i j = product c dm i j := by
  have hrows := hA.unpackedA.1
  have hterms := hA.unpackedB.1
  have hcols := hA.loaded
  rw [accumulated_tiles, if_pos (by omega), product]
  refine (Finset.sum_subset_zero_on_sdiff (Finset.range_mono hterms) (fun k hk => ?_) fun k hk => ?_).symm
  · -- the terms from `K` on
    rw [Finset.mem_sdiff, Finset.mem_range, Finset.mem_range] at hk
    have ht := hA.terms
    rw [ha, if_neg (by omega)]
    exact Nat.zero_mul _
  · rw [Finset.mem_range] at hk
    rw [ha, hb, if_pos (by omega), if_pos (by omega), row_eq hA.wholeA hi, row_eq hA.wholeB hk]
    exact congrArg₂ (fun x y : Byte => x.toNat * y.toNat) (hl.a i hi k hk).symm (hl.b k hk j hj).symm

end SocModel.Sa
