import Mathlib.Tactic.IntervalCases
import SocModel.Sa.Matrix

/-!
# The tiled product

From the two unpacked matrices to `C_matrix`: every tile adds the product of two blocks, and the tiles of a
multiplication add up to the sums over `strideB` terms, for `strideA` rows and `strideB` columns.

* `Work` : what the multiplication reads and writes;
* `InTile ts p` : the tiles `ts` are deposited and `p` calls of the next one have run;
* `Computing.tile` : the step lemma, `accumulated_tiles` : what all tiles add up to.
-/

namespace SocModel.Sa

open Lib

/-- The part of the state that a multiplication works on. -/
structure Work where
  aMatrix : Nat → Nat → Byte
  bMatrix : Nat → Nat → Byte
  cMatrix : Nat → Nat → BitVec 16
  tileQ : List TileTask
  tileResult : Nat → Nat → BitVec 16
  aTile : Nat → Nat → Byte
  bTile : Nat → Nat → Byte
  currentTile : TileTask
  chains : List Chain
  done : Bool

def State.work (s : State) : Work where
  aMatrix := s.aMatrix
  bMatrix := s.bMatrix
  cMatrix := s.cMatrix
  tileQ := s.tileQ
  tileResult := s.tileResult
  aTile := s.aTile
  bTile := s.bTile
  currentTile := s.currentTile
  chains := s.chains
  done := s.done

/-- The state with another part. -/
def State.withWork (s : State) (w : Work) : State := { s with
  aMatrix := w.aMatrix
  bMatrix := w.bMatrix
  cMatrix := w.cMatrix
  tileQ := w.tileQ
  tileResult := w.tileResult
  aTile := w.aTile
  bTile := w.bTile
  currentTile := w.currentTile
  chains := w.chains
  done := w.done }

/-! ## What a tile adds -/

/-- The tile lies in the matrices and is not larger than the array. -/
structure TileTask.Fits (t : TileTask) : Prop where
  rows : t.rowBlk + t.tileRows ≤ MATRIX_SIZE
  cols : t.colBlk + t.tileCols ≤ MATRIX_SIZE
  terms : t.kBlk + t.kCols ≤ MATRIX_SIZE
  size : t.kCols ≤ SASIZE ∧ t.tileRows ≤ SASIZE ∧ t.tileCols ≤ SASIZE

/-- The tiles add up to `strideB` products, for `strideA` rows and `strideB` columns. -/
theorem accumulated_tiles (a b : Nat → Nat → Byte) (strideA strideB i j : Nat) :
    accumulated a b (tiles strideA strideB) i j =
      if i < strideA ∧ j < strideB then ∑ k ∈ Finset.range strideB, (a i k).toNat * (b k j).toNat else 0 := by
  rw [tiles_eq]
  exact accumulated_tilesOf (by decide) a b strideA strideB i j

theorem TileTask.FitsIn.fits {t : TileTask} (h : t.FitsIn SASIZE) : t.Fits := ⟨h.rows, h.cols, h.terms, h.size⟩

theorem TileTask.Fits.fitsIn {t : TileTask} (h : t.Fits) : t.FitsIn SASIZE := ⟨h.rows, h.cols, h.terms, h.size⟩

theorem fits_of_mem_tiles {strideA strideB : Nat} (ha : strideA ≤ MATRIX_SIZE) (hb : strideB ≤ MATRIX_SIZE)
    {t : TileTask} (h : t ∈ tiles strideA strideB) : t.Fits :=
  (fitsIn_of_mem_tilesOf ha hb h).fits

/-! ## The events of one tile -/

/-- Every element holds what the tiles `ts` add up to. -/
def Deposited (ts : List TileTask) (w : Work) : Prop :=
  ∀ i j, w.cMatrix i j = BitVec.ofNat 16 (accumulated w.aMatrix w.bMatrix ts i j)

/-- The tiles `ts` are deposited, the tiles of the queue wait, and `p` calls of the one chain, that of the current
tile, have run. -/
structure InTile (ts : List TileTask) (p : Nat) (array : Array2) (w : Work) : Prop where
  pos : p ≤ 7
  undone : w.done = false
  chains : w.chains = [⟨tileSchedule.drop p, array⟩]
  deposited : Deposited ts w
  fits : ∀ t ∈ w.currentTile :: w.tileQ, t.Fits
  aTile : w.aTile = fun i j =>
    if i < w.currentTile.tileRows ∧ j < w.currentTile.kCols then
      w.aMatrix (w.currentTile.rowBlk + i) (w.currentTile.kBlk + j)
    else 0
  bTile : w.bTile = fun i j =>
    if i < w.currentTile.kCols ∧ j < w.currentTile.tileCols then
      w.bMatrix (w.currentTile.kBlk + i) (w.currentTile.colBlk + j)
    else 0
  preloading : p ≤ SASIZE →
    array = (List.range p).foldl (fun a c => preloadWeight SASIZE w.bTile c a) .construct
  waving : SASIZE ≤ p → Wave SASIZE w.aTile w.bTile (p - SASIZE) array
  emitted : p = 7 → w.tileResult = array.result

/-- A multiplication that has the tiles `all`: in one of them, or done. -/
def Computing (all : List TileTask) (w : Work) : Prop :=
  (∃ ts p array, all = ts ++ w.currentTile :: w.tileQ ∧ InTile ts p array w) ∨
    (w.done = true ∧ w.tileQ = [] ∧ w.chains = [] ∧ Deposited all w)

/-- From `s` the multiplication went on to `t`, with the same matrices and nothing else touched. -/
structure Multiplies (all : List TileTask) (s t : State) : Prop where
  computing : Computing all t.work
  aMatrix : t.aMatrix = s.aMatrix
  bMatrix : t.bMatrix = s.bMatrix
  frame : t = s.withWork t.work

theorem loadTile_of_le (m : Nat → Nat → Byte) {row col rows cols : Nat} (hr : row + rows ≤ MATRIX_SIZE)
    (hc : col + cols ≤ MATRIX_SIZE) :
    loadTile m row col rows cols = .ok fun i j => if i < rows ∧ j < cols then m (row + i) (col + j) else 0 :=
  if_pos ⟨hr, hc⟩

/-- The next tile starts, or the multiplication is done. -/
theorem launch {s : State} {ts all : List TileTask} (hall : all = ts ++ s.tileQ) (hu : s.done = false)
    (he : s.chains = []) (hd : Deposited ts s.work) (hf : ∀ t ∈ s.tileQ, t.Fits) :
    ∃ t, launchNextTile s = .ok t ∧ Multiplies all s t := by
  unfold launchNextTile
  cases hq : s.tileQ with
  | nil =>
    rw [hq, List.append_nil] at hall
    subst hall
    exact ⟨_, rfl, .inr ⟨rfl, rfl, he, hd⟩, rfl, rfl, rfl⟩
  | cons t q =>
    rw [hq] at hall hf
    have ht := hf t List.mem_cons_self
    dsimp only
    rw [loadATile, loadBTile, loadTile_of_le _ ht.rows ht.terms, loadTile_of_le _ ht.terms ht.cols]
    refine ⟨_, rfl, .inl ⟨ts, 0, .construct, hall, ?_⟩, rfl, rfl, rfl⟩
    exact ⟨by decide, hu, by simp [computeTile, State.work, he], hd, hf, rfl, rfl, fun _ => rfl,
      fun h => absurd h (by decide), fun h => absurd h (by decide)⟩

theorem InTile.chains_set {ts : List TileTask} {p : Nat} {array : Array2} {w : Work} (h : InTile ts p array w)
    (c : Chain) : w.chains.set 0 c = [c] := by
  rw [h.chains]
  rfl

theorem InTile.preload {ts : List TileTask} {p : Nat} {array : Array2} {w : Work} (h : InTile ts p array w)
    (hp : p < SASIZE) :
    InTile ts (p + 1) (preloadWeight SASIZE w.bTile p array)
      { w with chains := w.chains.set 0 ⟨tileSchedule.drop (p + 1), preloadWeight SASIZE w.bTile p array⟩ } := by
  have hrange : preloadWeight SASIZE w.bTile p array =
      (List.range (p + 1)).foldl (fun a c => preloadWeight SASIZE w.bTile c a) .construct := by
    rw [List.range_succ, List.foldl_append, ← h.preloading hp.le]
    rfl
  refine ⟨?_, h.undone, h.chains_set _, h.deposited, h.fits, h.aTile, h.bTile, fun _ => hrange, fun hw => ?_,
    fun h7 => ?_⟩
  · unfold SASIZE at hp
    omega
  · have hlast : p + 1 = SASIZE := by omega
    dsimp only
    rw [hrange, hlast, Nat.sub_self]
    exact wave_zero
  · unfold SASIZE at hp
    omega

theorem InTile.propagate {ts : List TileTask} {p : Nat} {array : Array2} {w : Work} (h : InTile ts p array w)
    (hp : SASIZE ≤ p) (hp' : p < 3 * SASIZE - 1) :
    InTile ts (p + 1) (propagateAndMac SASIZE w.aTile (p - SASIZE) array)
      { w with
        chains := w.chains.set 0
          ⟨tileSchedule.drop (p + 1), propagateAndMac SASIZE w.aTile (p - SASIZE) array⟩ } := by
  unfold SASIZE at hp'
  refine ⟨by omega, h.undone, h.chains_set _, h.deposited, h.fits, h.aTile, h.bTile, fun hw => by omega, fun _ => ?_,
    fun h7 => by omega⟩
  rw [Nat.sub_add_comm hp]
  exact (h.waving hp).propagate (by decide) (by decide)

theorem InTile.flush {ts : List TileTask} {p : Nat} {array : Array2} {w : Work} (h : InTile ts p array w)
    (hp : 3 * SASIZE - 1 ≤ p) (hp' : p < 7) (ghost : Nat → Valid8) :
    InTile ts (p + 1) (flushAndEmit SASIZE ghost array) { w with
      chains := w.chains.set 0 ⟨tileSchedule.drop (p + 1), flushAndEmit SASIZE ghost array⟩
      tileResult := if p - (3 * SASIZE - 1) = SASIZE - 1 then (flushAndEmit SASIZE ghost array).result
        else w.tileResult } := by
  have hs : SASIZE ≤ p := by
    unfold SASIZE at *
    omega
  unfold SASIZE at hp
  refine ⟨by omega, h.undone, h.chains_set _, h.deposited, h.fits, h.aTile, h.bTile, fun hw => ?_, fun _ => ?_,
    fun h7 => ?_⟩
  · omega
  · rw [Nat.sub_add_comm hs]
    exact (h.waving hs).flush (by decide) (by decide) (by unfold SASIZE; omega) ghost
  · obtain rfl : p = 6 := by omega
    dsimp only
    exact if_pos rfl

/-- The deposit adds what the tile contributes. -/
theorem InTile.deposit {ts : List TileTask} {array : Array2} {w : Work} (h : InTile ts 7 array w) (i j : Nat) :
    (if w.currentTile.rowBlk ≤ i ∧ i < w.currentTile.rowBlk + w.currentTile.tileRows ∧ w.currentTile.colBlk ≤ j ∧
        j < w.currentTile.colBlk + w.currentTile.tileCols then
      w.cMatrix i j + w.tileResult (i - w.currentTile.rowBlk) (j - w.currentTile.colBlk)
    else w.cMatrix i j) =
      BitVec.ofNat 16 (accumulated w.aMatrix w.bMatrix (ts ++ [w.currentTile]) i j) := by
  have hfit := h.fits _ List.mem_cons_self
  rw [h.deposited, accumulated_append]
  split
  · next hin =>
    have hw := tile_product (h.waving (by decide)) (r := i - w.currentTile.rowBlk) (j := j - w.currentTile.colBlk)
      (by have := hfit.size; omega) (by have := hfit.size; omega)
    rw [h.emitted rfl, hw, h.aTile, h.bTile, dotUpTo_pad _ _ hfit.fitsIn (by omega) (by omega), ← BitVec.ofNat_add]
    congr 3 <;> omega
  · next hin =>
    rw [contribution, if_neg (by omega), Nat.add_zero]

/-- **The step lemma.** There is one chain, its next call is allowed and leads on. -/
theorem Computing.tile {all : List TileTask} {s : State} (h : Computing all s.work) {k : Nat} {e : TileEvent}
    {rest : List TileEvent} {array : Array2} (hk : s.chains[k]? = some ⟨e :: rest, array⟩) (ghost : Nat → Valid8) :
    ∃ t, runTile ghost k rest array s e = .ok t ∧ Multiplies all s t := by
  obtain ⟨ts, p, array', hall, h⟩ | ⟨-, -, hnil, -⟩ := h
  · have hc : s.chains = [⟨tileSchedule.drop p, array'⟩] := h.chains
    rw [hc] at hk
    obtain rfl : k = 0 := by
      have := (List.getElem?_eq_some_iff.mp hk).1
      simpa using this
    obtain ⟨hev, rfl⟩ := Chain.mk.inj (Option.some.inj hk)
    have hpos := h.pos
    interval_cases p <;> obtain ⟨rfl, rfl⟩ := List.cons.inj hev
    · exact ⟨_, rfl, .inl ⟨ts, 1, _, hall, h.preload (by decide)⟩, rfl, rfl, rfl⟩
    · exact ⟨_, rfl, .inl ⟨ts, 2, _, hall, h.preload (by decide)⟩, rfl, rfl, rfl⟩
    · exact ⟨_, rfl, .inl ⟨ts, 3, _, hall, h.propagate (by decide) (by decide)⟩, rfl, rfl, rfl⟩
    · exact ⟨_, rfl, .inl ⟨ts, 4, _, hall, h.propagate (by decide) (by decide)⟩, rfl, rfl, rfl⟩
    · exact ⟨_, rfl, .inl ⟨ts, 5, _, hall, h.propagate (by decide) (by decide)⟩, rfl, rfl, rfl⟩
    · exact ⟨_, rfl, .inl ⟨ts, 6, _, hall, h.flush (by decide) (by decide) ghost⟩, rfl, rfl, rfl⟩
    · exact ⟨_, rfl, .inl ⟨ts, 7, _, hall, h.flush (by decide) (by decide) ghost⟩, rfl, rfl, rfl⟩
    · have hfit := h.fits _ List.mem_cons_self
      have hnext : all = (ts ++ [s.currentTile]) ++ s.tileQ := by
        rw [hall, List.append_assoc]
        rfl
      rw [runTile, hc, deposit, if_pos ⟨hfit.rows, hfit.cols⟩]
      obtain ⟨t, ht, hm⟩ := launch (s := { s with chains := [], cMatrix := _ }) hnext h.undone rfl
        (fun i j => h.deposit i j) fun t ht => h.fits t (List.mem_cons_of_mem _ ht)
      exact ⟨t, ht, hm.computing, hm.aMatrix, hm.bMatrix, hm.frame⟩
  · have hnil : s.chains = [] := hnil
    rw [hnil] at hk
    cases hk

/-- A multiplication of unpacked matrices starts. -/
theorem computeMatrix_starts {s : State} (hq : s.tileQ = []) (hu : s.done = false) (he : s.chains = [])
    (hc : ∀ i j, s.cMatrix i j = 0) (ha : s.strideA.toNat ≤ MATRIX_SIZE) (hb : s.strideB.toNat ≤ MATRIX_SIZE) :
    ∃ t, computeMatrix s = .ok t ∧ Multiplies (tiles s.strideA.toNat s.strideB.toNat) s t := by
  unfold computeMatrix
  rw [hq]
  have hzero : Deposited [] s.work := fun i j => hc i j
  obtain ⟨t, ht, hm⟩ := launch (s := { s with tileQ := [] ++ tiles s.strideA.toNat s.strideB.toNat }) rfl hu he hzero
    fun t ht => fits_of_mem_tiles ha hb ht
  exact ⟨t, ht, hm.computing, hm.aMatrix, hm.bMatrix, hm.frame⟩

end SocModel.Sa
