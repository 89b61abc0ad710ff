import SocModel.Sa.Tile

/-!
# The multiplication of a matrix, for arrays of any size

`ComputeMatrix`, `launchNextTile`, the two loads and the deposit event for an array of `n` rows and columns. What a
`ComputeTile` leaves in `Tile_Result` is part of the step that ends it.

* `tilesOf` : the queue, `contribution` : what one task adds, `accumulated_tilesOf` : what all of them add up to;
* `Tiler` : the state of the loops, `step` : a tile is computed and deposited, and the next one launched;
* `Tiling` : the invariant of a run, `computeMatrix_multiplies` : the run ends with the product.
-/

namespace SocModel.Sa

open Lib

/-! ## The tasks -/

/-- The loops of `ComputeMatrix`. -/
def tilesOf (n strideA strideB : Nat) : List TileTask :=
  (starts n strideA).flatMap fun r =>
    (starts n strideB).flatMap fun c =>
      (starts n strideB).map fun k =>
        { rowBlk := r
          colBlk := c
          tileRows := min n (strideA - r)
          tileCols := min n (strideB - c)
          kBlk := k
          kCols := min n (strideB - k) }

theorem tiles_eq (strideA strideB : Nat) : tiles strideA strideB = tilesOf SASIZE strideA strideB := rfl

/-- The tile lies in the matrices and is not larger than an array of `n` rows. -/
structure TileTask.FitsIn (n : Nat) (t : TileTask) : Prop where
  rows : t.rowBlk + t.tileRows ≤ MATRIX_SIZE
  cols : t.colBlk + t.tileCols ≤ MATRIX_SIZE
  terms : t.kBlk + t.kCols ≤ MATRIX_SIZE
  size : t.kCols ≤ n ∧ t.tileRows ≤ n ∧ t.tileCols ≤ n

theorem fitsIn_of_mem_tilesOf {n strideA strideB : Nat} (ha : strideA ≤ MATRIX_SIZE) (hb : strideB ≤ MATRIX_SIZE)
    {t : TileTask} (h : t ∈ tilesOf n strideA strideB) : t.FitsIn n := by
  simp only [tilesOf, List.mem_flatMap, List.mem_map] at h
  obtain ⟨r, hr, c, hc, k, hk, rfl⟩ := h
  have hr := starts_lt hr
  have hc := starts_lt hc
  have hk := starts_lt hk
  refine ⟨?_, ?_, ?_, ?_⟩ <;> dsimp only <;> omega

/-- What tile `t` adds to element `(i, j)`. -/
def contribution (a b : Nat → Nat → Byte) (t : TileTask) (i j : Nat) : Nat :=
  if (t.rowBlk ≤ i ∧ i < t.rowBlk + t.tileRows) ∧ t.colBlk ≤ j ∧ j < t.colBlk + t.tileCols then
    ∑ x ∈ Finset.range t.kCols, (a i (t.kBlk + x)).toNat * (b (t.kBlk + x) j).toNat
  else 0

def accumulated (a b : Nat → Nat → Byte) (ts : List TileTask) (i j : Nat) : Nat :=
  (ts.map fun t => contribution a b t i j).sum

theorem accumulated_append (a b : Nat → Nat → Byte) (ts : List TileTask) (t : TileTask) (i j : Nat) :
    accumulated a b (ts ++ [t]) i j = accumulated a b ts i j + contribution a b t i j := by
  simp [accumulated]

/-- The tiles add up to `strideB` products, for `strideA` rows and `strideB` columns. -/
theorem accumulated_tilesOf {n : Nat} (hn : 0 < n) (a b : Nat → Nat → Byte) (strideA strideB i j : Nat) :
    accumulated a b (tilesOf n strideA strideB) i j =
      if i < strideA ∧ j < strideB then dotUpTo (a i) (fun k => b k j) strideB else 0 := by
  unfold dotUpTo
  rw [← sum_tiles hn strideA strideB strideB i j fun k => (a i k).toNat * (b k j).toNat]
  simp only [accumulated, tilesOf, List.map_flatMap, List.map_map, Function.comp_def, contribution]
  rfl

/-- The products of the padded blocks. -/
theorem dotUpTo_pad {n : Nat} (a b : Nat → Nat → Byte) {t : TileTask} (ht : t.FitsIn n) {r j : Nat}
    (hr : r < t.tileRows) (hj : j < t.tileCols) :
    dotUpTo (fun k => if r < t.tileRows ∧ k < t.kCols then a (t.rowBlk + r) (t.kBlk + k) else 0)
      (fun k => if k < t.kCols ∧ j < t.tileCols then b (t.kBlk + k) (t.colBlk + j) else 0) n =
      contribution a b t (t.rowBlk + r) (t.colBlk + j) := by
  rw [contribution, if_pos (by omega), dotUpTo]
  refine (Finset.sum_subset_zero_on_sdiff (Finset.range_mono ht.size.1) (fun k hk => ?_) fun k hk => ?_).symm
  · rw [Finset.mem_sdiff, Finset.mem_range, Finset.mem_range] at hk
    rw [if_neg (by omega)]
    exact Nat.zero_mul _
  · rw [Finset.mem_range] at hk
    rw [if_pos ⟨hr, hk⟩, if_pos ⟨hk, hj⟩]

/-! ## The loops -/

/-- What the loops read and write. -/
structure Tiler where
  strideA : Nat
  strideB : Nat
  aMatrix : Nat → Nat → Byte
  bMatrix : Nat → Nat → Byte
  cMatrix : Nat → Nat → BitVec 16
  tileQ : List TileTask
  currentTile : TileTask
  aTile : Nat → Nat → Byte
  bTile : Nat → Nat → Byte
  tileResult : Nat → Nat → BitVec 16
  /-- The events of a `ComputeTile` are scheduled. -/
  computing : Bool
  done : Bool

namespace Tiler

variable (n : Nat)

/-- `LoadATile` and `LoadBTile`: the block, the columns behind it, the rows below; what else the tile held stays. -/
def loadTile (m tile : Nat → Nat → Byte) (row col rows cols : Nat) : Except Fault (Nat → Nat → Byte) :=
  if row + rows ≤ MATRIX_SIZE ∧ col + cols ≤ MATRIX_SIZE then
    .ok fun i j =>
      if i < rows ∧ j < cols then m (row + i) (col + j)
      else if i < rows ∧ cols ≤ j ∧ j < n then 0
      else if rows ≤ i ∧ i < n ∧ j < n then 0
      else tile i j
  else .error .arrayIndex

def loadATile (s : Tiler) (t : TileTask) : Except Fault (Nat → Nat → Byte) :=
  loadTile n s.aMatrix s.aTile t.rowBlk t.kBlk t.tileRows t.kCols

def loadBTile (s : Tiler) (t : TileTask) : Except Fault (Nat → Nat → Byte) :=
  loadTile n s.bMatrix s.bTile t.kBlk t.colBlk t.kCols t.tileCols

def launchNextTile (s : Tiler) : Except Fault Tiler :=
  match s.tileQ with
  | [] => .ok { s with computing := false, done := true }
  | t :: q => do
    let aTile ← loadATile n s t
    let bTile ← loadBTile n s t
    return { s with
      currentTile := t
      tileQ := q
      tileResult := fun i j => if i < n ∧ j < n then 0 else s.tileResult i j
      aTile
      bTile
      computing := true }

def computeMatrix (s : Tiler) : Except Fault Tiler :=
  launchNextTile n { s with tileQ := s.tileQ ++ tilesOf n s.strideA s.strideB }

/-- The loops that add `Tile_Result` to `C_matrix`. -/
def addTile (t : TileTask) (r c : Nat → Nat → BitVec 16) : Nat → Nat → BitVec 16 := fun i j =>
  if (t.rowBlk ≤ i ∧ i < t.rowBlk + t.tileRows) ∧ t.colBlk ≤ j ∧ j < t.colBlk + t.tileCols then
    c i j + r (i - t.rowBlk) (j - t.colBlk)
  else c i j

/-- The last event of `ComputeTile`. -/
def deposit (s : Tiler) : Except Fault Tiler :=
  let t := s.currentTile
  if t.rowBlk + t.tileRows ≤ MATRIX_SIZE ∧ t.colBlk + t.tileCols ≤ MATRIX_SIZE then
    launchNextTile n { s with cMatrix := addTile t s.tileResult s.cMatrix }
  else .error .arrayIndex

/-- The `ComputeTile` under way leaves `r` in `Tile_Result`, and its deposit event runs. -/
def step (s : Tiler) (r : Nat → Nat → BitVec 16) : Outcome Fault Tiler :=
  if s.computing then .ofExcept (deposit n { s with tileResult := r }) else .blocked

/-- The `ComputeTile` under way yields the product of the two tiles. -/
def Yields (s : Tiler) (r : Nat → Nat → BitVec 16) : Prop :=
  ∀ i < n, ∀ j < n, r i j = entry n s.aTile s.bTile i j

/-! ## What a load leaves in the array -/

theorem loadTile_eq (m tile : Nat → Nat → Byte) {row col rows cols : Nat} (hr : row + rows ≤ MATRIX_SIZE)
    (hc : col + cols ≤ MATRIX_SIZE) : ∃ t, loadTile n m tile row col rows cols = .ok t ∧
      ∀ i < n, ∀ j < n, t i j = if i < rows ∧ j < cols then m (row + i) (col + j) else 0 := by
  refine ⟨_, if_pos ⟨hr, hc⟩, fun i hi j hj => ?_⟩
  by_cases hin : i < rows ∧ j < cols
  · rw [if_pos hin, if_pos hin]
  · rw [if_neg hin, if_neg hin]
    by_cases hcols : i < rows ∧ cols ≤ j ∧ j < n
    · rw [if_pos hcols]
    · rw [if_neg hcols, if_pos (by omega)]

/-- In the array, the tile is that of the module. -/
theorem loadTile_module {m tile t t' : Nat → Nat → Byte} {row col rows cols : Nat}
    (h : loadTile SASIZE m tile row col rows cols = .ok t) (h' : Sa.loadTile m row col rows cols = .ok t') :
    ∀ i < SASIZE, ∀ j < SASIZE, t i j = t' i j := by
  unfold Sa.loadTile at h'
  split at h'
  · next hin =>
    obtain ⟨u, hu, hval⟩ := loadTile_eq SASIZE m tile hin.1 hin.2
    rw [hu] at h
    rw [← Except.ok.inj h, ← Except.ok.inj h']
    exact hval
  · cases h'

variable {n : Nat}

theorem dotUpTo_congr {a a' b b' : Nat → Byte} {k : Nat} (ha : ∀ x < k, a x = a' x) (hb : ∀ x < k, b x = b' x) :
    dotUpTo a b k = dotUpTo a' b' k := by
  refine Finset.sum_congr rfl fun x hx => ?_
  rw [ha x (Finset.mem_range.mp hx), hb x (Finset.mem_range.mp hx)]

/-! ## Runs -/

/-- The loops started in `s₀`, the tiles `ts` are deposited, and the others are computing or wait. -/
structure Tiling (n : Nat) (s₀ : Tiler) (ts : List TileTask) (s : Tiler) : Prop where
  tasks : tilesOf n s₀.strideA s₀.strideB = ts ++ if s.computing then s.currentTile :: s.tileQ else []
  cMatrix : ∀ i j, s.cMatrix i j = s₀.cMatrix i j + BitVec.ofNat 16 (accumulated s₀.aMatrix s₀.bMatrix ts i j)
  aMatrix : s.aMatrix = s₀.aMatrix
  bMatrix : s.bMatrix = s₀.bMatrix
  aTile : s.computing = true → ∀ i < n, ∀ j < n, s.aTile i j =
    if i < s.currentTile.tileRows ∧ j < s.currentTile.kCols then
      s₀.aMatrix (s.currentTile.rowBlk + i) (s.currentTile.kBlk + j)
    else 0
  bTile : s.computing = true → ∀ i < n, ∀ j < n, s.bTile i j =
    if i < s.currentTile.kCols ∧ j < s.currentTile.tileCols then
      s₀.bMatrix (s.currentTile.kBlk + i) (s.currentTile.colBlk + j)
    else 0
  finished : s.computing = false → s.tileQ = [] ∧ s.done = true

section

variable {s₀ : Tiler} (ha : s₀.strideA ≤ MATRIX_SIZE) (hb : s₀.strideB ≤ MATRIX_SIZE)
include ha hb

theorem launchNextTile_tiling {s : Tiler} {ts : List TileTask} (htasks : tilesOf n s₀.strideA s₀.strideB = ts ++ s.tileQ)
    (hA : s.aMatrix = s₀.aMatrix) (hB : s.bMatrix = s₀.bMatrix) (hC : ∀ i j, s.cMatrix i j =
      s₀.cMatrix i j + BitVec.ofNat 16 (accumulated s₀.aMatrix s₀.bMatrix ts i j)) :
    ∃ t, launchNextTile n s = .ok t ∧ Tiling n s₀ ts t := by
  unfold launchNextTile
  cases hq : s.tileQ with
  | nil =>
    rw [hq] at htasks
    exact ⟨_, rfl, htasks, hC, hA, hB, fun h => (by cases h), fun h => (by cases h), fun _ => ⟨rfl, rfl⟩⟩
  | cons t q =>
    rw [hq] at htasks
    have hfit : t.FitsIn n := fitsIn_of_mem_tilesOf ha hb (by rw [htasks]; simp)
    obtain ⟨aTile, hat, hav⟩ := loadTile_eq n s.aMatrix s.aTile hfit.rows hfit.terms
    obtain ⟨bTile, hbt, hbv⟩ := loadTile_eq n s.bMatrix s.bTile hfit.terms hfit.cols
    dsimp only
    rw [loadATile, loadBTile, hat, hbt]
    refine ⟨_, rfl, htasks, hC, hA, hB, fun _ i hi j hj => ?_, fun _ i hi j hj => ?_, fun h => (by cases h)⟩
    · rw [← hA]
      exact hav i hi j hj
    · rw [← hB]
      exact hbv i hi j hj

/-- **The step lemma.** A tile that is yielded is deposited, once. -/
theorem Tiling.step {s : Tiler} {ts : List TileTask} (h : Tiling n s₀ ts s) (hcomp : s.computing = true)
    {r : Nat → Nat → BitVec 16} (hy : Yields n s r) :
    ∃ t, Tiler.step n s r = .next t ∧ Tiling n s₀ (ts ++ [s.currentTile]) t := by
  have htasks := h.tasks
  rw [hcomp, if_pos rfl] at htasks
  have hfit : s.currentTile.FitsIn n := fitsIn_of_mem_tilesOf ha hb (by rw [htasks]; simp)
  have hnext : tilesOf n s₀.strideA s₀.strideB = (ts ++ [s.currentTile]) ++ s.tileQ := by
    rw [htasks, List.append_assoc]
    rfl
  have hC : ∀ i j, addTile s.currentTile r s.cMatrix i j =
      s₀.cMatrix i j + BitVec.ofNat 16 (accumulated s₀.aMatrix s₀.bMatrix (ts ++ [s.currentTile]) i j) := by
    intro i j
    rw [accumulated_append, BitVec.ofNat_add, ← BitVec.add_assoc, ← h.cMatrix i j, addTile, contribution]
    split
    · next hin =>
      have hrow : i - s.currentTile.rowBlk < n := by have := hfit.size; omega
      have hcol : j - s.currentTile.colBlk < n := by have := hfit.size; omega
      rw [hy _ hrow _ hcol, entry, dotUpTo_congr (fun k hk => h.aTile hcomp _ hrow k hk)
        (fun k hk => h.bTile hcomp k hk _ hcol), dotUpTo_pad _ _ hfit (by omega) (by omega),
        show s.currentTile.rowBlk + (i - s.currentTile.rowBlk) = i by omega,
        show s.currentTile.colBlk + (j - s.currentTile.colBlk) = j by omega, contribution, if_pos hin]
    · rw [BitVec.add_zero]
  obtain ⟨t, ht, htil⟩ := launchNextTile_tiling ha hb
    (s := { s with tileResult := r, cMatrix := addTile s.currentTile r s.cMatrix }) hnext h.aMatrix h.bMatrix hC
  refine ⟨t, ?_, htil⟩
  unfold Tiler.step deposit
  rw [if_pos hcomp]
  dsimp only
  rw [if_pos ⟨hfit.rows, hfit.cols⟩, ht]
  rfl

/-- A run of deposits, as long as there are tiles. -/
theorem Tiling.run {s : Tiler} {ts : List TileTask} (h : Tiling n s₀ ts s) {rs : List (Nat → Nat → BitVec 16)}
    (hy : Along (Tiler.step n) (Yields n) s rs)
    (hle : ts.length + rs.length ≤ (tilesOf n s₀.strideA s₀.strideB).length) :
    ∃ ts' t, Reaches (Tiler.step n) s rs t ∧ Tiling n s₀ ts' t ∧ ts'.length = ts.length + rs.length := by
  induction rs generalizing s ts with
  | nil => exact ⟨ts, s, .refl s, h, rfl⟩
  | cons r rs ih =>
    rw [List.length_cons] at hle
    have hcomp : s.computing = true := by
      by_contra hoff
      have htasks := h.tasks
      rw [if_neg hoff, List.append_nil] at htasks
      rw [htasks] at hle
      omega
    have hyr : Yields n s r := by
      unfold Along at hy
      split at hy
      · next hblocked =>
        exfalso
        unfold Tiler.step at hblocked
        rw [if_pos hcomp] at hblocked
        cases hd : deposit n { s with tileResult := r } <;> rw [hd] at hblocked <;> cases hblocked
      · exact hy
      · exact hy.1
    obtain ⟨t, ht, htil⟩ := h.step ha hb hcomp hyr
    have hlen : (ts ++ [s.currentTile]).length = ts.length + 1 := by simp
    obtain ⟨ts', u, hu, htil', hlen'⟩ := ih htil ((along_cons_next ht).mp hy).2 (by omega)
    exact ⟨ts', u, reaches_cons.mpr ⟨t, ht, hu⟩, htil', by rw [List.length_cons]; omega⟩

end

/-! ## The product -/

/-- The whole multiplication is done: `C_matrix` holds the product, and nothing else in it changed. -/
structure Multiplied (s t : Tiler) : Prop where
  queue : t.tileQ = []
  done : t.done = true
  product : ∀ i < s.strideA, ∀ j < s.strideB,
    t.cMatrix i j = BitVec.ofNat 16 (∑ k ∈ Finset.range s.strideB, (s.aMatrix i k).toNat * (s.bMatrix k j).toNat)
  others : ∀ i j, ¬ (i < s.strideA ∧ j < s.strideB) → t.cMatrix i j = s.cMatrix i j

/-- `ComputeMatrix` started in `s` and led to `t`; every `ComputeTile` after it yields the product of its tiles. Each
tile of the queue is deposited once; after the last one the matrix is the product, and there is no other deposit. -/
structure MultipliesFrom (n : Nat) (s t : Tiler) : Prop where
  running : ∀ rs, Along (step n) (Yields n) t rs → rs.length < (tilesOf n s.strideA s.strideB).length →
    ∃ u, Reaches (step n) t rs u ∧ u.computing = true
  last : ∀ rs, Along (step n) (Yields n) t rs → rs.length = (tilesOf n s.strideA s.strideB).length →
    ∃ u, Reaches (step n) t rs u ∧ u.computing = false ∧ Multiplied s u
  stuck : ∀ rs, Along (step n) (Yields n) t rs → (tilesOf n s.strideA s.strideB).length < rs.length →
    Lib.run (step n) t rs = .blocked

theorem Tiling.multiplied {s₀ s : Tiler} {ts : List TileTask} (hn : 0 < n) (h : Tiling n s₀ ts s)
    (hc : ∀ i < s₀.strideA, ∀ j < s₀.strideB, s₀.cMatrix i j = 0)
    (hlen : ts.length = (tilesOf n s₀.strideA s₀.strideB).length) : s.computing = false ∧ Multiplied s₀ s := by
  have hoff : s.computing = false := by
    by_contra hon
    have htasks := congrArg List.length h.tasks
    rw [Bool.not_eq_false] at hon
    rw [hon, if_pos rfl, List.length_append, List.length_cons] at htasks
    omega
  have hall : tilesOf n s₀.strideA s₀.strideB = ts := by
    have htasks := h.tasks
    rwa [hoff, if_neg (by decide), List.append_nil] at htasks
  have hC : ∀ i j, s.cMatrix i j = s₀.cMatrix i j + BitVec.ofNat 16
      (if i < s₀.strideA ∧ j < s₀.strideB then dotUpTo (s₀.aMatrix i) (fun k => s₀.bMatrix k j) s₀.strideB else 0) := by
    intro i j
    rw [h.cMatrix i j, ← hall, accumulated_tilesOf hn]
  refine ⟨hoff, (h.finished hoff).1, (h.finished hoff).2, fun i hi j hj => ?_, fun i j hij => ?_⟩
  · rw [hC i j, if_pos ⟨hi, hj⟩, hc i hi j hj]
    exact BitVec.zero_add _
  · rw [hC i j, if_neg hij, BitVec.add_zero]

/-- **Tiling is multiplication**, for every size of the array. -/
theorem computeMatrix_multiplies (hn : 0 < n) {s : Tiler} (ha : s.strideA ≤ MATRIX_SIZE) (hb : s.strideB ≤ MATRIX_SIZE)
    (hq : s.tileQ = []) (hc : ∀ i < s.strideA, ∀ j < s.strideB, s.cMatrix i j = 0) :
    ∃ t, computeMatrix n s = .ok t ∧ MultipliesFrom n s t := by
  have hstart : ∃ t, computeMatrix n s = .ok t ∧ Tiling n s [] t :=
    launchNextTile_tiling ha hb (by rw [hq]; rfl) rfl rfl fun i j => (BitVec.add_zero _).symm
  obtain ⟨t, ht, htil⟩ := hstart
  refine ⟨t, ht, fun rs hy hlt => ?_, fun rs hy heq => ?_, fun rs hy hgt => ?_⟩
  · obtain ⟨ts, u, hu, hutil, hlen⟩ := htil.run ha hb hy (by simpa using hlt.le)
    refine ⟨u, hu, ?_⟩
    by_contra hoff
    have htasks := congrArg List.length hutil.tasks
    rw [if_neg hoff, List.append_nil, hlen] at htasks
    simp at htasks
    omega
  · obtain ⟨ts, u, hu, hutil, hlen⟩ := htil.run ha hb hy (by simpa using heq.le)
    exact ⟨u, hu, hutil.multiplied hn hc (by simpa [heq] using hlen)⟩
  · -- the deposits of the queue, and one more
    have hlenq := List.length_take_of_le hgt.le
    have hsplit := List.take_append_drop (tilesOf n s.strideA s.strideB).length rs
    have hdrop : (rs.drop (tilesOf n s.strideA s.strideB).length).length = _ := List.length_drop
    generalize rs.take _ = q at hlenq hsplit
    rcases hr : rs.drop (tilesOf n s.strideA s.strideB).length with _ | ⟨r, rs'⟩ <;> rw [hr] at hsplit hdrop
    · rw [List.length_nil] at hdrop
      omega
    rw [← hsplit] at hy ⊢
    obtain ⟨ts, u, hu, hutil, hlen⟩ := htil.run ha hb hy.left (by simpa using hlenq.le)
    have hoff := (hutil.multiplied hn hc (by simpa [hlenq] using hlen)).1
    rw [run_append, hu, Outcome.bind_next, run_cons, step, if_neg (by simp [hoff])]
    rfl

/-- Three rows and columns, where the tiles of an array of two are ragged. -/
def threeByThree : Tiler where
  strideA := 3
  strideB := 3
  aMatrix := fun i j => BitVec.ofNat 8 (i + j)
  bMatrix := fun i j => BitVec.ofNat 8 (i * j)
  cMatrix := fun _ _ => 0
  tileQ := []
  currentTile := ⟨0, 0, 0, 0, 0, 0⟩
  aTile := fun _ _ => 0
  bTile := fun _ _ => 0
  tileResult := fun _ _ => 0
  computing := false
  done := false

theorem computeMatrix_multiplies_three : ∃ t, computeMatrix 2 threeByThree = .ok t ∧ MultipliesFrom 2 threeByThree t :=
  computeMatrix_multiplies (by decide) (by decide) (by decide) rfl fun _ _ _ _ => rfl

/-- The schedule of `ComputeTile` yields the products, on the arrays whose rows it can count. -/
theorem yields_computeTileRun (hn : 0 < n) (hlt : n < 2 ^ 16) (s : Tiler) (ghost : Nat → Nat → Valid8) :
    Yields n s (computeTileRun n s.aTile s.bTile ghost s.tileResult).tileResult :=
  (computeTileRun_correct hn hlt).result

end Tiler

end SocModel.Sa
