import SocModel.Sa.Model

/-!
# One tile, from fresh elements to the last emission

The events of `ComputeTile` for an array of `n` rows and columns, run in the order of their ticks. A run keeps the
emissions of all its cycles beside the state.

* `emissions` : what the emit loop of a cycle writes, `computeTileRun` : the run;
* `TileCorrect` : the results are the product, and each is emitted once, to its own row;
* `tileCorrect_iff` : that is so exactly for the arrays whose rows the counters `emitRow` can count.
-/

namespace SocModel.Sa

open Lib

/-! ## Emissions -/

/-- `Result[row][col] = sum`. -/
structure Emission where
  row : Nat
  col : Nat
  sum : BitVec 16
  deriving DecidableEq, Repr

section

variable (n : Nat)

/-- What the emit loop does, column by column. -/
def emissions (s : Array2) : List Emission :=
  ((List.range n).filter (fires n s)).map fun j => ⟨s.emitRow j, j, (s.pe (n - 1) j).psumReg.sum⟩

theorem mem_emissions {s : Array2} {e : Emission} : e ∈ emissions n s ↔
    e.col < n ∧ fires n s e.col = true ∧ e.row = s.emitRow e.col ∧ e.sum = (s.pe (n - 1) e.col).psumReg.sum := by
  simp only [emissions, List.mem_map, List.mem_filter, List.mem_range]
  constructor
  · rintro ⟨j, ⟨hj, hf⟩, rfl⟩
    exact ⟨hj, hf, rfl, rfl⟩
  · intro h
    obtain ⟨row, col, sum⟩ := e
    obtain ⟨hj, hf, hr, hs⟩ := h
    exact ⟨col, ⟨hj, hf⟩, by rw [← hr, ← hs]⟩

theorem exists_emission {s : Array2} {j : Nat} (hj : j < n) (hf : fires n s j = true) :
    ∃ e ∈ emissions n s, e.row = s.emitRow j ∧ e.col = j :=
  ⟨⟨s.emitRow j, j, (s.pe (n - 1) j).psumReg.sum⟩, (mem_emissions n).mpr ⟨hj, hf, rfl, rfl⟩, rfl, rfl⟩

/-! ## The run -/

/-- The array, `Tile_Result`, and what was emitted so far. -/
structure TileRun where
  array : Array2
  tileResult : Nat → Nat → BitVec 16
  log : List Emission

variable (aTile bTile : Nat → Nat → Byte) (ghost : Nat → Nat → Valid8)

/-- An event of `ComputeTile`; the flush of cycle `c` finds `ghost c` in front of the rows. -/
def tileStep (r : TileRun) : TileEvent → TileRun
  | .preload c => { r with array := preloadWeight n bTile c r.array }
  | .propagate c => { r with
    array := propagateAndMac n aTile c r.array
    log := r.log ++ emissions n { r.array with pe := forward (mac (inject n aTile c r.array.pe)) } }
  | .flush c =>
    let array := flushAndEmit n (ghost c) r.array
    { array
      tileResult := if c = n - 1 then array.result else r.tileResult
      log := r.log ++ emissions n { r.array with pe := forward (mac (shift (ghost c) r.array.pe)) } }
  | .deposit => r

/-- The events that `ComputeTile` schedules for the array. -/
def tileEvents : List TileEvent :=
  (List.range n).map .preload ++ (List.range (n * 2 - 1)).map .propagate ++ (List.range n).map .flush

/-- All of them, from fresh elements; `old` is what `Tile_Result` held. -/
def computeTileRun (old : Nat → Nat → BitVec 16) : TileRun :=
  (tileEvents n).foldl (tileStep n aTile bTile ghost) ⟨.construct, old, []⟩

/-- Entry `(i, j)` of the product of the tiles. -/
def entry (i j : Nat) : BitVec 16 := BitVec.ofNat 16 (dotUpTo (aTile i) (fun k => bTile k j) n)

/-- The results are the product, and each entry is emitted exactly once, to its own row. -/
structure TileCorrect (r : TileRun) : Prop where
  result : ∀ i < n, ∀ j < n, r.tileResult i j = entry n aTile bTile i j
  once : ∀ i < n, ∀ j < n, r.log.filter (fun e => e.row = i ∧ e.col = j) = [⟨i, j, entry n aTile bTile i j⟩]
  inside : ∀ e ∈ r.log, e.row < n ∧ e.col < n

end

/-- The calls of the module are these events. -/
theorem tileSchedule_eq : tileSchedule = tileEvents SASIZE ++ [.deposit] := rfl

theorem runTile_eq (ghost : Nat → Valid8) (k : Nat) (rest : List TileEvent) (array : Array2) (s : State)
    {e : TileEvent} (he : e ≠ .deposit) :
    let r := tileStep SASIZE s.aTile s.bTile (fun _ => ghost) ⟨array, s.tileResult, []⟩ e
    runTile ghost k rest array s e =
      .ok { s with chains := s.chains.set k ⟨rest, r.array⟩, tileResult := r.tileResult } := by
  intro r
  cases e with
  | preload c => rfl
  | propagate c => rfl
  | flush c => rfl
  | deposit => exact absurd rfl he

/-! ## What is emitted after `t` cycles -/

section

variable {n : Nat} {aTile bTile : Nat → Nat → Byte} {t : Nat}

/-- The first rows of every column are emitted, each once. -/
structure Emitted (n : Nat) (aTile bTile : Nat → Nat → Byte) (t : Nat) (log : List Emission) : Prop where
  once : ∀ i < n, ∀ j < n, log.filter (fun e => e.row = i ∧ e.col = j) =
    if i < t - (n - 1) - j then [⟨i, j, entry n aTile bTile i j⟩] else []
  inside : ∀ e ∈ log, e.row < n ∧ e.col < n

theorem emitted_nil (n : Nat) (aTile bTile : Nat → Nat → Byte) : Emitted n aTile bTile 0 [] where
  once i hi j hj := by rw [if_neg (by omega), List.filter_nil]
  inside e he := by simp at he

theorem filter_range_eq {n j : Nat} (hj : j < n) : (List.range n).filter (fun x => decide (x = j)) = [j] := by
  rw [List.filter_eq, List.count_eq_one_of_mem List.nodup_range (List.mem_range.mpr hj), List.replicate_one]

/-- A cycle emits row `t - (n - 1) - j` of every column `j` whose bottom element is active. -/
theorem Fed.emissions_filter {s : Array2} {pe : Nat → Nat → PE} (hf : Fed n aTile t s pe) (h : Wave n aTile bTile t s)
    (hn : 0 < n) {i j : Nat} (hj : j < n) :
    (emissions n { s with pe := forward (mac pe) }).filter (fun e => e.row = i ∧ e.col = j) =
      if Active n (t + 1) (n - 1) j ∧ i = t - (n - 1) - j then [⟨i, j, entry n aTile bTile i j⟩] else [] := by
  unfold emissions
  rw [List.filter_map, List.filter_filter]
  have hrow : Active n (t + 1) (n - 1) j → s.emitRow j = t - (n - 1) - j := by
    intro ha
    rw [h.emitted j hj]
    unfold Active at ha
    omega
  by_cases ha : Active n (t + 1) (n - 1) j ∧ i = t - (n - 1) - j
  · have hcol : (List.range n).filter (fun x => ((fun e : Emission => decide (e.row = i ∧ e.col = j)) ∘ fun j =>
        ⟨s.emitRow j, j, ((forward (mac pe)) (n - 1) j).psumReg.sum⟩) x &&
          fires n { s with pe := forward (mac pe) } x) = (List.range n).filter (fun x => decide (x = j)) := by
      refine List.filter_congr fun x hx => ?_
      rw [List.mem_range] at hx
      rw [hf.fires_eq h hn hx]
      by_cases hxj : x = j
      · subst hxj
        simp [hrow ha.1, ha.1, ha.2]
      · simp [hxj]
    have hsum := (hf.sums h (i := n - 1) (by omega) hj (by unfold Active at ha; omega)).2 ha.1
    rw [hcol, filter_range_eq hj, if_pos ha, List.map_singleton]
    simp only [hrow ha.1, ← ha.2, forward, hsum, entry]
    rw [show n - 1 + 1 = n by omega]
  · rw [if_neg ha, List.map_eq_nil_iff, List.filter_eq_nil_iff]
    intro x hx hsel
    rw [List.mem_range] at hx
    simp only [Function.comp_apply, Bool.and_eq_true, decide_eq_true_eq] at hsel
    obtain ⟨⟨hr, rfl⟩, hfire⟩ := hsel
    rw [hf.fires_eq h hn hx, decide_eq_true_eq] at hfire
    exact ha ⟨hfire, by rw [← hr, hrow hfire]⟩

theorem Fed.emitted {s : Array2} {pe : Nat → Nat → PE} {log : List Emission} (hf : Fed n aTile t s pe)
    (h : Wave n aTile bTile t s) (hn : 0 < n) (hl : Emitted n aTile bTile t log) :
    Emitted n aTile bTile (t + 1) (log ++ emissions n { s with pe := forward (mac pe) }) where
  once i hi j hj := by
    rw [List.filter_append, hl.once i hi j hj, hf.emissions_filter h hn hj]
    unfold Active
    by_cases h1 : i < t - (n - 1) - j
    · rw [if_pos h1, if_neg (by omega), if_pos (by omega), List.append_nil]
    · rw [if_neg h1, List.nil_append]
      by_cases h2 : i < t + 1 - (n - 1) - j
      · rw [if_pos (by omega), if_pos h2]
      · rw [if_neg (by omega), if_neg h2]
  inside e he := by
    rw [List.mem_append] at he
    rcases he with he | he
    · exact hl.inside e he
    · obtain ⟨hc, hfire, hr, -⟩ := (mem_emissions n).mp he
      refine ⟨?_, hc⟩
      rw [hr]
      simp only [fires, Bool.and_eq_true, decide_eq_true_eq] at hfire
      exact hfire.2

end

/-! ## Whole runs -/

/-- What each number of a range preserves, the whole range preserves. -/
theorem foldl_range_induct {α : Type*} {f : α → Nat → α} {P : Nat → α → Prop} {s : α} (h0 : P 0 s) {m : Nat}
    (hs : ∀ c < m, ∀ s, P c s → P (c + 1) (f s c)) : P m ((List.range m).foldl f s) := by
  induction m with
  | zero => exact h0
  | succ m ih =>
    rw [List.range_succ, List.foldl_append]
    exact hs m (Nat.lt_succ_self m) _ (ih fun c hc => hs c (Nat.lt_succ_of_lt hc))

section

variable {n : Nat} {aTile bTile : Nat → Nat → Byte} {ghost : Nat → Nat → Valid8} {old : Nat → Nat → BitVec 16}

/-- The run up to the first flush, in two stages. -/
def preloaded (n : Nat) (aTile bTile : Nat → Nat → Byte) (ghost : Nat → Nat → Valid8)
    (old : Nat → Nat → BitVec 16) : TileRun :=
  (List.range n).foldl (fun r c => tileStep n aTile bTile ghost r (.preload c)) ⟨.construct, old, []⟩

def propagated (n : Nat) (aTile bTile : Nat → Nat → Byte) (ghost : Nat → Nat → Valid8)
    (old : Nat → Nat → BitVec 16) (c : Nat) : TileRun :=
  (List.range c).foldl (fun r c => tileStep n aTile bTile ghost r (.propagate c)) (preloaded n aTile bTile ghost old)

theorem computeTileRun_eq : computeTileRun n aTile bTile ghost old =
    (List.range n).foldl (fun r c => tileStep n aTile bTile ghost r (.flush c))
      (propagated n aTile bTile ghost old (n * 2 - 1)) := by
  simp only [computeTileRun, tileEvents, List.foldl_append, List.foldl_map]
  rfl

theorem preloaded_eq : preloaded n aTile bTile ghost old =
    ⟨(List.range n).foldl (fun s c => preloadWeight n bTile c s) .construct, old, []⟩ := by
  refine foldl_range_induct
    (P := fun c r => r = TileRun.mk ((List.range c).foldl (fun s c => preloadWeight n bTile c s) .construct) old [])
    rfl ?_
  intro c _ r hr
  rw [hr, List.range_succ, List.foldl_append]
  rfl

/-- The state after `t` cycles that compute. -/
def InWave (n : Nat) (aTile bTile : Nat → Nat → Byte) (t : Nat) (r : TileRun) : Prop :=
  Wave n aTile bTile t r.array ∧ Emitted n aTile bTile t r.log

theorem propagated_inWave (hn : 0 < n) {c : Nat} (hc : min n (c - (n - 1)) < 2 ^ 16) :
    InWave n aTile bTile c (propagated n aTile bTile ghost old c) := by
  refine foldl_range_induct (P := InWave n aTile bTile) ?_ fun i hi r hr => ?_
  · rw [preloaded_eq]
    exact ⟨wave_zero, emitted_nil n aTile bTile⟩
  · exact ⟨hr.1.fed_inject.cycle hr.1 hn (by omega), hr.1.fed_inject.emitted hr.1 hn hr.2⟩

/-- **A tile is computed** if the counters can count the rows. -/
theorem computeTileRun_correct (hn : 0 < n) (hlt : n < 2 ^ 16) :
    TileCorrect n aTile bTile (computeTileRun n aTile bTile ghost old) := by
  have hrun : InWave n aTile bTile (n * 2 - 1 + n) (computeTileRun n aTile bTile ghost old) ∧
      (n = n → (computeTileRun n aTile bTile ghost old).tileResult =
        (computeTileRun n aTile bTile ghost old).array.result) := by
    rw [computeTileRun_eq]
    refine foldl_range_induct (P := fun c r => InWave n aTile bTile (n * 2 - 1 + c) r ∧
      (c = n → r.tileResult = r.array.result)) ⟨propagated_inWave hn (by omega), fun h => by omega⟩ ?_
    intro c hc r hr
    have hf := hr.1.1.fed_shift (by omega) (ghost c)
    refine ⟨⟨hf.cycle hr.1.1 hn (by omega), hf.emitted hr.1.1 hn hr.1.2⟩, fun h => ?_⟩
    exact if_pos (by omega)
  obtain ⟨⟨hw, hl⟩, hres⟩ := hrun
  rw [show n * 2 - 1 + n = 3 * n - 1 by omega] at hw hl
  refine ⟨fun i hi j hj => ?_, fun i hi j hj => ?_, hl.inside⟩
  · rw [hres rfl]
    exact tile_product hw hi hj
  · rw [hl.once i hi j hj, if_pos (by omega)]

/-! ## Arrays with more rows than the counters count -/

/-- No counter and no emission reaches row `2 ^ 16`. -/
def Counted (r : TileRun) : Prop := (∀ j, r.array.emitRow j < 2 ^ 16) ∧ ∀ e ∈ r.log, e.row < 2 ^ 16

theorem emit_counted {s : Array2} (h : ∀ j, s.emitRow j < 2 ^ 16) :
    (∀ j, (emit n s).emitRow j < 2 ^ 16) ∧ ∀ e ∈ emissions n s, e.row < 2 ^ 16 := by
  refine ⟨fun j => ?_, fun e he => ?_⟩
  · have hj := h j
    unfold emit
    dsimp only
    split <;> omega
  · obtain ⟨-, -, hr, -⟩ := (mem_emissions n).mp he
    rw [hr]
    exact h _

theorem Counted.tileStep {r : TileRun} (h : Counted r) (e : TileEvent) :
    Counted (tileStep n aTile bTile ghost r e) := by
  have hcycle : ∀ pe, (∀ j, (emit n { r.array with pe }).emitRow j < 2 ^ 16) ∧
      ∀ e ∈ r.log ++ emissions n { r.array with pe }, e.row < 2 ^ 16 := by
    intro pe
    have hc := emit_counted (n := n) (s := { r.array with pe }) h.1
    refine ⟨hc.1, fun e he => ?_⟩
    rcases List.mem_append.mp he with he | he
    · exact h.2 e he
    · exact hc.2 e he
  cases e with
  | preload c => exact h
  | propagate c => exact hcycle _
  | flush c => exact hcycle _
  | deposit => exact h

theorem computeTileRun_counted : Counted (computeTileRun n aTile bTile ghost old) := by
  unfold computeTileRun
  refine List.foldlRecOn (motive := Counted) (tileEvents n) _ ⟨fun j => ?_, fun e he => ?_⟩
    fun r hr e _ => hr.tileStep e
  · exact Nat.two_pow_pos 16
  · simp at he

/-- Row `2 ^ 16` is never written. -/
theorem not_correct_of_lt (hlt : 2 ^ 16 < n) :
    ¬ TileCorrect n aTile bTile (computeTileRun n aTile bTile ghost old) := by
  intro h
  have hmem := List.mem_singleton_self (⟨2 ^ 16, 0, entry n aTile bTile (2 ^ 16) 0⟩ : Emission)
  rw [← h.once (2 ^ 16) hlt 0 (by omega), List.mem_filter] at hmem
  exact absurd (computeTileRun_counted.2 _ hmem.1) (lt_irrefl _)

/-- Entry `(0, 0)` was emitted twice. -/
def Twice (r : TileRun) : Prop := 2 ≤ (r.log.filter fun e => e.row = 0 ∧ e.col = 0).length

theorem Twice.tileStep {r : TileRun} (h : Twice r) (e : TileEvent) : Twice (tileStep n aTile bTile ghost r e) := by
  have happend : ∀ new : List Emission,
      2 ≤ ((r.log ++ new).filter fun e => e.row = 0 ∧ e.col = 0).length := by
    intro new
    rw [List.filter_append, List.length_append]
    exact le_add_right h
  cases e with
  | preload c => exact h
  | propagate c => exact happend _
  | flush c => exact happend _
  | deposit => exact h

/-- Before the flush, the first column of an array of `2 ^ 16` rows is complete and its counter back at 0. -/
theorem propagated_wrapped (hn : n = 2 ^ 16) :
    let r := propagated n aTile bTile ghost old (n * 2 - 1)
    r.array.emitRow 0 = 0 ∧ (r.array.pe (n - 1) 0).weightReg.valid = true ∧
      1 ≤ (r.log.filter fun e => e.row = 0 ∧ e.col = 0).length := by
  intro r
  have hlast : InWave n aTile bTile (n * 2 - 2) (propagated n aTile bTile ghost old (n * 2 - 2)) :=
    propagated_inWave (by omega) (by omega)
  have hr : r = tileStep n aTile bTile ghost (propagated n aTile bTile ghost old (n * 2 - 2)) (.propagate (n * 2 - 2)) := by
    unfold r propagated
    rw [show n * 2 - 1 = n * 2 - 2 + 1 by omega, List.range_succ, List.foldl_append]
    rfl
  generalize propagated n aTile bTile ghost old (n * 2 - 2) = q at hlast hr
  obtain ⟨hw, hl⟩ := hlast
  have hfire := hw.fed_inject.fires_eq hw (by omega) (show 0 < n by omega)
  rw [decide_eq_true (show Active n (n * 2 - 2 + 1) (n - 1) 0 by unfold Active; omega)] at hfire
  refine ⟨?_, ?_, ?_⟩
  · rw [hr]
    refine (if_pos hfire).trans ?_
    dsimp only
    rw [hw.emitted 0 (by omega)]
    omega
  · rw [hr]
    refine (congrArg Valid8.valid ?_).trans (congrArg Valid8.valid (hw.weight (n - 1) (by omega) 0 (by omega)))
    simp only [tileStep, propagateAndMac, emit]
    split <;> exact mac_weightReg _ _ _
  · rw [hr]
    simp only [tileStep, List.filter_append, List.length_append]
    rw [hl.once 0 (by omega) 0 (by omega), if_pos (by omega)]
    exact Nat.le_add_right _ _

/-- Whatever valid operand the flush finds, it is emitted to row 0 again. -/
theorem not_correct_of_eq (hn : n = 2 ^ 16) :
    ¬ TileCorrect n aTile bTile (computeTileRun n aTile bTile (fun _ _ => ⟨true, 0⟩) old) := by
  intro h
  have htwice : Twice (computeTileRun n aTile bTile (fun _ _ => ⟨true, 0⟩) old) := by
    rw [computeTileRun_eq]
    refine (foldl_range_induct (P := fun c r => (c = 0 → r = propagated n aTile bTile (fun _ _ => ⟨true, 0⟩) old
      (n * 2 - 1)) ∧ (1 ≤ c → Twice r)) ⟨fun _ => rfl, fun h => by omega⟩ ?_ (m := n)).2 (by omega)
    intro c _ r hr
    refine ⟨fun h => by omega, fun _ => ?_⟩
    rcases Nat.eq_zero_or_pos c with rfl | hc
    · obtain ⟨h0, hv, h1⟩ := @propagated_wrapped n aTile bTile (fun _ _ => ⟨true, 0⟩) old hn
      rw [← hr.1 rfl] at h0 hv h1
      unfold Twice
      simp only [tileStep, List.filter_append, List.length_append]
      have hfire : fires n { r.array with pe := forward (mac (shift (fun _ => ⟨true, 0⟩) r.array.pe)) } 0 = true := by
        have hm := mac_valid (shift (fun _ => ⟨true, 0⟩) r.array.pe) (n - 1) 0
        simp only [fires, forward, hm, shift, hv, h0, if_true, Bool.and_self, Bool.true_and, decide_eq_true_eq]
        omega
      obtain ⟨e, hmem, hrow, hcol⟩ := exists_emission n (show 0 < n by omega) hfire
      have hpos := List.length_pos_of_mem (List.mem_filter (p := fun e => decide (e.row = 0 ∧ e.col = 0)).mpr
        ⟨hmem, decide_eq_true ⟨hrow.trans h0, hcol⟩⟩)
      exact Nat.add_le_add h1 hpos
    · exact (hr.2 hc).tileStep _
  unfold Twice at htwice
  rw [h.once 0 (by omega) 0 (by omega)] at htwice
  exact absurd htwice (by simp)

/-- **Main result.** The schedule computes every tile, whatever the flush finds in front of the rows, exactly on the
arrays of fewer than `2 ^ 16` rows. -/
theorem tileCorrect_iff (hn : 0 < n) :
    (∀ aTile bTile ghost old, TileCorrect n aTile bTile (computeTileRun n aTile bTile ghost old)) ↔ n < 2 ^ 16 := by
  constructor
  · intro h
    by_contra hge
    rcases Nat.lt_or_eq_of_le (Nat.le_of_not_lt hge) with hlt | heq
    · exact not_correct_of_lt hlt (h (fun _ _ => 0) (fun _ _ => 0) (fun _ _ => ⟨false, 0⟩) fun _ _ => 0)
    · exact not_correct_of_eq heq.symm (h (fun _ _ => 0) (fun _ _ => 0) _ fun _ _ => 0)
  · intro hlt aTile bTile ghost old
    exact computeTileRun_correct hn hlt

theorem tileCorrect_iff_two :
    0 < SASIZE ∧ ((∀ aTile bTile ghost old, TileCorrect SASIZE aTile bTile
      (computeTileRun SASIZE aTile bTile ghost old)) ↔ SASIZE < 2 ^ 16) :=
  ⟨by decide, tileCorrect_iff (by decide)⟩

/-- With one row more than the counters count, no tile is computed. -/
theorem not_tileCorrect_wide : ¬ ∀ aTile bTile ghost old,
    TileCorrect 65537 aTile bTile (computeTileRun 65537 aTile bTile ghost old) := by
  intro h
  exact not_correct_of_lt (by omega) (h (fun _ _ => 0) (fun _ _ => 0) (fun _ _ => ⟨false, 0⟩) fun _ _ => 0)

end

end SocModel.Sa
