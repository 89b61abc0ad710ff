import SocModel.Lib.Recorded
import SocModel.Sa.Tile

/-!
# The loops of a cycle

`Preload_Weight`, `PropagateA_And_MAC` and `FlushAndEmit` with their loops in the order of the source, in place on one
array, for `n` rows and columns (`SASIZE` in the source). The indices are integers, as in the source; an element that
a statement names more than once is read once. An element of `pe` that does not exist holds what lies in memory there,
`outside`.

* `Element` : what a loop indexes, `Element.Exists n` : the index is within bounds;
* `eventLoop`, `scheduleLoop` : the loops of one event and of a list of events;
* `SameRun.schedule` : the loops do what the stages of `tileStep` do, at every element that exists;
* `schedule_product` : they compute the product of the tiles, whatever lies outside;
* `flush_exists`, `flush_hits` : a flush accesses one element in front of every row, and no other that is missing;
* `schedule_inBounds_iff` : the loops access existing elements only iff no event is a flush.
-/

namespace SocModel.Sa

open Lib

/-- An index into one of the arrays of a tile. -/
inductive Element where
  | pe (i j : Int)
  | aTile (i j : Int)
  | bTile (i j : Int)
  | result (i j : Int)
  | emitRow (j : Int)
  | tileResult (i j : Int)
  deriving DecidableEq, Repr

/-- The index is within bounds. -/
def Element.Exists (n : Nat) : Element → Prop
  | pe i j | aTile i j | bTile i j | result i j | tileResult i j => (0 ≤ i ∧ i < n) ∧ 0 ≤ j ∧ j < n
  | emitRow j => 0 ≤ j ∧ j < n

instance (n : Nat) (x : Element) : Decidable (x.Exists n) := by
  cases x <;> unfold Element.Exists <;> infer_instance

/-- What the events of a tile change. -/
structure LoopState where
  array : Array2
  tileResult : Nat → Nat → BitVec 16

abbrev Loop := Recorded Element LoopState

/-! ## Accesses to the arrays -/

section

variable (n : Nat) (aTile bTile : Nat → Nat → Byte) (outside : Int → Int → PE)

def readPe (i j : Int) : Loop PE :=
  .read (.pe i j) fun s => if (Element.pe i j).Exists n then s.array.pe i.toNat j.toNat else outside i j

/-- An assignment to fields of `pe[i][j]`. -/
def updatePe (i j : Int) (f : PE → PE) : Loop Unit :=
  .write (.pe i j) fun s =>
    if (Element.pe i j).Exists n then
      { s with array := { s.array with
          pe := fun a b => if (a, b) = (i.toNat, j.toNat) then f (s.array.pe a b) else s.array.pe a b } }
    else s

def readTile (element : Int → Int → Element) (tile : Nat → Nat → Byte) (i j : Int) : Loop Byte :=
  .read (element i j) fun _ => tile i.toNat j.toNat

def readResult (i j : Int) : Loop (BitVec 16) := .read (.result i j) fun s => s.array.result i.toNat j.toNat

def writeResult (i j : Int) (v : BitVec 16) : Loop Unit :=
  .write (.result i j) fun s => { s with array := { s.array with
    result := fun a b => if (a, b) = (i.toNat, j.toNat) then v else s.array.result a b } }

def readEmitRow (j : Int) : Loop Nat := .read (.emitRow j) fun s => s.array.emitRow j.toNat

/-- `++emitRow[j]` on a counter of type uint16_t. -/
def incEmitRow (j : Int) : Loop Unit :=
  .write (.emitRow j) fun s => { s with array := { s.array with
    emitRow := fun b => if b = j.toNat then (s.array.emitRow b + 1) % 2 ^ 16 else s.array.emitRow b } }

def writeTileResult (i j : Int) (v : BitVec 16) : Loop Unit :=
  .write (.tileResult i j) fun s => { s with
    tileResult := fun a b => if (a, b) = (i.toNat, j.toNat) then v else s.tileResult a b }

/-! ## The loops -/

/-- The first loop of `Preload_Weight`. -/
def moveLoop : Loop Unit :=
  .down 1 n fun i => .up 0 n fun j => do
    let above ← readPe n outside (i - 1) j
    updatePe n i j fun p => { p with weightReg := above.weightReg }

/-- The second loop of `Preload_Weight`. -/
def loadLoop (cycle : Nat) : Loop Unit :=
  .up 0 n fun j => do
    let data ← readTile .bTile bTile (n - 1 - cycle) j
    updatePe n 0 j fun p => { p with weightReg := ⟨true, data⟩ }

/-- `Preload_Weight` -/
def preloadLoop (cycle : Nat) : Loop Unit := do
  moveLoop n outside
  loadLoop n bTile cycle

/-- `valid ? A_Tile[aCol][i] : 0` -/
def injected (valid : Bool) (aCol i : Int) : Loop Byte := if valid then readTile .aTile aTile aCol i else pure 0

/-- The first loop of `PropagateA_And_MAC`. -/
def injectLoop (cycle : Nat) : Loop Unit :=
  .up 0 n fun i => .down 0 n fun j =>
    if j = 0 then do
      let aCol : Int := cycle - i
      let valid := decide (0 ≤ aCol ∧ aCol < n)
      let data ← injected aTile valid aCol i
      updatePe n i j fun p => { p with inReg := ⟨valid, data⟩ }
    else do
      let left ← readPe n outside i (j - 1)
      updatePe n i j fun p => { p with inReg := left.fwdIn }

/-- The first loop of `FlushAndEmit`, which has no case for the first column. -/
def shiftLoop : Loop Unit :=
  .up 0 n fun i => .down 0 n fun j => do
    let left ← readPe n outside i (j - 1)
    updatePe n i j fun p => { p with inReg := left.fwdIn }

/-- `(i > 0 && pe[i - 1][j].fwdPsum.valid) ? pe[i - 1][j].fwdPsum.sum : 0` -/
def prevSum (i j : Int) : Loop (BitVec 16) :=
  if 0 < i then do
    let above ← readPe n outside (i - 1) j
    pure (if above.fwdPsum.valid then above.fwdPsum.sum else 0)
  else pure 0

/-- The MAC loop of both functions. -/
def macLoop : Loop Unit :=
  .down 0 n fun i => .up 0 n fun j => do
    let P ← readPe n outside i j
    if P.weightReg.valid && P.inReg.valid then do
      let prod := P.inReg.data.zeroExtend 16 * P.weightReg.data.zeroExtend 16
      let prev ← prevSum n outside i j
      updatePe n i j fun p => { p with psumReg := ⟨true, prev + prod⟩ }
    else updatePe n i j fun p => { p with psumReg := { p.psumReg with valid := false } }

/-- The forward loop of both functions. -/
def forwardLoop : Loop Unit :=
  .down 0 n fun i => .up 0 n fun j => updatePe n i j fun p => { p with fwdIn := p.inReg, fwdPsum := p.psumReg }

/-- The body of the emit loop. -/
def emitColumn (j : Int) : Loop Unit := do
  let bot ← readPe n outside (n - 1) j
  if bot.psumReg.valid then do
    let row ← readEmitRow j
    if row < n then do
      writeResult row j bot.psumReg.sum
      incEmitRow j
      updatePe n (n - 1) j fun p => { p with
        psumReg := { p.psumReg with valid := false }
        fwdPsum := { p.fwdPsum with valid := false } }
    else pure ()
  else pure ()

/-- The emit loop of both functions. -/
def emitLoop : Loop Unit := .up 0 n (emitColumn n outside)

/-- The last loop of `FlushAndEmit`. -/
def collectLoop : Loop Unit :=
  .up 0 n fun i => .up 0 n fun j => do
    let sum ← readResult i j
    writeTileResult i j sum

/-- `PropagateA_And_MAC` -/
def propagateLoop (cycle : Nat) : Loop Unit := do
  injectLoop n aTile outside cycle
  macLoop n outside
  forwardLoop n
  emitLoop n outside

/-- `FlushAndEmit` -/
def flushLoop (cycle : Nat) : Loop Unit := do
  shiftLoop n outside
  macLoop n outside
  forwardLoop n
  emitLoop n outside
  if cycle = n - 1 then collectLoop n else pure ()

end

/-- The event of a cycle; the deposit is no loop over these arrays. -/
def eventLoop (n : Nat) (aTile bTile : Nat → Nat → Byte) (outside : Nat → Int → Int → PE) : TileEvent → Loop Unit
  | .preload c => preloadLoop n bTile (outside c) c
  | .propagate c => propagateLoop n aTile (outside c) c
  | .flush c => flushLoop n (outside c) c
  | .deposit => pure ()

def scheduleLoop (n : Nat) (aTile bTile : Nat → Nat → Byte) (outside : Nat → Int → Int → PE) (es : List TileEvent) :
    Loop Unit :=
  .forEach es (eventLoop n aTile bTile outside)

/-! ## Every access but one -/

section

variable {n : Nat} {aTile bTile : Nat → Nat → Byte} {outside : Int → Int → PE} {i j : Int} {P : Element → Prop}

theorem exists_pe (hi : 0 ≤ i) (hi' : i < n) (hj : 0 ≤ j) (hj' : j < n) : (Element.pe i j).Exists n :=
  ⟨⟨hi, hi'⟩, hj, hj'⟩

theorem readPe_touches (h : P (.pe i j)) : (readPe n outside i j).Touches P := .read h

theorem updatePe_touches {f : PE → PE} (h : P (.pe i j)) : (updatePe n i j f).Touches P := .write h

theorem preload_exists {c : Nat} (hc : c < n) : (preloadLoop n bTile outside c).Touches (Element.Exists n) := by
  refine .bind (.down fun i hi hi' => .up fun j hj hj' => ?_) fun _ => .up fun j hj hj' => ?_
  · exact .bind (readPe_touches (exists_pe (by omega) (by omega) hj hj'))
      fun _ => updatePe_touches (exists_pe (by omega) hi' hj hj')
  · refine .bind (.read ⟨⟨by omega, by omega⟩, hj, hj'⟩) fun _ => ?_
    exact updatePe_touches (exists_pe le_rfl (by omega) hj hj')

theorem inject_exists (c : Nat) : (injectLoop n aTile outside c).Touches (Element.Exists n) := by
  refine .up fun i hi hi' => .down fun j hj hj' => .ite (fun h0 => ?_) fun h0 => ?_
  · refine .bind ?_ fun _ => updatePe_touches (exists_pe hi hi' hj hj')
    exact .ite (fun hv => .read ⟨of_decide_eq_true hv, hi, hi'⟩) fun _ => .pure _
  · exact .bind (readPe_touches (exists_pe hi hi' (by omega) (by omega)))
      fun _ => updatePe_touches (exists_pe hi hi' hj hj')

theorem mac_exists : (macLoop n outside).Touches (Element.Exists n) := by
  refine .down fun i hi hi' => .up fun j hj hj' => .bind (readPe_touches (exists_pe hi hi' hj hj')) fun P => ?_
  have hself {f : PE → PE} : (updatePe n i j f).Touches (Element.Exists n) :=
    updatePe_touches (exists_pe hi hi' hj hj')
  have hprev : (prevSum n outside i j).Touches (Element.Exists n) :=
    .ite (fun hpos => .bind (readPe_touches (exists_pe (by omega) (by omega) hj hj')) fun _ => .pure _) fun _ => .pure _
  exact .ite (fun _ => hprev.bind fun _ => hself) fun _ => hself

theorem forward_exists : (forwardLoop n).Touches (Element.Exists n) :=
  .down fun _ hi hi' => .up fun _ hj hj' => updatePe_touches (exists_pe hi hi' hj hj')

/-- The guard on the counter bounds the row of `Result`. -/
theorem emit_exists : (emitLoop n outside).Touches (Element.Exists n) := by
  refine .up fun j hj hj' => ?_
  have hbot : (Element.pe (n - 1) j).Exists n := exists_pe (by omega) (by omega) hj hj'
  refine .bind (readPe_touches hbot) fun bot => .ite (fun _ => ?_) fun _ => .pure _
  refine .bind (.read ⟨hj, hj'⟩) fun row => .ite (fun hrow => ?_) fun _ => .pure _
  exact .bind (.write ⟨⟨by omega, by omega⟩, hj, hj'⟩) fun _ => .bind (.write ⟨hj, hj'⟩)
    fun _ => updatePe_touches hbot

theorem collect_exists : (collectLoop n).Touches (Element.Exists n) :=
  .up fun _ hi hi' => .up fun _ hj hj' =>
    .bind (.read ⟨⟨hi, hi'⟩, hj, hj'⟩) fun _ => .write ⟨⟨hi, hi'⟩, hj, hj'⟩

theorem propagate_exists (c : Nat) : (propagateLoop n aTile outside c).Touches (Element.Exists n) :=
  (inject_exists c).bind fun _ => mac_exists.bind fun _ => forward_exists.bind fun _ => emit_exists

/-- Only the element in front of a row may be missing. -/
theorem shift_exists : (shiftLoop n outside).Touches fun x => x.Exists n ∨ ∃ i : Nat, i < n ∧ x = .pe i (-1) := by
  refine .up fun i hi hi' => .down fun j hj hj' => .bind (readPe_touches ?_)
    fun _ => updatePe_touches (.inl (exists_pe hi hi' hj hj'))
  rcases hj.eq_or_lt with rfl | hpos
  · exact .inr ⟨i.toNat, by omega, by rw [Int.toNat_of_nonneg hi]; rfl⟩
  · exact .inl (exists_pe hi hi' (by omega) (by omega))

theorem flush_exists (c : Nat) :
    (flushLoop n outside c).Touches fun x => x.Exists n ∨ ∃ i : Nat, i < n ∧ x = .pe i (-1) := by
  refine shift_exists.bind fun _ => Recorded.Touches.mono ?_ fun _ => .inl
  exact mac_exists.bind fun _ => forward_exists.bind fun _ => emit_exists.bind fun _ =>
    .ite (fun _ => collect_exists) fun _ => .pure _

/-- Every row is read in front of its first element. -/
theorem flush_hits (c : Nat) {i : Nat} (hi : i < n) : (flushLoop n outside c).Hits (.pe i (-1)) :=
  .bind_left (.up (i := i) (.down (i := 0) (.bind_left .read) le_rfl (by omega)) (Nat.zero_le i) hi)

theorem not_exists_front (i : Int) : ¬ (Element.pe i (-1)).Exists n := fun h => absurd h.2.1 (by decide)

end

/-! ## The loops are the stages -/

/-- Equal at every element that exists. -/
structure SameArray (n : Nat) (s t : Array2) : Prop where
  pe : ∀ i < n, ∀ j < n, s.pe i j = t.pe i j
  result : ∀ i < n, ∀ j < n, s.result i j = t.result i j
  emitRow : ∀ j < n, s.emitRow j = t.emitRow j

/-- Element `(i, j)` after a stage depends on itself and on the elements above and left of it that `reads` lists. -/
structure Local (g : (Nat → Nat → PE) → Nat → Nat → PE) (reads : Nat × Nat → List (Nat × Nat)) : Prop where
  congr : ∀ i j v w, v i j = w i j → (∀ q ∈ reads (i, j), v q.1 q.2 = w q.1 q.2) → g v i j = g w i j
  le : ∀ p, ∀ q ∈ reads p, q.1 ≤ p.1 ∧ q.2 ≤ p.2

/-- What `updatePe` does to an element that exists. -/
def LoopState.setPe (s : LoopState) (i j : Nat) (v : PE) : LoopState :=
  { s with array := { s.array with pe := fun a b => if (a, b) = (i, j) then v else s.array.pe a b } }

section

variable {n : Nat} {outside : Int → Int → PE} {s : LoopState} {g : (Nat → Nat → PE) → Nat → Nat → PE}
  {reads : Nat × Nat → List (Nat × Nat)}

theorem exec_updatePe {i j : Nat} (hi : i < n) (hj : j < n) (f : PE → PE) :
    (updatePe n i j f).exec s = s.setPe i j (f (s.array.pe i j)) := by
  have hx : (Element.pe i j).Exists n := exists_pe (by omega) (by omega) (by omega) (by omega)
  simp only [updatePe, Recorded.exec_write, if_pos hx, Int.toNat_natCast, LoopState.setPe]
  congr 2
  funext a b
  split
  · next h => rw [(Prod.mk.inj h).1, (Prod.mk.inj h).2]
  · rfl

theorem val_readPe {i j : Int} (hx : (Element.pe i j).Exists n) :
    (readPe n outside i j).val s = s.array.pe i.toNat j.toNat := if_pos hx

/-- A nest of loops whose body overwrites its own element, in an order that reads no element written before. -/
theorem exec_grid (rows cols : List Nat) (body : Nat → Nat → Loop Unit) (hg : Local g reads)
    (hbody : ∀ i ∈ rows, ∀ j ∈ cols, ∀ s, (body i j).exec s = s.setPe i j (g s.array.pe i j))
    (horder : (rows ×ˢ cols).Pairwise fun q p => q ≠ p ∧ q ∉ reads p) (s : LoopState) :
    (Recorded.forEach rows fun i => .forEach cols (body i)).exec s = { s with array := { s.array with
      pe := fun i j => if i ∈ rows ∧ j ∈ cols then g s.array.pe i j else s.array.pe i j } } := by
  have hkeeps : (Recorded.forEach rows fun i => .forEach cols (body i)).Keeps
      fun s => (s.tileResult, s.array.result, s.array.emitRow) :=
    .forEach fun i hi => .forEach fun j hj s => by rw [hbody i hi j hj]; rfl
  have hpe := get_foldl_inPlace (fun (s : LoopState) p => s.array.pe p.1 p.2) (fun p s => (body p.1 p.2).exec s)
    (fun p v => g (fun a b => v (a, b)) p.1 p.2) reads
    (fun p hp s q => by
      obtain ⟨hi, hj⟩ := List.mem_product.mp hp
      rw [hbody _ hi _ hj]
      rfl)
    (fun p v w hself hread => hg.congr p.1 p.2 _ _ hself hread) horder s
  rw [← Recorded.exec_forEach_product] at hpe
  have hkeep := hkeeps s
  generalize (Recorded.forEach rows fun i => .forEach cols (body i)).exec s = t at hpe hkeep
  obtain ⟨⟨pe, result, emitRow⟩, tileResult⟩ := t
  simp only [Prod.mk.injEq] at hkeep
  obtain ⟨rfl, rfl, rfl⟩ := hkeep
  congr 2
  funext i j
  simpa only [List.mem_product] using hpe (i, j)

theorem order_left : (List.range' 0 n ×ˢ (List.range' 0 n).reverse).Pairwise fun q p =>
    q ≠ p ∧ q ∉ [(p.1, p.2 - 1)] := by
  refine pairwise_product List.pairwise_lt_range' (List.pairwise_reverse.mpr List.pairwise_lt_range') ?_ ?_
  · intro a b b' h
    simp only [ne_eq, Prod.mk.injEq, List.mem_singleton]
    omega
  · intro a a' b b' h
    simp only [ne_eq, Prod.mk.injEq, List.mem_singleton]
    omega

theorem order_above (lo k : Nat) : ((List.range' lo k).reverse ×ˢ List.range' 0 n).Pairwise fun q p =>
    q ≠ p ∧ q ∉ [(p.1 - 1, p.2)] := by
  refine pairwise_product (List.pairwise_reverse.mpr List.pairwise_lt_range') List.pairwise_lt_range' ?_ ?_
  · intro a b b' h
    simp only [ne_eq, Prod.mk.injEq, List.mem_singleton]
    omega
  · intro a a' b b' h
    simp only [ne_eq, Prod.mk.injEq, List.mem_singleton]
    omega

/-- The elements that exist are those of `pe`. -/
def LoopState.onGrid (n : Nat) (s : LoopState) (pe : Nat → Nat → PE) : LoopState :=
  { s with array := { s.array with pe := fun i j => if i < n ∧ j < n then pe i j else s.array.pe i j } }

theorem SameArray.stage {t : Array2} (h : SameArray n s.array t) (hg : Local g reads) :
    SameArray n (s.onGrid n (g s.array.pe)).array { t with pe := g t.pe } where
  pe i hi j hj := by
    refine (if_pos ⟨hi, hj⟩).trans (hg.congr i j _ _ (h.pe i hi j hj) fun q hq => ?_)
    have hle := hg.le (i, j) q hq
    exact h.pe _ (hle.1.trans_lt hi) _ (hle.2.trans_lt hj)
  result := h.result
  emitRow := h.emitRow

theorem val_readPe_left {i j : Nat} (hi : i < n) (hj : j < n) :
    (readPe n outside i (j - 1)).val s = if j = 0 then outside i (-1) else s.array.pe i (j - 1) := by
  split
  · next h0 => rw [h0]; exact if_neg (not_exists_front i)
  · next h0 =>
    rw [val_readPe (exists_pe (by omega) (by omega) (by omega) (by omega)), Int.toNat_natCast]
    congr 1
    omega

theorem val_readPe_above {i j : Nat} (hi : i < n) (hj : j < n) (hpos : 0 < i) :
    (readPe n outside (i - 1) j).val s = s.array.pe (i - 1) j := by
  rw [val_readPe (exists_pe (by omega) (by omega) (by omega) (by omega)), Int.toNat_natCast]
  congr 1
  omega

theorem local_shift (ghost : Nat → Valid8) : Local (shift ghost) fun p => [(p.1, p.2 - 1)] where
  congr i j v w hself hread := by simp only [shift, hself, hread (i, j - 1) (List.mem_singleton_self _)]
  le p q hq := by simp [List.mem_singleton.mp hq]

theorem local_inject (aTile : Nat → Nat → Byte) (c : Nat) : Local (inject n aTile c) fun p => [(p.1, p.2 - 1)] where
  congr i j v w hself hread := by simp only [inject, hself, hread (i, j - 1) (List.mem_singleton_self _)]
  le p q hq := by simp [List.mem_singleton.mp hq]

theorem local_mac : Local mac fun p => [(p.1 - 1, p.2)] where
  congr i j v w hself hread := by simp only [mac, hself, hread (i - 1, j) (List.mem_singleton_self _)]
  le p q hq := by simp [List.mem_singleton.mp hq]

theorem local_forward : Local forward fun p => [(p.1 - 1, p.2)] where
  congr i j v w hself _ := by simp only [forward, hself]
  le p q hq := by simp [List.mem_singleton.mp hq]

/-- The whole grid, row by row or from the last row up. -/
theorem exec_whole {rows cols : List Nat} {body : Nat → Nat → Loop Unit} (hg : Local g reads)
    (hrows : ∀ i, i ∈ rows ↔ i < n) (hcols : ∀ j, j ∈ cols ↔ j < n)
    (hbody : ∀ i < n, ∀ j < n, ∀ s, (body i j).exec s = s.setPe i j (g s.array.pe i j))
    (horder : (rows ×ˢ cols).Pairwise fun q p => q ≠ p ∧ q ∉ reads p) (s : LoopState) :
    (Recorded.forEach rows fun i => .forEach cols (body i)).exec s = s.onGrid n (g s.array.pe) := by
  rw [exec_grid rows cols body hg (fun i hi j hj => hbody i ((hrows i).mp hi) j ((hcols j).mp hj)) horder]
  simp only [hrows, hcols, LoopState.onGrid]

theorem mem_up {i : Nat} : i ∈ List.range' 0 (n - 0) ↔ i < n := by simp

theorem mem_down {i : Nat} : i ∈ (List.range' 0 (n - 0)).reverse ↔ i < n := by simp

theorem shift_exec (s : LoopState) :
    (shiftLoop n outside).exec s = s.onGrid n (shift (fun i => (outside i (-1)).fwdIn) s.array.pe) := by
  refine exec_whole (local_shift _) (fun _ => mem_up) (fun _ => mem_down) (fun i hi j hj s => ?_) order_left s
  rw [Recorded.exec_bind, val_readPe_left hi hj]
  refine (exec_updatePe hi hj _).trans ?_
  unfold shift
  split <;> rfl

theorem forward_exec (s : LoopState) : (forwardLoop n).exec s = s.onGrid n (forward s.array.pe) :=
  exec_whole local_forward (fun _ => mem_down) (fun _ => mem_up) (fun _ hi _ hj _ => exec_updatePe hi hj _)
    (order_above 0 n) s

theorem prevSum_exec (i j : Int) : (prevSum n outside i j).exec s = s := by
  unfold prevSum
  split <;> rfl

theorem prevSum_val {i j : Nat} (hi : i < n) (hj : j < n) : (prevSum n outside i j).val s =
    if 0 < i ∧ (s.array.pe (i - 1) j).fwdPsum.valid = true then (s.array.pe (i - 1) j).fwdPsum.sum else 0 := by
  unfold prevSum
  by_cases hpos : 0 < i
  · have habove : (readPe n outside (i - 1) j).val s = s.array.pe (i - 1) j := val_readPe_above hi hj hpos
    rw [if_pos (by omega), ← habove]
    simp only [hpos, true_and]
    rfl
  · rw [if_neg (by omega), if_neg fun h => hpos h.1]
    rfl

theorem mac_exec (s : LoopState) : (macLoop n outside).exec s = s.onGrid n (mac s.array.pe) := by
  refine exec_whole local_mac (fun _ => mem_down) (fun _ => mem_up) (fun i hi j hj s => ?_) (order_above 0 n) s
  rw [Recorded.exec_bind, val_readPe (exists_pe (by omega) (by omega) (by omega) (by omega))]
  simp only [Int.toNat_natCast]
  unfold mac
  by_cases hv : ((s.array.pe i j).weightReg.valid && (s.array.pe i j).inReg.valid) = true
  · rw [if_pos hv, if_pos hv, Recorded.exec_bind, prevSum_exec, prevSum_val hi hj]
    exact exec_updatePe hi hj _
  · rw [if_neg hv, if_neg hv]
    exact exec_updatePe hi hj _

theorem inject_exec (aTile : Nat → Nat → Byte) (c : Nat) (s : LoopState) :
    (injectLoop n aTile outside c).exec s = s.onGrid n (inject n aTile c s.array.pe) := by
  refine exec_whole (local_inject aTile c) (fun _ => mem_up) (fun _ => mem_down) (fun i hi j hj s => ?_) order_left s
  unfold inject
  dsimp only
  by_cases h0 : j = 0
  · subst h0
    rw [if_pos (by rfl), if_pos rfl]
    by_cases hv : i ≤ c ∧ c - i < n
    · have hv' : decide ((0 : Int) ≤ c - i ∧ (c : Int) - i < n) = true := decide_eq_true (by omega)
      have hcol : ((c : Int) - i).toNat = c - i := by omega
      rw [if_pos hv]
      simp only [hv', injected, if_true]
      rw [Recorded.exec_bind]
      refine (exec_updatePe hi hj _).trans ?_
      simp only [readTile, Recorded.val_read, Recorded.exec_read, hcol, Int.toNat_natCast]
    · have hv' : decide ((0 : Int) ≤ c - i ∧ (c : Int) - i < n) = false := decide_eq_false (by omega)
      rw [if_neg hv]
      simp only [hv', injected, Bool.false_eq_true, if_false]
      rw [Recorded.exec_bind]
      exact exec_updatePe hi hj _
  · rw [if_neg (by omega), if_neg h0, Recorded.exec_bind, val_readPe_left hi hj, if_neg h0]
    exact exec_updatePe hi hj _

/-! ### Preloading -/

theorem local_move : Local (fun v i j => { v i j with weightReg := (v (i - 1) j).weightReg })
    fun p => [(p.1 - 1, p.2)] where
  congr i j v w hself hread := by simp only [hself, hread (i - 1, j) (List.mem_singleton_self _)]
  le p q hq := by simp [List.mem_singleton.mp hq]

theorem local_load (row : Nat → Byte) : Local (fun v i j => { v i j with weightReg := ⟨true, row j⟩ })
    fun _ => [] where
  congr i j v w hself _ := by simp only [hself]
  le p q hq := absurd hq List.not_mem_nil

theorem move_exec (s : LoopState) : (moveLoop n outside).exec s = { s with array := { s.array with
    pe := fun i j => if i ∈ (List.range' 1 (n - 1)).reverse ∧ j ∈ List.range' 0 (n - 0) then
      { s.array.pe i j with weightReg := (s.array.pe (i - 1) j).weightReg } else s.array.pe i j } } := by
  refine exec_grid _ _ _ local_move (fun i hi j hj s => ?_) (order_above 1 (n - 1)) s
  simp only [List.mem_reverse, List.mem_range'_1] at hi hj
  rw [Recorded.exec_bind, val_readPe_above (by omega) (by omega) (by omega)]
  exact exec_updatePe (by omega) (by omega) _

theorem load_exec (hn : 0 < n) (bTile : Nat → Nat → Byte) {c : Nat} (hc : c < n) (s : LoopState) :
    (loadLoop n bTile c).exec s = { s with array := { s.array with
      pe := fun i j => if i ∈ [0] ∧ j ∈ List.range' 0 (n - 0) then
        { s.array.pe i j with weightReg := ⟨true, bTile (n - 1 - c) j⟩ } else s.array.pe i j } } := by
  have hrow : ((n : Int) - 1 - c).toNat = n - 1 - c := by omega
  refine exec_grid [0] (List.range' 0 (n - 0)) (fun i j => do
    let data ← readTile .bTile bTile (n - 1 - c) j
    updatePe n i j fun p => { p with weightReg := ⟨true, data⟩ }) (local_load (bTile (n - 1 - c)))
    (fun i hi j hj s => ?_) ?_ s
  · simp only [List.mem_singleton, List.mem_range'_1] at hi hj
    subst hi
    rw [Recorded.exec_bind]
    refine (exec_updatePe hn (by omega) _).trans ?_
    simp only [readTile, Recorded.val_read, Recorded.exec_read, hrow, Int.toNat_natCast]
  · refine pairwise_product (List.pairwise_singleton (fun _ _ => False) 0) List.pairwise_lt_range'
      (fun a b b' h => ⟨?_, List.not_mem_nil⟩) fun _ _ _ _ h => h.elim
    simp only [ne_eq, Prod.mk.injEq]
    omega

/-- The rows move down before the first row is loaded. -/
theorem preload_exec (hn : 0 < n) (bTile : Nat → Nat → Byte) {c : Nat} (hc : c < n) (s : LoopState) :
    (preloadLoop n bTile outside c).exec s = s.onGrid n (preloadWeight n bTile c s.array).pe := by
  unfold preloadLoop
  rw [Recorded.exec_bind, load_exec hn bTile hc, move_exec]
  simp only [LoopState.onGrid, preloadWeight, List.mem_reverse, List.mem_range'_1, List.mem_singleton]
  congr 2
  funext i j
  by_cases h0 : i = 0
  · subst h0
    by_cases hj : j < n
    · simp [hn, hj]
    · simp [hj]
  · by_cases hij : i < n ∧ j < n
    · rw [if_neg (by omega), if_pos (by omega), if_pos hij, if_neg h0]
    · rw [if_neg (by omega), if_neg (by omega), if_neg hij]

/-! ### Emitting -/

/-- What belongs to column `j`. -/
def Array2.column (s : Array2) (j : Nat) : (Nat → PE) × (Nat → BitVec 16) × Nat :=
  (fun i => s.pe i j, fun i => s.result i j, s.emitRow j)

/-- An array with the same column everywhere: a column emits by itself, whatever stands in the others. -/
def Array2.ofColumn (c : (Nat → PE) × (Nat → BitVec 16) × Nat) : Array2 :=
  ⟨fun i _ => c.1 i, fun i _ => c.2.1 i, fun _ => c.2.2⟩

theorem emitColumn_exec {j : Nat} (hj : j < n) (s : LoopState) (b : Nat) :
    ((emitColumn n outside j).exec s).array.column b =
      if b = j then (emit n s.array).column j else s.array.column b := by
  have hlast : (n : Int) - 1 = ((n - 1 : Nat) : Int) := by omega
  have hbot : (readPe n outside (n - 1 : Nat) j).val s = s.array.pe (n - 1) j :=
    val_readPe (exists_pe (by omega) (by omega) (by omega) (by omega))
  have hrow : (readEmitRow j).val s = s.array.emitRow j := rfl
  unfold emitColumn
  rw [hlast, Recorded.exec_bind, hbot]
  change ((ite _ _ _ : Loop Unit).exec s).array.column b = _
  by_cases hf : fires n s.array j = true
  · have hf' := hf
    rw [fires, Bool.and_eq_true, decide_eq_true_eq] at hf'
    rw [if_pos hf'.1, Recorded.exec_bind, hrow, if_pos hf'.2, Recorded.exec_bind, Recorded.exec_bind,
      exec_updatePe (by omega) hj]
    split
    · next hb =>
      subst hb
      simp only [Array2.column, emit, hf, and_true, true_and, if_true]
      refine Prod.ext (funext fun i => ?_) (Prod.ext (funext fun r => ?_) ?_)
      · by_cases hi : i = n - 1
        · simp [LoopState.setPe, incEmitRow, writeResult, readEmitRow, hi]
        · simp [LoopState.setPe, incEmitRow, writeResult, readEmitRow, hi]
      · simp [LoopState.setPe, incEmitRow, writeResult, readEmitRow]
      · simp [LoopState.setPe, incEmitRow, writeResult, readEmitRow]
    · next hb =>
      simp [Array2.column, hb, LoopState.setPe, incEmitRow, writeResult, readEmitRow]
  · have hsame : (emit n s.array).column j = s.array.column j := by simp [Array2.column, emit, hf]
    have hnot : (if b = j then (emit n s.array).column j else s.array.column b) = s.array.column b := by
      split
      · next hb => rw [hb, hsame]
      · rfl
    rw [hnot]
    split
    · next hv =>
      have hge : ¬ s.array.emitRow j < n := fun h => hf (by simp [fires, hv, h])
      rw [Recorded.exec_bind, hrow, if_neg hge]
      rfl
    · rfl

theorem emit_exec (s : LoopState) {j : Nat} (hj : j < n) :
    ((emitLoop n outside).exec s).array.column j = (emit n s.array).column j := by
  unfold emitLoop Recorded.up
  rw [Recorded.exec_forEach]
  refine (get_foldl_inPlace (fun (s : LoopState) j => s.array.column j)
    (fun j s => (emitColumn n outside (j : Nat)).exec s) (fun j v => (emit n (.ofColumn (v j))).column j)
    (fun _ => []) ?_ ?_ ?_ s j).trans ?_
  · intro j hj s b
    exact emitColumn_exec (mem_up.mp hj) s b
  · intro j v w h _
    rw [h]
  · exact List.Pairwise.imp (fun h => ⟨Nat.ne_of_lt h, List.not_mem_nil⟩) List.pairwise_lt_range'
  · exact if_pos (mem_up.mpr hj)

theorem emitColumn_keeps (j : Int) : (emitColumn n outside j).Keeps LoopState.tileResult := by
  intro s
  unfold emitColumn
  rw [Recorded.exec_bind]
  split
  · rw [Recorded.exec_bind]
    split
    · unfold updatePe
      simp only [Recorded.exec_bind, Recorded.exec_write]
      split <;> rfl
    · rfl
  · rfl

theorem SameArray.emit {t : Array2} (h : SameArray n s.array t) :
    SameArray n ((emitLoop n outside).exec s).array (emit n t) := by
  have hcol : ∀ j < n, ((emitLoop n outside).exec s).array.column j = (Sa.emit n s.array).column j :=
    fun j hj => emit_exec s hj
  have hfires : ∀ j < n, fires n s.array j = fires n t j := by
    intro j hj
    unfold fires
    rw [h.pe (n - 1) (by omega) j hj, h.emitRow j hj]
  refine ⟨fun i hi j hj => ?_, fun i hi j hj => ?_, fun j hj => ?_⟩
  · refine (congrFun (congrArg Prod.fst (hcol j hj)) i).trans ?_
    simp only [Array2.column, Sa.emit, hfires j hj, h.pe i hi j hj]
  · refine (congrFun (congrArg (·.2.1) (hcol j hj)) i).trans ?_
    simp only [Array2.column, Sa.emit, hfires j hj, h.pe (n - 1) (by omega) j hj, h.emitRow j hj, h.result i hi j hj]
  · refine (congrArg (·.2.2) (hcol j hj)).trans ?_
    simp only [Array2.column, Sa.emit, hfires j hj, h.emitRow j hj]

theorem collect_exec (s : LoopState) : ((collectLoop n).exec s).array = s.array ∧
    ∀ i < n, ∀ j < n, ((collectLoop n).exec s).tileResult i j = s.array.result i j := by
  refine ⟨Recorded.Keeps.forEach (g := LoopState.array) (fun i _ => .forEach fun j _ s => rfl) s, fun i hi j hj => ?_⟩
  have horder : (List.range' 0 (n - 0) ×ˢ List.range' 0 (n - 0)).Pairwise fun q p : Nat × Nat =>
      q ≠ p ∧ q ∉ ([] : List (Nat × Nat)) :=
    pairwise_product List.pairwise_lt_range' List.pairwise_lt_range'
      (fun a b b' h => ⟨by simp [Nat.ne_of_lt h], List.not_mem_nil⟩)
      fun a a' b b' h => ⟨by simp [Nat.ne_of_lt h], List.not_mem_nil⟩
  have hcell := get_foldl_inPlace
    (fun (s : LoopState) (p : Nat × Nat) => (s.tileResult p.1 p.2, s.array.result p.1 p.2))
    (fun p s => (do
      let sum ← readResult p.1 p.2
      writeTileResult p.1 p.2 sum : Loop Unit).exec s)
    (fun p v => ((v p).2, (v p).2)) (fun _ => [])
    (fun p _ s q => by
      simp only [Recorded.exec_bind, readResult, writeTileResult, Recorded.exec_write, Recorded.exec_read,
        Recorded.val_read, Int.toNat_natCast]
      by_cases hq : q = p
      · simp [hq]
      · simp [hq])
    (fun p v w h _ => by rw [h]) horder s (i, j)
  have hloop : (collectLoop n).exec s = _ := Recorded.exec_forEach_product s _ _ _
  rw [hloop]
  exact (congrArg Prod.fst hcell).trans
    (congrArg Prod.fst (if_pos (List.mem_product.mpr ⟨mem_up.mpr hi, mem_up.mpr hj⟩)))

end

/-! ### A run of the events -/

/-- The loops and the stages stand at the same values. -/
structure SameRun (n : Nat) (s : LoopState) (r : TileRun) : Prop where
  array : SameArray n s.array r.array
  tileResult : ∀ i < n, ∀ j < n, s.tileResult i j = r.tileResult i j

/-- What a flush finds in front of the rows. -/
def ghosts (outside : Nat → Int → Int → PE) (c i : Nat) : Valid8 := (outside c i (-1)).fwdIn

section

variable {n : Nat} {aTile bTile : Nat → Nat → Byte} {outside : Nat → Int → Int → PE} {s : LoopState} {r : TileRun}
  {e : TileEvent}

theorem lt_of_mem_tileEvents (he : e ∈ tileEvents n) :
    (∀ c, e = .preload c → c < n) ∧ e ≠ .deposit := by
  simp only [tileEvents, List.mem_append, List.mem_map, List.mem_range] at he
  rcases he with (⟨a, ha, rfl⟩ | ⟨a, ha, rfl⟩) | ⟨a, ha, rfl⟩ <;> simp_all

theorem SameArray.preload {t : Array2} (h : SameArray n s.array t) (hn : 0 < n) (outside : Int → Int → PE) {c : Nat}
    (hc : c < n) : SameArray n ((preloadLoop n bTile outside c).exec s).array (preloadWeight n bTile c t) := by
  rw [preload_exec hn bTile hc]
  refine ⟨fun i hi j hj => (if_pos ⟨hi, hj⟩).trans ?_, h.result, h.emitRow⟩
  simp only [preloadWeight, h.pe i hi j hj, h.pe (i - 1) (by omega) j hj]

/-- What both kinds of cycle do after their first loop. -/
theorem SameArray.rest {t : Array2} (h : SameArray n s.array t) (outside : Int → Int → PE) :
    SameArray n ((emitLoop n outside).exec ((forwardLoop n).exec ((macLoop n outside).exec s))).array
      (Sa.emit n { t with pe := forward (mac t.pe) }) := by
  rw [mac_exec, forward_exec]
  exact ((h.stage local_mac).stage local_forward).emit

theorem rest_keeps (s : LoopState) (outside : Int → Int → PE) :
    ((emitLoop n outside).exec ((forwardLoop n).exec ((macLoop n outside).exec s))).tileResult = s.tileResult := by
  have hemit : (emitLoop n outside).Keeps LoopState.tileResult := .forEach fun j _ => emitColumn_keeps (j : Int)
  rw [hemit, forward_exec, mac_exec]
  rfl

/-- **One event.** The loops of an event do what its stages do. -/
theorem SameRun.event (h : SameRun n s r) (hn : 0 < n) (he : e ∈ tileEvents n) :
    SameRun n ((eventLoop n aTile bTile outside e).exec s) (tileStep n aTile bTile (ghosts outside) r e) := by
  cases e with
  | preload c =>
    have hc := (lt_of_mem_tileEvents he).1 c rfl
    refine ⟨h.array.preload hn _ hc, ?_⟩
    have hsame : ((preloadLoop n bTile (outside c) c).exec s).tileResult = s.tileResult := by
      rw [preload_exec hn bTile hc]
      rfl
    exact hsame ▸ h.tileResult
  | propagate c =>
    have hfed := h.array.stage (local_inject (n := n) aTile c)
    have hexec : (injectLoop n aTile (outside c) c).exec s = _ := inject_exec aTile c s
    rw [← hexec] at hfed
    refine ⟨hfed.rest (outside c), ?_⟩
    have hsame : ((propagateLoop n aTile (outside c) c).exec s).tileResult = s.tileResult := by
      unfold propagateLoop
      simp only [Recorded.exec_bind, rest_keeps]
      rw [inject_exec]
      rfl
    exact hsame ▸ h.tileResult
  | flush c =>
    have hfed := h.array.stage (local_shift fun i => (outside c i (-1)).fwdIn)
    rw [← shift_exec] at hfed
    have hcycle := hfed.rest (outside c)
    have hkeep : ((emitLoop n (outside c)).exec ((forwardLoop n).exec ((macLoop n (outside c)).exec
        ((shiftLoop n (outside c)).exec s)))).tileResult = s.tileResult := by
      rw [rest_keeps, shift_exec]
      rfl
    unfold eventLoop flushLoop tileStep
    simp only [Recorded.exec_bind]
    generalize (emitLoop n (outside c)).exec _ = u at hcycle hkeep ⊢
    by_cases hc : c = n - 1
    · obtain ⟨harray, hcollect⟩ := collect_exec (n := n) u
      rw [if_pos hc, if_pos hc]
      refine ⟨harray.symm ▸ hcycle, fun i hi j hj => ?_⟩
      rw [hcollect i hi j hj]
      exact hcycle.result i hi j hj
    · rw [if_neg hc, if_neg hc]
      exact ⟨hcycle, fun i hi j hj => hkeep ▸ h.tileResult i hi j hj⟩
  | deposit => exact absurd rfl (lt_of_mem_tileEvents he).2

/-- **Every run.** -/
theorem SameRun.schedule (hn : 0 < n) {es : List TileEvent} (hes : ∀ e ∈ es, e ∈ tileEvents n)
    (h : SameRun n s r) : SameRun n ((scheduleLoop n aTile bTile outside es).exec s)
      (es.foldl (tileStep n aTile bTile (ghosts outside)) r) := by
  unfold scheduleLoop
  rw [Recorded.exec_forEach]
  induction es generalizing s r with
  | nil => exact h
  | cons e es ih =>
    exact ih (fun x hx => hes x (List.mem_cons_of_mem e hx)) (h.event hn (hes e List.mem_cons_self))

/-- What lies in front of the rows is read and never reaches a result. -/
theorem schedule_product (hn : 0 < n) (hlt : n < 2 ^ 16) (old : Nat → Nat → BitVec 16) {i j : Nat} (hi : i < n)
    (hj : j < n) : ((scheduleLoop n aTile bTile outside (tileEvents n)).exec ⟨.construct, old⟩).tileResult i j =
      entry n aTile bTile i j := by
  have hrun : SameRun n ⟨.construct, old⟩ ⟨.construct, old, []⟩ :=
    ⟨⟨fun _ _ _ _ => rfl, fun _ _ _ _ => rfl, fun _ _ => rfl⟩, fun _ _ _ _ => rfl⟩
  rw [(hrun.schedule hn (fun _ h => h)).tileResult i hi j hj]
  exact (computeTileRun_correct hn hlt).result i hi j hj

/-! ## Within bounds -/

/-- **Main result.** In every run of the events of a tile, every index is within bounds iff no event is a flush. -/
theorem schedule_inBounds_iff (aTile bTile : Nat → Nat → Byte) (outside : Nat → Int → Int → PE) (s : LoopState)
    (hn : 0 < n) {es : List TileEvent} (hes : ∀ e ∈ es, e ∈ tileEvents n) :
    (∀ x ∈ (scheduleLoop n aTile bTile outside es).touched s, x.Exists n) ↔ ∀ e ∈ es, ∀ c, e ≠ .flush c := by
  constructor
  · rintro h e he c rfl
    have hhit : (scheduleLoop n aTile bTile outside es).Hits (.pe (0 : Nat) (-1)) := .forEach he (flush_hits c hn)
    exact not_exists_front _ (h _ (hhit s))
  · intro h
    refine Recorded.Touches.forEach (fun e he => ?_) s
    cases e with
    | preload c => exact preload_exists ((lt_of_mem_tileEvents (hes _ he)).1 c rfl)
    | propagate c => exact propagate_exists c
    | flush c => exact absurd rfl (h _ he c)
    | deposit => exact .pure ()

theorem schedule_inBounds_iff_two : 0 < SASIZE ∧ ∀ x ∈ (scheduleLoop SASIZE (fun _ _ => 1) (fun _ _ => 1)
    (fun _ _ _ => {}) [.preload 0, .preload 1, .propagate 0, .propagate 1, .propagate 2]).touched
      ⟨.construct, fun _ _ => 0⟩, x.Exists SASIZE :=
  ⟨by decide, (schedule_inBounds_iff _ _ _ _ (by decide) (by decide)).mpr (by simp)⟩

/-- The schedule of every tile reads in front of the first row. -/
theorem schedule_reads_front : ¬ ∀ x ∈ (scheduleLoop SASIZE (fun _ _ => 1) (fun _ _ => 1) (fun _ _ _ => {})
    (tileEvents SASIZE)).touched ⟨.construct, fun _ _ => 0⟩, x.Exists SASIZE := by
  intro h
  have hhit : (scheduleLoop SASIZE (fun _ _ => 1) (fun _ _ => 1) (fun _ _ _ => {}) (tileEvents SASIZE)).Hits
      (.pe (0 : Nat) (-1)) := .forEach (y := .flush 0) (by decide) (flush_hits 0 (by decide))
  exact not_exists_front _ (h _ (hhit _))

end

end SocModel.Sa
