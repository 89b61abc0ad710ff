import SocModel.Sa.EndToEnd
import SocModel.Sa.Layout
import SocModel.Sa.Runs

/-!
# The indices of a multiplication

The registers bound the loops over the SRAM and the three matrices, and no function of the source compares them with
the sizes of the arrays: `initialized_transaction` checks the products of the sizes and the alignment of the bases.

* `accesses s a` : the elements an action accesses in a state, loop by loop as the source has them;
* `Bounded s` : the strides are rows and columns of the matrices, and the last words unpacked are in the SRAM;
* `Guarded.step` : what is queued and multiplied fits, as long as no register is written;
* `inBounds_iff` : after ENABLE every access of every run is in bounds iff the registers are bounded.
-/

namespace SocModel.Sa

open Lib Bus

/-! ## Accesses -/

/-- An element of one of the arrays. -/
inductive Access where
  | sram (word : Nat)
  | aMatrix (i j : Nat)
  | bMatrix (i j : Nat)
  | cMatrix (i j : Nat)
  deriving DecidableEq, Repr

namespace Access

def InBounds : Access → Prop
  | sram word => word < SA_SRAM_SIZE
  | aMatrix i j | bMatrix i j | cMatrix i j => i < MATRIX_SIZE ∧ j < MATRIX_SIZE

instance (x : Access) : Decidable x.InBounds := by
  cases x <;> unfold InBounds <;> infer_instance

end Access

/-- Two nested loops from 0. -/
def grid (rows cols : Nat) (body : Nat → Nat → List Access) : List Access :=
  (List.range rows).flatMap fun i => (List.range cols).flatMap fun j => body i j

/-- The loops over the whole matrices in `initialized_transaction`. -/
def clearAccesses : List Access := grid MATRIX_SIZE MATRIX_SIZE fun i j => [.aMatrix i j, .bMatrix i j, .cMatrix i j]

/-- The loops that unpack a matrix. -/
def unpackAccesses (element : Nat → Nat → Access) (addr : Word) (stride : Nat) : List Access :=
  grid stride stride fun i j => [.sram (wordIdx addr stride i j), element i j]

/-- The loops that print a matrix. -/
def printAccesses (element : Nat → Nat → Access) (stride : Nat) : List Access :=
  grid stride stride fun i j => [element i j]

/-- The loops over a block: `LoadATile`, `LoadBTile` and the deposit. -/
def blockAccesses (element : Nat → Nat → Access) (row col rows cols : Nat) : List Access :=
  grid rows cols fun i j => [element (row + i) (col + j)]

/-- `launchNextTile` with the queue `q`; `writeOutputs` when it is empty. -/
def launchAccesses (strideC : Nat) : List TileTask → List Access
  | [] => printAccesses .cMatrix strideC
  | t :: _ => blockAccesses .aMatrix t.rowBlk t.kBlk t.tileRows t.kCols ++
      blockAccesses .bMatrix t.kBlk t.colBlk t.kCols t.tileCols

/-- What happens when DONE reads 1. -/
def transferAccesses (s : State) : List Access :=
  match s.phase with
  | .readMatB =>
    unpackAccesses .aMatrix s.aAddr s.strideA.toNat ++ unpackAccesses .bMatrix s.bAddr s.strideB.toNat ++
      printAccesses .aMatrix s.strideA.toNat ++ printAccesses .bMatrix s.strideB.toNat ++
      launchAccesses s.strideC.toNat (s.tileQ ++ tiles s.strideA.toNat s.strideB.toNat)
  | _ => []

def responseAccesses (p : Burst ReadResp) (s : State) : List Access :=
  if p.srcIdx ≠ 1 then []
  else
    match p.payloads with
    | [r] => if r.a1.imm = pollMark ∧ r.data = 1 then transferAccesses s else []
    | _ => []

def depositAccesses (s : State) : List Access :=
  blockAccesses .cMatrix s.currentTile.rowBlk s.currentTile.colBlk s.currentTile.tileRows s.currentTile.tileCols ++
    launchAccesses s.strideC.toNat s.tileQ

/-- The words that `width` bytes from `addr` on are in, behind the range checks of the two handlers. -/
def handlerAccesses (addr : Word) (width : Nat) : List Access :=
  if addr.toNat < SA_MEMORY_BASE ∨ SA_MEMORY_BASE + memSize ≤ addr.toNat then []
  else if addr.toNat - SA_MEMORY_BASE + width ≤ memSize then
    (List.range width).map fun b => .sram ((addr.toNat - SA_MEMORY_BASE + b) / 4)
  else []

def eventAccesses : Event → List Access
  | .sramRead p => handlerAccesses p.addr p.op.readWidth
  | .sramWrite p => handlerAccesses p.addr p.op.writeWidth
  | .writeMmio p => if Register.ofAddr p.addr = some .enable ∧ p.data.getLsbD 0 = true then clearAccesses else []
  | _ => []

/-- The accesses of an action. -/
def accesses (s : State) : Act → List Access
  | .accept (.readResp p) => responseAccesses p s
  | .event k _ => (s.events[k]?.map eventAccesses).getD []
  | .tile k _ =>
    match s.chains[k]? with
    | some ⟨.deposit :: _, _⟩ => depositAccesses s
    | _ => []
  | _ => []

theorem forall_mem_grid {rows cols : Nat} {body : Nat → Nat → List Access} {P : Access → Prop} :
    (∀ x ∈ grid rows cols body, P x) ↔ ∀ i < rows, ∀ j < cols, ∀ x ∈ body i j, P x := by
  simp only [grid, List.mem_flatMap, List.mem_range]
  constructor
  · intro h i hi j hj x hx
    exact h x ⟨i, hi, j, hj, hx⟩
  · rintro h x ⟨i, hi, j, hj, hx⟩
    exact h i hi j hj x hx

/-! ## Bounded registers -/

/-- The strides are rows and columns of the matrices, and the words to unpack are in the SRAM. -/
structure Bounded (s : State) : Prop where
  strideA : s.strideA.toNat ≤ MATRIX_SIZE
  strideB : s.strideB.toNat ≤ MATRIX_SIZE
  strideC : s.strideC.toNat ≤ MATRIX_SIZE
  readA : Readable s.aAddr s.strideA.toNat
  readB : Readable s.bAddr s.strideB.toNat

/-- The last word is the largest one. -/
theorem wordIdx_le_last {addr : Word} {stride i j : Nat} (hi : i < stride) (hj : j < stride) :
    wordIdx addr stride i j ≤ wordIdx addr stride (stride - 1) (stride - 1) := by
  have hrow : i * rowWords stride ≤ (stride - 1) * rowWords stride := Nat.mul_le_mul_right _ (by omega)
  unfold wordIdx
  omega

theorem unpackAccesses_inBounds {element : Nat → Nat → Access} (he : ∀ i j, (element i j).InBounds ↔
    i < MATRIX_SIZE ∧ j < MATRIX_SIZE) (addr : Word) (stride : Nat) :
    (∀ x ∈ unpackAccesses element addr stride, x.InBounds) ↔ stride ≤ MATRIX_SIZE ∧ Readable addr stride := by
  unfold unpackAccesses
  simp only [forall_mem_grid, List.forall_mem_cons, List.not_mem_nil, false_implies, implies_true, and_true, he]
  constructor
  · intro h
    rcases Nat.eq_zero_or_pos stride with rfl | hpos
    · exact ⟨Nat.zero_le _, .inl rfl⟩
    · obtain ⟨hw, hi, -⟩ := h (stride - 1) (by omega) (stride - 1) (by omega)
      exact ⟨by omega, .inr hw⟩
  · rintro ⟨hs, hr⟩ i hi j hj
    refine ⟨lt_of_le_of_lt (wordIdx_le_last hi hj) (hr.resolve_left (by omega)), by omega, by omega⟩

theorem printAccesses_inBounds {element : Nat → Nat → Access} (he : ∀ i j, (element i j).InBounds ↔
    i < MATRIX_SIZE ∧ j < MATRIX_SIZE) (stride : Nat) :
    (∀ x ∈ printAccesses element stride, x.InBounds) ↔ stride ≤ MATRIX_SIZE := by
  unfold printAccesses
  simp only [forall_mem_grid, List.forall_mem_singleton, he]
  constructor
  · intro h
    rcases Nat.eq_zero_or_pos stride with rfl | hpos
    · exact Nat.zero_le _
    · have := (h (stride - 1) (by omega) (stride - 1) (by omega)).1
      omega
  · intro hs i hi j hj
    exact ⟨by omega, by omega⟩

theorem blockAccesses_inBounds {element : Nat → Nat → Access} (he : ∀ i j, (element i j).InBounds ↔
    i < MATRIX_SIZE ∧ j < MATRIX_SIZE) {row col rows cols : Nat} (hr : row + rows ≤ MATRIX_SIZE)
    (hc : col + cols ≤ MATRIX_SIZE) : ∀ x ∈ blockAccesses element row col rows cols, x.InBounds := by
  unfold blockAccesses
  simp only [forall_mem_grid, List.forall_mem_singleton, he]
  intro i hi j hj
  exact ⟨by omega, by omega⟩

theorem clearAccesses_inBounds : ∀ x ∈ clearAccesses, x.InBounds := by
  unfold clearAccesses
  rw [forall_mem_grid]
  intro i hi j hj
  simp [Access.InBounds, hi, hj]

theorem handlerAccesses_inBounds (addr : Word) (width : Nat) : ∀ x ∈ handlerAccesses addr width, x.InBounds := by
  unfold handlerAccesses
  split
  · exact List.forall_mem_nil _
  · split
    · intro x hx
      obtain ⟨b, hb, rfl⟩ := List.mem_map.mp hx
      have := List.mem_range.mp hb
      simp only [Access.InBounds]
      unfold memSize at *
      omega
    · exact List.forall_mem_nil _

/-- A task that fits is loaded within the matrices; without one the product is printed. -/
theorem launchAccesses_inBounds {strideC : Nat} (hc : strideC ≤ MATRIX_SIZE) {q : List TileTask}
    (hq : ∀ t ∈ q, t.Fits) : ∀ x ∈ launchAccesses strideC q, x.InBounds := by
  cases q with
  | nil => exact (printAccesses_inBounds (fun _ _ => Iff.rfl) strideC).mpr hc
  | cons t q =>
    have ht := hq t List.mem_cons_self
    intro x hx
    rcases List.mem_append.mp hx with hx | hx
    · exact blockAccesses_inBounds (fun _ _ => Iff.rfl) ht.rows ht.terms x hx
    · exact blockAccesses_inBounds (fun _ _ => Iff.rfl) ht.terms ht.cols x hx

/-! ## What a run keeps -/

/-- The registers that bound the loops. -/
def State.bounds (s : State) : Word × Word × Word × Word × Word := (s.aAddr, s.bAddr, s.strideA, s.strideB, s.strideC)

theorem Bounded.of_eq {s t : State} (h : Bounded s) (he : t.bounds = s.bounds) : Bounded t := by
  simp only [State.bounds, Prod.mk.injEq] at he
  obtain ⟨h1, h2, h3, h4, h5⟩ := he
  exact ⟨h3 ▸ h.strideA, h4 ▸ h.strideB, h5 ▸ h.strideC, h1 ▸ h3 ▸ h.readA, h2 ▸ h4 ▸ h.readB⟩

/-- The tiles that are queued, and the one that is multiplied, lie in the matrices. -/
structure Guarded (s : State) : Prop where
  bounded : Bounded s
  queue : ∀ t ∈ s.tileQ, t.Fits
  current : s.chains ≠ [] → s.currentTile.Fits

theorem Guarded.kept {s t : State} (h : Guarded s) (hb : t.bounds = s.bounds) (hq : t.tileQ = s.tileQ)
    (hc : t.chains = s.chains) (ht : t.currentTile = s.currentTile) : Guarded t :=
  ⟨h.bounded.of_eq hb, hq ▸ h.queue, hc ▸ ht ▸ h.current⟩

/-- A step beside the multiplication. -/
theorem Guarded.same {s t : State} (h : Guarded s) (hs : Same s t) (hb : t.bounds = s.bounds) : Guarded t := by
  have hq : t.tileQ = s.tileQ := hs.work.elim (congrArg Work.tileQ) (congrArg Work.tileQ)
  have hc : t.chains = s.chains := hs.work.elim (congrArg Work.chains) (congrArg Work.chains)
  have ht : t.currentTile = s.currentTile := hs.work.elim (congrArg Work.currentTile) (congrArg Work.currentTile)
  exact h.kept hb hq hc ht

theorem Guarded.handled {s t : State} (h : Guarded s) (hs : Handled s t) : Guarded t := by
  obtain ⟨sram, pending, reqQ, respQ, events, nextTid, rfl⟩ := hs
  exact h.kept rfl rfl rfl rfl

@[simp] theorem bounds_dmaWrite (addr data : Word) (s : State) : (dmaWrite addr data s).bounds = s.bounds := rfl

@[simp] theorem bounds_schedule (es : List Event) (s : State) : (s.schedule es).bounds = s.bounds := rfl

theorem bounds_programDma (src dst cfg : Word) (s : State) : (programDma src dst cfg s).bounds = s.bounds := by
  unfold programDma pokeDMAReady
  simp only [bounds_schedule, bounds_dmaWrite]

/-- The next tile leaves the queue. -/
theorem Guarded.launch {s t : State} (h : Guarded s) (ht : launchNextTile s = .ok t) : Guarded t := by
  rcases launchNextTile_cases ht with ⟨-, rfl⟩ | ⟨task, q, aTile, bTile, hq, rfl⟩
  · exact h.kept rfl rfl rfl rfl
  · have hfit := h.queue
    rw [hq] at hfit
    exact ⟨h.bounded.of_eq rfl, fun t ht => hfit t (List.mem_cons_of_mem _ ht), fun _ => hfit _ List.mem_cons_self⟩

/-- With bounded strides the tiles of the new multiplication fit. -/
theorem Guarded.append_tiles {s : State} (h : Guarded s) :
    ∀ t ∈ s.tileQ ++ tiles s.strideA.toNat s.strideB.toNat, t.Fits := by
  intro t ht
  rcases List.mem_append.mp ht with ht | ht
  · exact h.queue t ht
  · exact fits_of_mem_tiles h.bounded.strideA h.bounded.strideB ht

theorem Guarded.transferDone {s t : State} (h : Guarded s) (ht : transferDone s = .ok t) : Guarded t := by
  rcases transferDone_cases ht with ⟨-, rfl⟩ | ⟨-, aMatrix, bMatrix, -, -, hm⟩ | ⟨-, rfl⟩
  · have hg : Guarded { s with phase := .readMatB } := h.kept rfl rfl rfl rfl
    exact hg.same (same_programDma _ _ _ _) (bounds_programDma _ _ _ _)
  · refine Guarded.launch ?_ hm
    exact ⟨Bounded.of_eq h.bounded rfl, h.append_tiles, h.current⟩
  · exact h

theorem Guarded.handleReadResponse {p : Burst ReadResp} {s t : State} (h : Guarded s)
    (ht : handleReadResponse p s = .ok t) : Guarded t := by
  rcases handleReadResponse_cases ht with hd | rfl
  · exact h.transferDone hd
  · exact h.kept rfl rfl rfl rfl

/-- A call of a tile. -/
theorem Guarded.tile {s t : State} (h : Guarded s) (hc : s.chains ≠ []) {ghost : Nat → Valid8} {k : Nat}
    {rest : List TileEvent} {array : Array2} {e : TileEvent} (ht : runTile ghost k rest array s e = .ok t) :
    Guarded t := by
  cases e with
  | deposit =>
    unfold runTile deposit at ht
    dsimp only at ht
    split at ht
    · refine Guarded.launch ?_ ht
      exact ⟨Bounded.of_eq h.bounded rfl, h.queue, fun _ => h.current hc⟩
    · cases ht
  | _ =>
    obtain rfl := Except.ok.inj ht
    exact ⟨Bounded.of_eq h.bounded rfl, h.queue, fun _ => h.current hc⟩

/-- No write of a register is served. -/
def NoRegisterWrite (s : State) : Act → Prop
  | .event k _ => ∀ p, s.events[k]? ≠ some (.writeMmio p)
  | _ => True

/-- **One step.** -/
theorem Guarded.step {s t : State} {a : Act} (h : Guarded s) (hc : NoRegisterWrite s a) (hs : step s a = .next t) :
    Guarded t := by
  cases a with
  | trySend req resp =>
    obtain rfl := Outcome.next.inj hs
    exact h.kept rfl rfl rfl rfl
  | accept p =>
    have hs := Outcome.ofExcept_eq_next.mp hs
    cases p with
    | readReq p => exact h.handled (handled_acceptRead hs)
    | writeReq p => exact h.handled (handled_acceptWrite hs)
    | readResp p => exact h.handleReadResponse hs
    | writeResp p =>
      obtain rfl := Except.ok.inj hs
      exact h
  | event k recycled =>
    unfold Sa.step at hs
    cases he : s.events[k]? with
    | none =>
      simp only [he] at hs
      cases hs
    | some e =>
      simp only [he, Outcome.ofExcept_eq_next] at hs
      have hne (p : WriteReq) : e ≠ .writeMmio p := fun hp => hc p (he.trans (congrArg some hp))
      have hg : Guarded { s with events := s.events.eraseIdx k } := h.kept rfl rfl rfl rfl
      exact hg.handled (handled_runEvent hne hs)
  | tile k ghost =>
    unfold Sa.step at hs
    dsimp only at hs
    split at hs
    · next e rest array hk =>
      refine h.tile ?_ (Outcome.ofExcept_eq_next.mp hs)
      intro hnil
      rw [hnil] at hk
      cases hk
    · cases hs

/-! ## Bounded registers are enough -/

theorem Guarded.transferAccesses {s : State} (h : Guarded s) : ∀ x ∈ transferAccesses s, x.InBounds := by
  unfold Sa.transferAccesses
  split
  · have hb := h.bounded
    simp only [List.forall_mem_append]
    refine ⟨⟨⟨⟨?_, ?_⟩, ?_⟩, ?_⟩, launchAccesses_inBounds hb.strideC h.append_tiles⟩
    · exact (unpackAccesses_inBounds (fun _ _ => Iff.rfl) _ _).mpr ⟨hb.strideA, hb.readA⟩
    · exact (unpackAccesses_inBounds (fun _ _ => Iff.rfl) _ _).mpr ⟨hb.strideB, hb.readB⟩
    · exact (printAccesses_inBounds (fun _ _ => Iff.rfl) _).mpr hb.strideA
    · exact (printAccesses_inBounds (fun _ _ => Iff.rfl) _).mpr hb.strideB
  · exact List.forall_mem_nil _

theorem Guarded.accesses {s : State} (h : Guarded s) (a : Act) : ∀ x ∈ accesses s a, x.InBounds := by
  cases a with
  | trySend req resp => exact List.forall_mem_nil _
  | accept p =>
    cases p with
    | readResp p =>
      show ∀ x ∈ responseAccesses p s, x.InBounds
      unfold responseAccesses
      split
      · exact List.forall_mem_nil _
      · split
        · split
          · exact h.transferAccesses
          · exact List.forall_mem_nil _
        · exact List.forall_mem_nil _
    | _ => exact List.forall_mem_nil _
  | event k recycled =>
    show ∀ x ∈ (s.events[k]?.map eventAccesses).getD [], x.InBounds
    cases s.events[k]? with
    | none => exact List.forall_mem_nil _
    | some e =>
      simp only [Option.map_some, Option.getD_some]
      cases e with
      | sramRead p => exact handlerAccesses_inBounds _ _
      | sramWrite p => exact handlerAccesses_inBounds _ _
      | writeMmio p =>
        simp only [eventAccesses]
        split
        · exact clearAccesses_inBounds
        · exact List.forall_mem_nil _
      | _ => exact List.forall_mem_nil _
  | tile k ghost =>
    unfold Sa.accesses
    dsimp only
    split
    · next rest array hk =>
      have hne : s.chains ≠ [] := by
        intro hnil
        rw [hnil] at hk
        cases hk
      have hfit := h.current hne
      intro x hx
      rcases List.mem_append.mp hx with hx | hx
      · exact blockAccesses_inBounds (fun _ _ => Iff.rfl) hfit.rows hfit.cols x hx
      · exact launchAccesses_inBounds h.bounded.strideC h.queue x hx
    · exact List.forall_mem_nil _

theorem exists_unpack (sram : Store) {addr : Word} {stride : Nat} (hs : stride ≤ MATRIX_SIZE)
    (hr : Readable addr stride) (m : Nat → Nat → Byte) : ∃ m', unpack sram addr stride m = .ok m' := by
  unfold unpack
  split
  · exact ⟨m, rfl⟩
  · next hne =>
    have hlast := hr.resolve_left hne
    rw [if_neg (by omega)]
    exact ⟨_, rfl⟩

theorem exists_launch {s : State} (hq : ∀ t ∈ s.tileQ, t.Fits) : ∃ t, launchNextTile s = .ok t := by
  unfold launchNextTile
  cases hs : s.tileQ with
  | nil => exact ⟨_, rfl⟩
  | cons task q =>
    have hfit := hq task (hs ▸ List.mem_cons_self)
    have ha : loadATile s task = .ok _ := loadTile_of_le _ hfit.rows hfit.terms
    have hb : loadBTile s task = .ok _ := loadTile_of_le _ hfit.terms hfit.cols
    simp only [ha, hb]
    exact ⟨_, rfl⟩

/-- The index checks of the model let the loads pass. -/
theorem Guarded.exists_transferDone {s : State} (h : Guarded s) : ∃ t, Sa.transferDone s = .ok t := by
  unfold Sa.transferDone
  cases s.phase with
  | readMatB =>
    obtain ⟨aMatrix, ha⟩ := exists_unpack s.sram h.bounded.strideA h.bounded.readA s.aMatrix
    obtain ⟨bMatrix, hb⟩ := exists_unpack s.sram h.bounded.strideB h.bounded.readB s.bMatrix
    simp only [ha, hb]
    exact exists_launch h.append_tiles
  | _ => exact ⟨_, rfl⟩

/-- The index checks of the model let the deposit pass. -/
theorem Guarded.exists_deposit {s : State} (h : Guarded s) (hc : s.chains ≠ []) : ∃ t, deposit s = .ok t := by
  have hfit := h.current hc
  unfold deposit
  dsimp only
  rw [if_pos ⟨hfit.rows, hfit.cols⟩]
  exact exists_launch h.queue

/-! ## A run to the output -/

/-- The answer to a poll that ends a transfer. -/
def doneAnswer : Packet :=
  .readResp (constructMemReadRespPkt [{ tid := 0, instr := {}, op := .LW, data := 1, a1 := { imm := pollMark } }] .dma .sa 0)

theorem isAnswer_doneAnswer : IsAnswer true doneAnswer := ⟨_, 0, rfl, rfl, rfl⟩

theorem accesses_doneAnswer (s : State) : accesses s (.accept doneAnswer) = transferAccesses s := rfl

theorem step_doneAnswer (s : State) : step s (.accept doneAnswer) = .ofExcept (transferDone s) :=
  congrArg Outcome.ofExcept (accept_answer isAnswer_doneAnswer s)

/-- The calls of the tiles that are left. -/
def callsLeft (s : State) : Nat := 8 * s.tileQ.length + (s.chains.map (·.events.length)).sum

/-- A call before the deposit. -/
theorem runTile_chains {ghost : Nat → Valid8} {k : Nat} {e : TileEvent} {rest : List TileEvent} {array : Array2}
    {s t : State} (he : e ≠ .deposit) (h : runTile ghost k rest array s e = .ok t) :
    t.tileQ = s.tileQ ∧ ∃ array', t.chains = s.chains.set k ⟨rest, array'⟩ := by
  cases e with
  | deposit => exact absurd rfl he
  | _ =>
    obtain rfl := Except.ok.inj h
    exact ⟨rfl, _, rfl⟩

theorem drop_tileSchedule {p : Nat} (hp : p < 7) :
    ∃ e rest, tileSchedule.drop p = e :: rest ∧ e ≠ .deposit ∧ rest = tileSchedule.drop (p + 1) := by
  interval_cases p <;> exact ⟨_, _, rfl, by decide, rfl⟩

theorem length_drop_tileSchedule (p : Nat) : (tileSchedule.drop p).length = 8 - p := List.length_drop

/-- The one chain of a multiplication that is not over. -/
theorem Computing.chain {all : List TileTask} {w : Work} (h : Computing all w) (hc : w.chains ≠ []) :
    ∃ p array, p ≤ 7 ∧ w.chains = [⟨tileSchedule.drop p, array⟩] := by
  rcases h with ⟨ts, p, array, -, hin⟩ | ⟨-, -, hnil, -⟩
  · exact ⟨p, array, hin.pos, hin.chains⟩
  · exact absurd hnil hc

/-- Every call but the deposit of the last tile leaves calls to run, one fewer at least. -/
theorem callsLeft_lt {all : List TileTask} {ghost : Nat → Valid8} {p : Nat} {e : TileEvent} {rest : List TileEvent}
    {array : Array2} {s t : State} (hchain : s.chains = [⟨tileSchedule.drop p, array⟩])
    (he : tileSchedule.drop p = e :: rest) (hmore : p < 7 ∨ p = 7 ∧ s.tileQ ≠ [])
    (ht : runTile ghost 0 rest array s e = .ok t) (hcomp : Computing all t.work) :
    t.chains ≠ [] ∧ callsLeft t < callsLeft s := by
  have hl := length_drop_tileSchedule p
  rcases hmore with h7 | ⟨rfl, hq⟩
  · obtain ⟨e', rest', he', hne, hrest⟩ := drop_tileSchedule h7
    obtain ⟨rfl, rfl⟩ := List.cons.inj (he.symm.trans he')
    obtain ⟨htq, array', htc⟩ := runTile_chains hne ht
    rw [hchain] at htc
    have hl' := length_drop_tileSchedule (p + 1)
    refine ⟨by rw [htc]; exact List.cons_ne_nil _ _, ?_⟩
    unfold callsLeft
    rw [htq, htc, hchain]
    simp only [List.set_cons_zero, List.map_cons, List.map_nil, List.sum_cons, List.sum_nil, hrest, hl, hl']
    omega
  · obtain ⟨rfl, rfl⟩ : e = .deposit ∧ rest = [] := by
      obtain ⟨h1, h2⟩ := List.cons.inj he
      exact ⟨h1.symm, h2.symm⟩
    rcases runTile_eq_ok hchain rfl ht with ⟨hne, -⟩ | ⟨-, ⟨hnil, -⟩ | ⟨hcons, hct⟩⟩
    · exact absurd rfl hne
    · exact absurd hnil hq
    · obtain ⟨p', array', -, hchain'⟩ := hcomp.chain hct
      have hchain' : t.chains = [⟨tileSchedule.drop p', array'⟩] := hchain'
      have hl' := length_drop_tileSchedule p'
      refine ⟨hct, ?_⟩
      unfold callsLeft
      rw [hcons, hchain, hchain']
      simp only [List.length_cons, List.map_cons, List.map_nil, List.sum_cons, List.sum_nil, hl, hl']
      omega

/-- The calls run up to the deposit of the last tile. -/
theorem exists_last_deposit {all : List TileTask} {s : State} (h : Computing all s.work) (hc : s.chains ≠ []) :
    ∃ as u rest array, Reaches step s as u ∧ Along step NoRegisterWrite s as ∧ u.bounds = s.bounds ∧
      u.chains[0]? = some ⟨.deposit :: rest, array⟩ ∧ u.tileQ = [] := by
  induction hn : callsLeft s using Nat.strongRecOn generalizing s with
  | ind n ih =>
    obtain ⟨p, array, hp, hchain⟩ := h.chain hc
    have hchain : s.chains = [⟨tileSchedule.drop p, array⟩] := hchain
    by_cases hlast : p = 7 ∧ s.tileQ = []
    · obtain ⟨rfl, hq⟩ := hlast
      exact ⟨[], s, [], array, rfl, trivial, rfl, by rw [hchain]; rfl, hq⟩
    · obtain ⟨e, rest, he⟩ : ∃ e rest, tileSchedule.drop p = e :: rest :=
        List.exists_cons_of_ne_nil fun hnil => by
          have := length_drop_tileSchedule p
          simp only [hnil, List.length_nil] at this
          omega
      have hk : s.chains[0]? = some ⟨e :: rest, array⟩ := by rw [hchain, he]; rfl
      obtain ⟨t, ht, hm⟩ := h.tile hk fun _ => ⟨false, 0⟩
      have hmore : p < 7 ∨ p = 7 ∧ s.tileQ ≠ [] := by
        rcases Nat.lt_or_ge p 7 with h7 | h7
        · exact .inl h7
        · exact .inr ⟨by omega, fun hq => hlast ⟨by omega, hq⟩⟩
      obtain ⟨hct, hlt⟩ := callsLeft_lt hchain he hmore ht hm.computing
      obtain ⟨as, u, rest', array', hr, ha, hb, hd⟩ := ih (callsLeft t) (hn ▸ hlt) hm.computing hct rfl
      have hst : step s (.tile 0 fun _ => ⟨false, 0⟩) = .next t := by
        unfold Sa.step
        simp only [hk, ht, Outcome.ofExcept_ok]
      have hbt : t.bounds = s.bounds := (congrArg State.bounds hm.frame).trans rfl
      exact ⟨_ :: as, u, rest', array', reaches_cons.mpr ⟨t, hst, hr⟩, (along_cons_next hst).mpr ⟨trivial, ha⟩,
        hb.trans hbt, hd⟩

/-! ## Runs -/

/-- Nothing is queued or scheduled for a multiplication. -/
structure NoWork (s : State) : Prop where
  queue : s.tileQ = []
  chains : s.chains = []

/-- The writes `ws` of registers lead from `s` to `t`; none of them starts a run. -/
def Programs (s : State) (ws : List (Register × Word)) (t : State) : Prop :=
  (∀ w ∈ ws, ¬ (w.1 = .enable ∧ w.2.getLsbD 0 = true)) ∧ ws.foldlM (fun u w => writeRegister u w.2 w.1) s = .ok t

theorem Programs.noWork {s t : State} {ws : List (Register × Word)} (h : Programs s ws t) (hs : NoWork s) : NoWork t := by
  obtain ⟨hne, hw⟩ := h
  induction ws generalizing s with
  | nil =>
    obtain rfl := Except.ok.inj hw
    exact hs
  | cons w ws ih =>
    rw [List.foldlM_cons] at hw
    cases hu : writeRegister s w.2 w.1 with
    | error e =>
      rw [hu] at hw
      cases hw
    | ok u =>
      rw [hu] at hw
      have hsame := same_writeRegister (hne w List.mem_cons_self) hu
      refine ih ⟨?_, ?_⟩ (fun w' hw' => hne w' (List.mem_cons_of_mem _ hw')) hw
      · exact (hsame.work.elim (congrArg Work.tileQ) (congrArg Work.tileQ)).trans hs.queue
      · exact (hsame.work.elim (congrArg Work.chains) (congrArg Work.chains)).trans hs.chains

/-- What ENABLE leaves. -/
structure Started (s t : State) : Prop where
  bounds : t.bounds = s.bounds
  queue : t.tileQ = s.tileQ
  chains : t.chains = s.chains
  phase : t.phase = .readMatA
  undone : t.done = false
  zero : t.cMatrix = fun _ _ => 0

theorem started_of_enable {s t : State} {data : Word} (hd : data.getLsbD 0 = true)
    (h : writeRegister s data .enable = .ok t) : Started s t := by
  unfold writeRegister initializedTransaction at h
  rw [if_pos hd] at h
  dsimp only at h
  split at h
  · cases h
  · split at h
    · cases h
    · obtain rfl := Except.ok.inj h
      rw [askDMAtoWrite_matA, programDma_eq]
      exact ⟨rfl, rfl, rfl, rfl, rfl, rfl⟩

/-- Every access from the write of ENABLE on is in bounds, in every run that serves no write of a register. -/
def RunsInBounds (t : State) : Prop :=
  (∀ x ∈ clearAccesses, x.InBounds) ∧ ∀ as u a, Reaches step t as u → Along step NoRegisterWrite t as →
    ∀ x ∈ accesses u a, x.InBounds

theorem Started.guarded {s t : State} (h : Started s t) (hi : NoWork s) (hb : Bounded s) : Guarded t := by
  refine ⟨hb.of_eq h.bounds, ?_, fun hc => absurd (h.chains.trans hi.chains) hc⟩
  rw [h.queue, hi.queue]
  exact List.forall_mem_nil _

/-- After the answer to the first transfer. -/
structure Answered (s u : State) : Prop where
  bounds : u.bounds = s.bounds
  queue : u.tileQ = []
  chains : u.chains = []
  phase : u.phase = .readMatB
  undone : u.done = false
  zero : u.cMatrix = fun _ _ => 0

/-- The answer to the first transfer. -/
theorem Started.answer {s t : State} (h : Started s t) (hi : NoWork s) :
    ∃ u, step t (.accept doneAnswer) = .next u ∧ Answered s u := by
  rw [step_doneAnswer, transferDone, h.phase]
  refine ⟨_, rfl, ?_⟩
  rw [askDMAtoWrite_matB, programDma_eq]
  exact ⟨h.bounds, h.queue.trans hi.queue, h.chains.trans hi.chains, rfl, h.undone, h.zero⟩

/-- With bounded registers for the loads, the second answer starts the multiplication. -/
theorem Answered.answer {s u : State} (h : Answered s u) (ha : u.strideA.toNat ≤ MATRIX_SIZE)
    (hb : u.strideB.toNat ≤ MATRIX_SIZE) (hra : Readable u.aAddr u.strideA.toNat)
    (hrb : Readable u.bAddr u.strideB.toNat) (hne : tiles u.strideA.toNat u.strideB.toNat ≠ []) :
    ∃ v, step u (.accept doneAnswer) = .next v ∧ v.bounds = u.bounds ∧ v.chains ≠ [] ∧
      Computing (tiles u.strideA.toNat u.strideB.toNat) v.work := by
  obtain ⟨aMatrix, hma⟩ := exists_unpack u.sram ha hra u.aMatrix
  obtain ⟨bMatrix, hmb⟩ := exists_unpack u.sram hb hrb u.bMatrix
  obtain ⟨v, hv, hm⟩ := computeMatrix_starts (s := { u with aMatrix, bMatrix, phase := .compute }) h.queue h.undone
    h.chains (fun i j => congrFun (congrFun h.zero i) j) ha hb
  have hcall : transferDone u = .ok v := by
    simp only [transferDone, h.phase, hma, hmb]
    exact hv
  refine ⟨v, by rw [step_doneAnswer, hcall]; rfl, (congrArg State.bounds hm.frame).trans rfl, ?_, hm.computing⟩
  unfold computeMatrix at hv
  rcases launchNextTile_eq_ok hv with ⟨hnil, -⟩ | ⟨-, hc⟩
  · exact absurd (List.append_eq_nil_iff.mp hnil).2 hne
  · exact hc

/-- The loads bound two strides and two base addresses, the output of the last tile the third stride. -/
theorem RunsInBounds.bounded {s t : State} (h : RunsInBounds t) (hst : Started s t) (hi : NoWork s) : Bounded s := by
  obtain ⟨u, hu, hl⟩ := hst.answer hi
  have hload := h.2 _ u (.accept doneAnswer) (Reaches.single hu) ((along_cons_next hu).mpr ⟨trivial, trivial⟩)
  rw [accesses_doneAnswer, transferAccesses, hl.phase, hl.queue, List.nil_append] at hload
  simp only [List.forall_mem_append] at hload
  obtain ⟨⟨⟨⟨hA, hB⟩, -⟩, -⟩, hC⟩ := hload
  obtain ⟨ha, hra⟩ := (unpackAccesses_inBounds (fun _ _ => Iff.rfl) _ _).mp hA
  obtain ⟨hb, hrb⟩ := (unpackAccesses_inBounds (fun _ _ => Iff.rfl) _ _).mp hB
  have hc : u.strideC.toNat ≤ MATRIX_SIZE := by
    by_cases hne : tiles u.strideA.toNat u.strideB.toNat = []
    · rw [hne] at hC
      exact (printAccesses_inBounds (fun _ _ => Iff.rfl) _).mp hC
    · obtain ⟨v, hv, hbv, hcv, hcomp⟩ := hl.answer ha hb hra hrb hne
      obtain ⟨as, w, rest, array, hrw, haw, hbw, hkw, hqw⟩ := exists_last_deposit hcomp hcv
      have hout := h.2 _ w (.tile 0 fun _ => ⟨false, 0⟩) (reaches_cons.mpr ⟨u, hu, reaches_cons.mpr ⟨v, hv, hrw⟩⟩)
        ((along_cons_next hu).mpr ⟨trivial, (along_cons_next hv).mpr ⟨trivial, haw⟩⟩)
      have hdep : accesses w (.tile 0 fun _ => ⟨false, 0⟩) = depositAccesses w := by
        simp only [accesses, hkw]
      rw [hdep, depositAccesses, hqw, List.forall_mem_append] at hout
      have hstride : w.strideC = u.strideC := congrArg (·.2.2.2.2) (hbw.trans hbv)
      rw [← hstride]
      exact (printAccesses_inBounds (fun _ _ => Iff.rfl) _).mp hout.2
  exact Bounded.of_eq ⟨ha, hb, hc, hra, hrb⟩ hl.bounds.symm

theorem Started.runsInBounds {s t : State} (h : Started s t) (hi : NoWork s) (hb : Bounded s) : RunsInBounds t := by
  refine ⟨clearAccesses_inBounds, fun as u a hr hc => ?_⟩
  have hu : Guarded u := hr.inv (fun _ _ _ hv hca hvw => hv.step hca hvw) hc (h.guarded hi hb)
  exact hu.accesses a

/-- **Main result.** After any writes of registers and an ENABLE that passes the assertions, every access of every run
is in bounds if and only if the registers are bounded. -/
theorem inBounds_iff {s₀ s t : State} {ws : List (Register × Word)} {data : Word} (h₀ : NoWork s₀)
    (hs : Programs s₀ ws s) (hd : data.getLsbD 0 = true) (ht : writeRegister s data .enable = .ok t) :
    RunsInBounds t ↔ Bounded s := by
  have hi := hs.noWork h₀
  have hst := started_of_enable hd ht
  exact ⟨fun h => h.bounded hst hi, fun hb => hst.runsInBounds hi hb⟩

/-- All strides 4, all base addresses 0. -/
theorem inBounds_iff_four : ∃ s t, Programs init [(.stride, 0x00040404)] s ∧ writeRegister s 1 .enable = .ok t ∧
    Bounded s ∧ RunsInBounds t := by
  have hs : Programs init [(.stride, 0x00040404)] { init with strideA := 4, strideB := 4, strideC := 4 } :=
    ⟨by decide, rfl⟩
  have hb : Bounded { init with strideA := 4, strideB := 4, strideC := 4 } :=
    ⟨by decide, by decide, by decide, .inr (by decide), .inr (by decide)⟩
  obtain ⟨t, ht⟩ : ∃ t, writeRegister { init with strideA := 4, strideB := 4, strideC := 4 } 1 .enable = .ok t :=
    ⟨_, rfl⟩
  exact ⟨_, t, hs, ht, hb, (inBounds_iff ⟨rfl, rfl⟩ hs rfl ht).mpr hb⟩

/-- With all strides 65 the assertions hold, and row 0 of a matrix is unpacked up to column 64. -/
theorem not_inBounds_wide : ¬ ∀ (ws : List (Register × Word)) (s t : State) (data : Word), Programs init ws s →
    data.getLsbD 0 = true → writeRegister s data .enable = .ok t → RunsInBounds t := by
  intro h
  have hs : Programs init [(.stride, 0x00414141)] { init with strideA := 65, strideB := 65, strideC := 65 } :=
    ⟨by decide, rfl⟩
  obtain ⟨t, ht⟩ : ∃ t, writeRegister { init with strideA := 65, strideB := 65, strideC := 65 } 1 .enable = .ok t :=
    ⟨_, rfl⟩
  exact absurd ((h _ _ t 1 hs rfl ht).bounded (started_of_enable rfl ht) ⟨rfl, rfl⟩).strideA (by decide)

end SocModel.Sa
