import Mathlib.Data.List.Nodup
import SocModel.Sa.Product

/-!
# One run after another

A write of ENABLE clears the matrices and starts a run, whatever is still scheduled: the calls of a tile that is
being multiplied stay, and go on with the tiles of the queue. `Logged` runs the module with what happened since the
last ENABLE: the matrices loaded, the tiles queued, and the tiles deposited.

* `Handled`, `Same` : a step that serves others, or leaves phase, matrices and tiles alone;
* `Stage` : what holds before the matrices are loaded, and after;
* `done_of_enableAtRest` : if no ENABLE finds a tile being multiplied, STATUS reads 1 only with the product of the
  matrices loaded since the last ENABLE in `C_matrix`.
-/

namespace SocModel.Sa

open Lib Bus

/-! ## What happened since the last ENABLE -/

structure RunLog where
  loads : List ((Nat → Nat → Byte) × (Nat → Nat → Byte)) := []
  queued : List TileTask := []
  deposits : List TileTask := []

/-- A call that starts a run. -/
def Enables (e : Event) : Prop :=
  match e with
  | .writeMmio p => Register.ofAddr p.addr = some .enable ∧ p.data.getLsbD 0 = true
  | _ => False

instance (e : Event) : Decidable (Enables e) := by
  cases e <;> unfold Enables <;> infer_instance

structure Logged where
  sa : State
  log : RunLog

namespace Logged

def start : Logged := ⟨init, {}⟩

/-- The log of a step from `s` to `t`. -/
def record (s t : State) (log : RunLog) : Act → RunLog
  | .event k _ => if ∃ e ∈ s.events[k]?, Enables e then {} else log
  | .accept _ =>
    if s.phase = .readMatB ∧ t.phase = .compute then
      { log with
        loads := log.loads ++ [(t.aMatrix, t.bMatrix)]
        queued := log.queued ++ tiles s.strideA.toNat s.strideB.toNat }
    else log
  | .tile k _ =>
    match s.chains[k]? with
    | some ⟨.deposit :: _, _⟩ => { log with deposits := log.deposits ++ [s.currentTile] }
    | _ => log
  | .trySend _ _ => log

def step (s : Logged) (a : Act) : Outcome Fault Logged :=
  (Sa.step s.sa a).bind fun t => .next ⟨t, record s.sa t s.log a⟩

end Logged

/-- Nothing is queued or scheduled for a multiplication, and `C_matrix` is the product of the matrices loaded since the
last ENABLE, each tile of which was deposited once. -/
structure Finished (t : Logged) : Prop where
  queue : t.sa.tileQ = []
  chains : t.sa.chains = []
  loads : t.log.loads = [(t.sa.aMatrix, t.sa.bMatrix)]
  product : ∀ i j, t.sa.cMatrix i j =
    BitVec.ofNat 16 (∑ k ∈ Finset.range MATRIX_SIZE, (t.sa.aMatrix i k).toNat * (t.sa.bMatrix k j).toNat)
  deposits : t.log.deposits = t.log.queued
  once : t.log.deposits.Nodup

/-- ENABLE finds no tile that is being multiplied. -/
def EnableAtRest (t : Logged) : Act → Prop
  | .event k _ => (∃ e ∈ t.sa.events[k]?, Enables e) → t.sa.chains = []
  | _ => True

instance (t : Logged) (a : Act) : Decidable (EnableAtRest t a) := by
  cases a <;> unfold EnableAtRest <;> infer_instance

/-! ## Steps that leave a multiplication alone -/

/-- Phase, matrices and tiles are the same, STATUS may have been cleared. -/
structure Same (s t : State) : Prop where
  phase : t.phase = s.phase
  work : t.work = s.work ∨ t.work = { s.work with done := false }

theorem Same.of_eq {s t : State} (hp : t.phase = s.phase) (hw : t.work = s.work) : Same s t := ⟨hp, .inl hw⟩

theorem Same.refl (s : State) : Same s s := .of_eq rfl rfl

@[simp] theorem phase_dmaWrite (addr data : Word) (s : State) : (dmaWrite addr data s).phase = s.phase := rfl

@[simp] theorem work_dmaWrite (addr data : Word) (s : State) : (dmaWrite addr data s).work = s.work := rfl

@[simp] theorem phase_schedule (es : List Event) (s : State) : (s.schedule es).phase = s.phase := rfl

@[simp] theorem work_schedule (es : List Event) (s : State) : (s.schedule es).work = s.work := rfl

/-- Programming the DMA. -/
theorem same_programDma (src dst cfg : Word) (s : State) : Same s (programDma src dst cfg s) := by
  unfold programDma pokeDMAReady
  refine .of_eq ?_ ?_
  · simp only [phase_schedule, phase_dmaWrite]
  · simp only [work_schedule, work_dmaWrite]

/-- The requests of others were served: SRAM, trackers, queues and scheduled calls may have changed. -/
def Handled (s t : State) : Prop :=
  ∃ sram pending reqQ respQ events nextTid, t = { s with sram, pending, reqQ, respQ, events, nextTid }

theorem Handled.same {s t : State} (h : Handled s t) : Same s t := by
  obtain ⟨sram, pending, reqQ, respQ, events, nextTid, rfl⟩ := h
  exact .of_eq rfl rfl

/-- The calls for the beats are scheduled. -/
theorem handled_acceptRead {p : Burst ReadReq} {s t : State} (h : acceptRead p s = .ok t) : Handled s t := by
  unfold acceptRead at h
  split at h
  · cases h
  · split at h
    · cases h
    · split at h
      · exact ⟨_, _, _, _, _, _, (Except.ok.inj h).symm⟩
      · split at h
        · exact ⟨_, _, _, _, _, _, (Except.ok.inj h).symm⟩
        · cases h

theorem handled_acceptWrite {p : Burst WriteReq} {s t : State} (h : acceptWrite p s = .ok t) : Handled s t := by
  unfold acceptWrite at h
  split at h
  · cases h
  · split at h
    · cases h
    · split at h
      · exact ⟨_, _, _, _, _, _, (Except.ok.inj h).symm⟩
      · split at h
        · exact ⟨_, _, _, _, _, _, (Except.ok.inj h).symm⟩
        · cases h

theorem handled_collect (s : State) (sram : Store) (tid : Nat) (tk : BurstTracker) (beats : Nat) (resp : Packet) :
    Handled s ({ s with sram }.collect tid tk beats resp) := by
  unfold State.collect
  split <;> exact ⟨_, _, _, _, _, _, rfl⟩

/-- A scheduled call other than a write of a register. -/
theorem handled_runEvent {recycled : Nat} {s t : State} {e : Event} (hne : ∀ p, e ≠ .writeMmio p)
    (h : runEvent recycled s e = .ok t) : Handled s t := by
  cases e with
  | sramRead p =>
    have h : sramReadReqHandler p s = .ok t := h
    unfold sramReadReqHandler at h
    cases hr : sramRead s.sram p.op p.addr with
    | error e =>
      rw [hr] at h
      cases h
    | ok ret =>
      rw [hr] at h
      obtain rfl := Except.ok.inj h
      exact handled_collect s s.sram _ _ _ _
  | sramWrite p =>
    have h : sramWriteReqHandler p s = .ok t := h
    unfold sramWriteReqHandler at h
    cases hr : sramWrite s.sram p.op p.addr p.data with
    | error e =>
      rw [hr] at h
      cases h
    | ok sram =>
      rw [hr] at h
      obtain rfl := Except.ok.inj h
      exact handled_collect s sram _ _ _ _
  | readMmio p =>
    have h : readMmio p recycled s = .ok t := h
    unfold readMmio at h
    cases hr : Register.ofAddr p.addr with
    | none =>
      rw [hr] at h
      cases h
    | some r =>
      rw [hr] at h
      cases hd : readRegister s r with
      | error e =>
        simp only [hd, bind, Except.bind] at h
        cases h
      | ok data =>
        simp only [hd, bind, Except.bind] at h
        exact ⟨_, _, _, _, _, _, (Except.ok.inj h).symm⟩
  | writeMmio p => exact absurd rfl (hne p)
  | poll => exact ⟨_, _, _, _, _, _, (Except.ok.inj h).symm⟩

theorem same_writeRegister {s t : State} {data : Word} {r : Register} (hne : ¬ (r = .enable ∧ data.getLsbD 0 = true))
    (h : writeRegister s data r = .ok t) : Same s t := by
  unfold writeRegister at h
  split at h
  · rw [if_neg fun hd => hne ⟨rfl, hd⟩] at h
    obtain rfl := Except.ok.inj h
    exact .refl s
  · obtain rfl := Except.ok.inj h
    exact ⟨rfl, .inr rfl⟩
  all_goals
    obtain rfl := Except.ok.inj h
    exact .of_eq rfl rfl

/-- A write of a register, then its response. -/
theorem writeMmio_eq_ok {p : WriteReq} {recycled : Nat} {s t : State} (h : writeMmio p recycled s = .ok t) :
    ∃ r u, Register.ofAddr p.addr = some r ∧ writeRegister s p.data r = .ok u ∧ ∃ q, t = u.respond q := by
  unfold writeMmio at h
  cases hr : Register.ofAddr p.addr with
  | none =>
    rw [hr] at h
    cases h
  | some r =>
    rw [hr] at h
    cases hu : writeRegister s p.data r with
    | error e =>
      simp only [hu, bind, Except.bind] at h
      cases h
    | ok u =>
      simp only [hu, bind, Except.bind] at h
      exact ⟨r, u, rfl, hu, _, (Except.ok.inj h).symm⟩

theorem same_writeMmio {p : WriteReq} {recycled : Nat} {s t : State} (hne : ¬ Enables (.writeMmio p))
    (h : writeMmio p recycled s = .ok t) : Same s t := by
  obtain ⟨r, u, hr, hu, q, rfl⟩ := writeMmio_eq_ok h
  obtain ⟨hp, hw⟩ := same_writeRegister (fun hc => hne ⟨by rw [hr, hc.1], hc.2⟩) hu
  exact ⟨hp, hw⟩

/-- A scheduled call that starts no run. -/
theorem same_runEvent {recycled : Nat} {s t : State} {e : Event} (hne : ¬ Enables e)
    (h : runEvent recycled s e = .ok t) : Same s t := by
  cases e with
  | writeMmio p => exact same_writeMmio hne h
  | _ =>
    refine (handled_runEvent ?_ h).same
    intro p hp
    cases hp

/-! ## The tiles of a run -/

theorem nodup_starts {n : Nat} (hn : 0 < n) (s : Nat) : (starts n s).Nodup := by
  refine List.Nodup.map_on ?_ List.nodup_range
  intro x _ y _ h
  exact Nat.eq_of_mul_eq_mul_right hn h

theorem nodup_blockStarts (s : Nat) : (blockStarts s).Nodup := nodup_starts (by decide) s

/-- No tile is queued twice. -/
theorem nodup_tiles (strideA strideB : Nat) : (tiles strideA strideB).Nodup := by
  unfold tiles
  refine List.nodup_flatMap.mpr ⟨fun r _ => List.nodup_flatMap.mpr ⟨fun c _ => ?_, ?_⟩, ?_⟩
  · refine List.Nodup.map ?_ (nodup_blockStarts strideB)
    intro k k' h
    exact (TileTask.mk.inj h).2.2.2.2.1
  · refine (nodup_blockStarts strideB).imp ?_
    intro c c' hne t ht ht'
    obtain ⟨k, -, rfl⟩ := List.mem_map.mp ht
    obtain ⟨k', -, h⟩ := List.mem_map.mp ht'
    exact hne (TileTask.mk.inj h).2.1.symm
  · refine (nodup_blockStarts strideA).imp ?_
    intro r r' hne t ht ht'
    obtain ⟨c, -, hc⟩ := List.mem_flatMap.mp ht
    obtain ⟨k, -, rfl⟩ := List.mem_map.mp hc
    obtain ⟨c', -, hc'⟩ := List.mem_flatMap.mp ht'
    obtain ⟨k', -, h⟩ := List.mem_map.mp hc'
    exact hne (TileTask.mk.inj h).1.symm

/-- Unpacked elements lie in the first `stride` rows and columns. -/
theorem unpack_eq_ok {sram : Store} {addr : Word} {stride : Nat} {m a : Nat → Nat → Byte}
    (h : unpack sram addr stride m = .ok a) :
    stride ≤ MATRIX_SIZE ∧ ∀ i j, ¬ (i < stride ∧ j < stride) → a i j = m i j := by
  unfold unpack at h
  split at h
  · obtain rfl := Except.ok.inj h
    exact ⟨by omega, fun _ _ _ => rfl⟩
  · split at h
    · cases h
    · obtain rfl := Except.ok.inj h
      exact ⟨by omega, fun i j hij => if_neg hij⟩

/-- What the next tile changes, or nothing is left. -/
theorem launchNextTile_eq_ok {s t : State} (h : launchNextTile s = .ok t) :
    (s.tileQ = [] ∧ t.tileQ = [] ∧ t.chains = s.chains) ∨
      (s.tileQ = t.currentTile :: t.tileQ ∧ t.chains ≠ []) := by
  rcases launchNextTile_cases h with ⟨hq, rfl⟩ | ⟨task, q, aTile, bTile, hq, rfl⟩
  · exact .inl ⟨hq, hq, rfl⟩
  · exact .inr ⟨hq, by simp [computeTile]⟩

/-! ## The invariant -/

/-- No matrix is loaded, nothing is queued or scheduled for a multiplication. -/
structure Waiting (w : Work) (log : RunLog) : Prop where
  undone : w.done = false
  queue : w.tileQ = []
  chains : w.chains = []
  aMatrix : w.aMatrix = fun _ _ => 0
  bMatrix : w.bMatrix = fun _ _ => 0
  cMatrix : w.cMatrix = fun _ _ => 0
  log : log = {}

/-- The elements outside of the loaded rows and columns are zero. -/
structure Loads (w : Work) (strideA strideB : Nat) : Prop where
  le : strideB ≤ MATRIX_SIZE
  a : ∀ i k, strideA ≤ i → w.aMatrix i k = 0
  b : ∀ k j, strideB ≤ k ∨ strideB ≤ j → w.bMatrix k j = 0

/-- The matrices are loaded; their tiles are deposited, being multiplied, or queued. -/
structure Underway (w : Work) (log : RunLog) : Prop where
  loads : log.loads = [(w.aMatrix, w.bMatrix)]
  tiles : ∃ strideA strideB, log.queued = tiles strideA strideB ∧ Loads w strideA strideB
  progress : Computing log.queued w ∨ (w.tileQ = [] ∧ w.chains = [] ∧ Deposited log.queued w)
  busy : w.chains ≠ [] → log.deposits ++ w.currentTile :: w.tileQ = log.queued
  idle : w.chains = [] → log.deposits = log.queued

/-- Before and after the matrices are loaded. -/
def Stage (phase : Phase) (w : Work) (log : RunLog) : Prop :=
  if phase = .compute then Underway w log else Waiting w log

def Logged.Inv (t : Logged) : Prop := Stage t.sa.phase t.sa.work t.log

theorem Waiting.clear {w : Work} {log : RunLog} (h : Waiting w log) : Waiting { w with done := false } log :=
  ⟨rfl, h.queue, h.chains, h.aMatrix, h.bMatrix, h.cMatrix, h.log⟩

theorem InTile.clear {ts : List TileTask} {p : Nat} {array : Array2} {w : Work} (h : InTile ts p array w) :
    InTile ts p array { w with done := false } :=
  ⟨h.pos, rfl, h.chains, h.deposited, h.fits, h.aTile, h.bTile, h.preloading, h.waving, h.emitted⟩

theorem Underway.clear {w : Work} {log : RunLog} (h : Underway w log) :
    Underway { w with done := false } log := by
  obtain ⟨strideA, strideB, hq, hl⟩ := h.tiles
  refine ⟨h.loads, ⟨strideA, strideB, hq, hl.le, hl.a, hl.b⟩, ?_, h.busy, h.idle⟩
  rcases h.progress with (⟨ts, p, array, hall, hin⟩ | ⟨-, hfin⟩) | hfin
  · exact .inl (.inl ⟨ts, p, array, hall, hin.clear⟩)
  · exact .inr hfin
  · exact .inr hfin

/-- STATUS may be cleared at any time. -/
theorem Stage.same {s t : State} {log : RunLog} (h : Stage s.phase s.work log) (hs : Same s t) :
    Stage t.phase t.work log := by
  rw [hs.phase]
  rcases hs.work with hw | hw <;> rw [hw]
  · exact h
  · unfold Stage at *
    split at h
    · next hp =>
      rw [if_pos hp]
      exact h.clear
    · next hp =>
      rw [if_neg hp]
      exact h.clear

/-- A multiplication in which nothing is scheduled has deposited all tiles. -/
theorem Underway.deposited {w : Work} {log : RunLog} (h : Underway w log) (hc : w.chains = []) :
    w.tileQ = [] ∧ Deposited log.queued w := by
  rcases h.progress with (⟨ts, p, array, -, hin⟩ | ⟨-, hq, -, hd⟩) | ⟨hq, -, hd⟩
  · have hne := hin.chains
    rw [hc] at hne
    cases hne
  · exact ⟨hq, hd⟩
  · exact ⟨hq, hd⟩

theorem Underway.idle_of_done {w : Work} {log : RunLog} (h : Underway w log) (hd : w.done = true) :
    w.chains = [] := by
  rcases h.progress with (⟨ts, p, array, -, hin⟩ | ⟨-, -, hc, -⟩) | ⟨-, hc, -⟩
  · have hu := hin.undone
    rw [hd] at hu
    cases hu
  · exact hc
  · exact hc

/-- The sums over `strideB` terms are those over all. -/
theorem Loads.accumulated {w : Work} {strideA strideB : Nat} (h : Loads w strideA strideB) (i j : Nat) :
    accumulated w.aMatrix w.bMatrix (Sa.tiles strideA strideB) i j =
      ∑ k ∈ Finset.range MATRIX_SIZE, (w.aMatrix i k).toNat * (w.bMatrix k j).toNat := by
  rw [accumulated_tiles]
  split
  · next hij =>
    refine Finset.sum_subset (Finset.range_mono h.le) fun k _ hk => ?_
    rw [h.b k j (.inl (by simpa using hk))]
    rfl
  · next hij =>
    refine (Finset.sum_eq_zero fun k _ => ?_).symm
    rcases Nat.lt_or_ge i strideA with hi | hi
    · rw [h.b k j (.inr (by omega))]
      rfl
    · rw [h.a i k hi]
      exact Nat.zero_mul _

theorem Logged.Inv.finished {t : Logged} (h : t.Inv) (hd : t.sa.done = true) : Finished t := by
  unfold Logged.Inv Stage at h
  split at h
  · have hc := h.idle_of_done hd
    obtain ⟨hq, hdep⟩ := h.deposited hc
    obtain ⟨strideA, strideB, htiles, hl⟩ := h.tiles
    refine ⟨hq, hc, h.loads, fun i j => ?_, h.idle hc, ?_⟩
    · rw [show t.sa.cMatrix i j = _ from hdep i j, htiles, hl.accumulated]
      rfl
    · rw [h.idle hc, htiles]
      exact nodup_tiles _ _
  · have hu : t.sa.done = false := h.undone
    rw [hd] at hu
    cases hu

/-! ## The steps of a run -/

/-- The answer that ends the second transfer loads the matrices and queues their tiles. -/
theorem Waiting.load {s t : State} {log : RunLog} (h : Waiting s.work log) {a b : Nat → Nat → Byte}
    (ha : unpack s.sram s.aAddr s.strideA.toNat s.aMatrix = .ok a)
    (hb : unpack s.sram s.bAddr s.strideB.toNat s.bMatrix = .ok b)
    (ht : computeMatrix { s with aMatrix := a, bMatrix := b, phase := .compute } = .ok t) :
    t.phase = .compute ∧ Underway t.work { log with
      loads := log.loads ++ [(t.aMatrix, t.bMatrix)]
      queued := log.queued ++ tiles s.strideA.toNat s.strideB.toNat } := by
  obtain ⟨hua, hza⟩ := unpack_eq_ok ha
  obtain ⟨hub, hzb⟩ := unpack_eq_ok hb
  have ham : s.aMatrix = fun _ _ => 0 := h.aMatrix
  have hbm : s.bMatrix = fun _ _ => 0 := h.bMatrix
  have hq : s.tileQ = [] := h.queue
  obtain ⟨t', ht', hm⟩ := computeMatrix_starts (s := { s with aMatrix := a, bMatrix := b, phase := .compute }) h.queue
    h.undone h.chains (fun i j => congrFun (congrFun h.cMatrix i) j) hua hub
  obtain rfl : t' = t := Except.ok.inj (ht'.symm.trans ht)
  have hphase : t'.phase = .compute := by
    rw [hm.frame]
    rfl
  obtain rfl := h.log
  have hlaunch := launchNextTile_eq_ok ht
  simp only [hq, List.nil_append] at hlaunch
  refine ⟨hphase, rfl, ⟨s.strideA.toNat, s.strideB.toNat, rfl, hub, ?_, ?_⟩, .inl hm.computing, ?_, ?_⟩
  · intro i k hi
    have hz := hza i k (by omega)
    rw [ham] at hz
    exact (congrFun (congrFun hm.aMatrix i) k).trans hz
  · intro k j hkj
    have hz := hzb k j (by omega)
    rw [hbm] at hz
    exact (congrFun (congrFun hm.bMatrix k) j).trans hz
  · intro hc
    rcases hlaunch with ⟨-, -, hc'⟩ | ⟨htiles, -⟩
    · exact absurd (hc'.trans h.chains) hc
    · exact htiles.symm
  · intro hc
    rcases hlaunch with ⟨htiles, -⟩ | ⟨-, hc'⟩
    · exact htiles.symm
    · exact absurd hc hc'

theorem Waiting.stage {w : Work} {log : RunLog} {ph : Phase} (h : Waiting w log) (hp : ph ≠ .compute) :
    Stage ph w log := by
  unfold Stage
  rw [if_neg hp]
  exact h

theorem Stage.waiting {w : Work} {log : RunLog} {ph : Phase} (h : Stage ph w log) (hp : ph ≠ .compute) :
    Waiting w log := by
  unfold Stage at h
  rwa [if_neg hp] at h

theorem Underway.stage {w : Work} {log : RunLog} {ph : Phase} (h : Underway w log) (hp : ph = .compute) :
    Stage ph w log := by
  unfold Stage
  rw [if_pos hp]
  exact h

/-- The log of a packet, as long as no matrix is loaded. -/
theorem record_accept_of_ne {s t : State} {log : RunLog} (p : Packet)
    (h : ¬ (s.phase = .readMatB ∧ t.phase = .compute)) : Logged.record s t log (.accept p) = log := by
  rw [Logged.record, if_neg h]

theorem Stage.transferDone {p : Packet} {s t : State} {log : RunLog} (h : Stage s.phase s.work log)
    (ht : transferDone s = .ok t) : Stage t.phase t.work (Logged.record s t log (.accept p)) := by
  rcases transferDone_cases ht with ⟨hp, rfl⟩ | ⟨hp, aMatrix, bMatrix, ha, hb, hm⟩ | ⟨hp, rfl⟩
  · have hw := h.waiting (by rw [hp]; decide)
    have hs : Same { s with phase := .readMatB } (askDMAtoWrite_matB { s with phase := .readMatB }) :=
      same_programDma _ _ _ _
    rw [record_accept_of_ne p (by rw [hp]; rintro ⟨hc, -⟩; cases hc)]
    have hb : Stage .readMatB s.work log := hw.stage (by decide)
    exact Stage.same (s := { s with phase := .readMatB }) hb hs
  · have hw := h.waiting (by rw [hp]; decide)
    obtain ⟨hc, hm⟩ := hw.load ha hb hm
    rw [Logged.record, if_pos ⟨hp, hc⟩]
    exact hm.stage hc
  · rw [record_accept_of_ne p (by rw [hp]; rintro ⟨hc, -⟩; cases hc)]
    exact h

/-- An answer of the DMA. -/
theorem Stage.handleReadResponse {p : Burst ReadResp} {s t : State} {log : RunLog} (h : Stage s.phase s.work log)
    (ht : handleReadResponse p s = .ok t) : Stage t.phase t.work (Logged.record s t log (.accept (.readResp p))) := by
  rcases handleReadResponse_cases ht with hd | rfl
  · exact h.transferDone hd
  · have hs : Same s (pokeDMAReady s) := .of_eq rfl rfl
    rw [record_accept_of_ne _ (by rw [hs.phase]; rintro ⟨hb, hc⟩; rw [hb] at hc; cases hc)]
    exact h.same hs

/-- Other packets. -/
theorem Stage.accept {p : Packet} {s t : State} {log : RunLog} (h : Stage s.phase s.work log)
    (ht : accept s p = .ok t) : Stage t.phase t.work (Logged.record s t log (.accept p)) := by
  have hquiet (hs : Same s t) : Stage t.phase t.work (Logged.record s t log (.accept p)) := by
    rw [record_accept_of_ne p (by rintro ⟨hb, hc⟩; rw [hs.phase, hb] at hc; cases hc)]
    exact h.same hs
  cases p with
  | readReq p => exact hquiet (handled_acceptRead ht).same
  | writeReq p => exact hquiet (handled_acceptWrite ht).same
  | readResp p => exact h.handleReadResponse ht
  | writeResp p =>
    obtain rfl := Except.ok.inj ht
    exact hquiet (.refl s)

/-- ENABLE, with nothing scheduled for a multiplication. -/
theorem Stage.enable {p : WriteReq} {recycled : Nat} {s t : State} {log : RunLog} (h : Stage s.phase s.work log)
    (hc : s.chains = []) (he : Enables (.writeMmio p)) (ht : writeMmio p recycled s = .ok t) :
    Stage t.phase t.work {} := by
  have hq : s.tileQ = [] := by
    unfold Stage at h
    split at h
    · exact (h.deposited hc).1
    · exact h.queue
  obtain ⟨r, u, hr, hu, q, rfl⟩ := writeMmio_eq_ok ht
  obtain rfl : r = .enable := Option.some.inj (hr.symm.trans he.1)
  unfold writeRegister at hu
  rw [if_pos he.2] at hu
  unfold initializedTransaction at hu
  dsimp only at hu
  split at hu
  · cases hu
  · split at hu
    · cases hu
    · obtain rfl := Except.ok.inj hu
      have hw : Waiting (State.work (State.respond (askDMAtoWrite_matA { s with
          done := false, enabled := true, phase := .readMatA, aMatrix := fun _ _ => 0, bMatrix := fun _ _ => 0,
          cMatrix := fun _ _ => 0 }) q)) {} :=
        ⟨rfl, hq, hc, rfl, rfl, rfl, rfl⟩
      exact hw

/-- What a call of a tile leaves alone, and the deposit. -/
theorem runTile_eq_ok {ghost : Nat → Valid8} {k : Nat} {e : TileEvent} {rest : List TileEvent} {array : Array2}
    {s t : State} {c : Chain} (hc : s.chains = [c]) (hk : k = 0) (h : runTile ghost k rest array s e = .ok t) :
    (e ≠ .deposit ∧ t.currentTile = s.currentTile ∧ t.tileQ = s.tileQ ∧ t.chains ≠ []) ∨
      (e = .deposit ∧ ((s.tileQ = [] ∧ t.tileQ = [] ∧ t.chains = []) ∨
        (s.tileQ = t.currentTile :: t.tileQ ∧ t.chains ≠ []))) := by
  subst hk
  have hset (d : Chain) : s.chains.set 0 d ≠ [] := by
    rw [hc]
    exact List.cons_ne_nil _ _
  cases e with
  | preload c =>
    obtain rfl := Except.ok.inj h
    exact .inl ⟨by simp, rfl, rfl, hset _⟩
  | propagate c =>
    obtain rfl := Except.ok.inj h
    exact .inl ⟨by simp, rfl, rfl, hset _⟩
  | flush c =>
    obtain rfl := Except.ok.inj h
    exact .inl ⟨by simp, rfl, rfl, hset _⟩
  | deposit =>
    unfold runTile deposit at h
    dsimp only at h
    split at h
    · have herase : s.chains.eraseIdx 0 = [] := by
        rw [hc]
        rfl
      rcases launchNextTile_eq_ok h with ⟨hq, hq', hc'⟩ | hq
      · exact .inr ⟨rfl, .inl ⟨hq, hq', hc'.trans herase⟩⟩
      · exact .inr ⟨rfl, .inr hq⟩
    · cases h

/-- The next call of the tile. -/
theorem Stage.tile {s t : State} {log : RunLog} (h : Stage s.phase s.work log) {k : Nat} {e : TileEvent}
    {rest : List TileEvent} {array : Array2} (hk : s.chains[k]? = some ⟨e :: rest, array⟩) (ghost : Nat → Valid8)
    (ht : runTile ghost k rest array s e = .ok t) : Stage t.phase t.work (Logged.record s t log (.tile k ghost)) := by
  have hne : s.chains ≠ [] := by
    intro hnil
    rw [hnil] at hk
    cases hk
  unfold Stage at h
  split at h
  · next hp =>
    have hbusy := h.busy hne
    have hcomp : Computing log.queued s.work := h.progress.resolve_right fun hfin => hne hfin.2.1
    obtain ⟨c, hc⟩ : ∃ c, s.chains = [c] := by
      rcases hcomp with ⟨ts, p, array', -, hin⟩ | ⟨-, -, hnil, -⟩
      · exact ⟨_, hin.chains⟩
      · exact absurd hnil hne
    have hk0 : k = 0 := by
      have hlt := (List.getElem?_eq_some_iff.mp hk).1
      simpa [hc] using hlt
    obtain ⟨t', ht', hm⟩ := hcomp.tile hk ghost
    obtain rfl : t' = t := Except.ok.inj (ht'.symm.trans ht)
    have hphase : t'.phase = .compute := by
      rw [hm.frame]
      exact hp
    obtain ⟨strideA, strideB, htiles, hl⟩ := h.tiles
    have hloads : Loads t'.work strideA strideB := by
      refine ⟨hl.le, ?_, ?_⟩
      · intro i k hi
        exact (congrFun (congrFun hm.aMatrix i) k).trans (hl.a i k hi)
      · intro k j hkj
        exact (congrFun (congrFun hm.bMatrix k) j).trans (hl.b k j hkj)
    have hlog : log.loads = [(t'.aMatrix, t'.bMatrix)] := by
      rw [hm.aMatrix, hm.bMatrix]
      exact h.loads
    refine Underway.stage ?_ hphase
    rcases runTile_eq_ok hc hk0 ht with ⟨he, hcur, hq, hc'⟩ | ⟨rfl, hq⟩
    · have hrec : Logged.record s t' log (.tile k ghost) = log := by
        cases e <;> simp only [Logged.record, hk]
        exact absurd rfl he
      rw [hrec]
      refine ⟨hlog, ⟨strideA, strideB, htiles, hloads⟩, .inl hm.computing, fun _ => ?_, fun hnil => absurd hnil hc'⟩
      rw [show t'.work.currentTile = s.currentTile from hcur, show t'.work.tileQ = s.tileQ from hq]
      exact hbusy
    · have hrec : Logged.record s t' log (.tile k ghost) =
          { log with deposits := log.deposits ++ [s.currentTile] } := by
        simp only [Logged.record, hk]
      rw [hrec]
      have hbusy : log.deposits ++ s.currentTile :: s.tileQ = log.queued := hbusy
      refine ⟨hlog, ⟨strideA, strideB, htiles, hloads⟩, .inl hm.computing, fun hc' => ?_, fun hnil => ?_⟩
      · rcases hq with ⟨-, -, hnil⟩ | ⟨hq, -⟩
        · exact absurd hnil hc'
        · rw [← hbusy, hq, List.append_assoc]
          rfl
      · rcases hq with ⟨hq, -, -⟩ | ⟨-, hc'⟩
        · rw [← hbusy, hq]
        · exact absurd hnil hc'
  · exact absurd h.chains hne

/-- **The step lemma.** -/
theorem Logged.Inv.step {t u : Logged} {a : Act} (h : t.Inv) (hc : EnableAtRest t a) (hs : t.step a = .next u) :
    u.Inv := by
  unfold Logged.step at hs
  obtain ⟨v, hv, hu⟩ := Outcome.bind_eq_next.mp hs
  obtain rfl := Outcome.next.inj hu
  unfold Sa.step at hv
  cases a with
  | trySend req resp =>
    obtain rfl := Outcome.next.inj hv
    exact h
  | accept p => exact Stage.accept h (Outcome.ofExcept_eq_next.mp hv)
  | event k recycled =>
    cases he : t.sa.events[k]? with
    | none =>
      simp only [he] at hv
      cases hv
    | some e =>
      simp only [he, Outcome.ofExcept_eq_next] at hv
      have hany : (∃ e' ∈ t.sa.events[k]?, Enables e') ↔ Enables e := by simp [he]
      show Stage v.phase v.work (Logged.record t.sa v t.log (.event k recycled))
      by_cases hen : Enables e
      · rw [show Logged.record t.sa v t.log (.event k recycled) = {} from if_pos (hany.mpr hen)]
        have hrest := hc (hany.mpr hen)
        cases e with
        | writeMmio p => exact Stage.enable (s := { t.sa with events := t.sa.events.eraseIdx k }) h hrest hen hv
        | _ => exact hen.elim
      · rw [show Logged.record t.sa v t.log (.event k recycled) = t.log from if_neg fun hx => hen (hany.mp hx)]
        exact Stage.same (s := { t.sa with events := t.sa.events.eraseIdx k }) h (same_runEvent hen hv)
  | tile k ghost =>
    dsimp only at hv
    split at hv
    · next e rest array hk => exact Stage.tile h hk ghost (Outcome.ofExcept_eq_next.mp hv)
    · cases hv

/-- **Main result.** If every ENABLE finds no tile being multiplied, then whenever the module is done nothing is queued
or scheduled for a multiplication, and `C_matrix` is the product of the matrices loaded since the last ENABLE, each
tile deposited once, whatever is written, read, answered and scheduled in between. -/
theorem done_of_enableAtRest (as : List Act) (hc : Along Logged.step EnableAtRest Logged.start as) :
    Always Logged.step (fun _ => False) (fun t => t.sa.done = true → Finished t) Logged.start as :=
  Always.of_inv (fun _ h hd => h.finished hd) (fun _ _ _ h hc hs => h.step hc hs) (fun _ _ _ _ _ _ hf => hf)
    (show Logged.Inv Logged.start from Waiting.stage ⟨rfl, rfl, rfl, rfl, rfl, rfl, rfl⟩ (by decide)) hc

/-! ## ENABLE during a multiplication -/

/-- A store of the CPU, and the call that serves it. -/
def served (addr data : Word) (tid : Nat) : List Act :=
  [.accept (.writeReq (constructMemWritepktNonBurst {} .SW addr data .cpu tid)), .event 0 0]

/-- The poll, the packets of a DMA transfer on their way, and the answer that it is over. -/
def polled : List Act :=
  .event 0 0 :: List.replicate 5 (.trySend ⟨false, true⟩ ⟨false, true⟩) ++
    [.accept (.readResp (constructMemReadRespPkt [{ tid := 0, instr := {}, op := .LW, data := 1, a1 := { imm := pollMark } }]
      .dma .sa 0))]

/-- Two rows and columns, all elements 0 but the first one, times themselves. -/
def squared : List Act :=
  served 0x20000 1 1 ++ served 0x12020 0x00020202 2 ++ served 0x12000 1 3 ++ polled ++ polled

/-- The calls of the only tile. -/
def tileCalls : List Act := List.replicate 8 (.tile 0 fun _ => ⟨false, 0⟩)

theorem done_of_enableAtRest_squared : Along Logged.step EnableAtRest Logged.start (squared ++ tileCalls) ∧
    Always Logged.step (fun _ => False) (fun t => t.sa.done = true → Finished t) Logged.start (squared ++ tileCalls) := by
  have hc : Along Logged.step EnableAtRest Logged.start (squared ++ tileCalls) := by decide +kernel
  exact ⟨hc, done_of_enableAtRest _ hc⟩

/-- ENABLE is written again before the first call of the tile: the module is done with a 1 in `C_matrix`, and no
matrix loaded. -/
theorem done_of_enableAtRest_restarted : ¬ ∀ as : List Act,
    Always Logged.step (fun _ => False) (fun t => t.sa.done = true → Finished t) Logged.start as := by
  intro h
  have hrun : (run Logged.step Logged.start (squared ++ served 0x12000 1 4 ++ tileCalls)).holds (fun t =>
      t.sa.done && decide (t.sa.cMatrix 0 0 ≠
        BitVec.ofNat 16 (∑ k ∈ Finset.range MATRIX_SIZE, (t.sa.aMatrix 0 k).toNat * (t.sa.bMatrix k 0).toNat))) = true := by
    decide +kernel
  obtain ⟨t, ht, hx⟩ := Outcome.exists_of_holds hrun
  obtain ⟨hdone, hne⟩ := Bool.and_eq_true_iff.mp hx
  exact of_decide_eq_true hne (((h _).last ht hdone).product 0 0)

end SocModel.Sa
