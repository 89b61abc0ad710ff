import SocModel.Stage5.Shadow

/-!
# The pipeline drains

From every state that the 5-stage model reaches, the packets between the CPU and WBStage can all be recycled, within a
number of steps that their number bounds: a hazard keeps a stage for three steps and an access for a thousand. No
instruction is executed on the way, and the registers answer what they hold.

* `MemAccess.wait`, `IDStage.todo` and its siblings : the steps a stage keeps its packet for, `step_todo` : one less;
* `Pipeline.ahead` : what the oldest packet has in front of it, `goes_on` : a step that lowers it;
* `pipeline_drains` : then every packet is recycled.
-/

namespace SocModel.Stage5

open Lib

/-! ## How long a stage keeps its packet -/

/-- The checks that report a memory stall yet. -/
def MemAccess.wait (a : MemAccess) (o : Option InstPacket) : Nat :=
  match o with
  | none => 0
  | some p =>
    if !isMemPacket (some p) then 0
    else if a.lastMemAccessPc ≠ p.pc then memoryAccessTime
    else memoryAccessTime - a.memAccessCount

theorem MemAccess.wait_le (a : MemAccess) (o : Option InstPacket) : a.wait o ≤ memoryAccessTime := by
  unfold wait
  rcases o with _ | p
  · exact Nat.zero_le _
  · dsimp only
    split
    · exact Nat.zero_le _
    · split
      · exact Nat.le_refl _
      · exact Nat.sub_le _ _

/-- A check reports a stall and there is one less to come, or it changes nothing. -/
theorem MemAccess.check_cases (a : MemAccess) (o : Option InstPacket) :
    a.check o = (a, false) ∨ ∃ b, a.check o = (b, true) ∧ b.wait o < a.wait o := by
  unfold check wait
  rcases o with _ | p
  · exact .inl rfl
  · dsimp only
    by_cases hm : isMemPacket (some p) = true
    · simp only [hm, Bool.not_true, Bool.false_eq_true, if_false]
      by_cases hpc : a.lastMemAccessPc ≠ p.pc
      · refine .inr ⟨⟨p.pc, 1⟩, if_pos hpc, ?_⟩
        rw [if_pos hpc, if_neg (not_not.mpr rfl)]
        exact Nat.sub_lt (by decide) Nat.one_pos
      · rw [if_neg hpc, if_neg hpc]
        by_cases hc : a.memAccessCount < memoryAccessTime
        · refine .inr ⟨{ a with memAccessCount := a.memAccessCount + 1 }, if_pos hc, ?_⟩
          rw [if_neg hpc]
          dsimp only
          omega
        · exact .inl (if_neg hc)
    · simp only [hm, Bool.not_false, if_true]
      exact .inl trivial

/-- The shifts until nothing is left in front of the packet. -/
def level (exe mem wb : Option Ptr) : Nat :=
  if exe.isSome then 3 else if mem.isSome then 2 else if wb.isSome then 1 else 0

theorem level_le (exe mem wb : Option Ptr) : level exe mem wb ≤ 3 := by
  unfold level
  split_ifs <;> omega

theorem level_eq_zero {exe mem wb : Option Ptr} (h : level exe mem wb = 0) : exe = none ∧ mem = none ∧ wb = none := by
  rcases exe with _ | p <;> rcases mem with _ | q <;> rcases wb with _ | r <;> simp [level] at h ⊢

theorem level_shift {exe mem wb : Option Ptr} (h : level exe mem wb ≠ 0) : level none exe mem < level exe mem wb := by
  rcases exe with _ | p <;> rcases mem with _ | q <;> rcases wb with _ | r <;> simp [level] at h ⊢

section

variable (heap : Heap) (p : Ptr)

def IFStage.todo (f : IFStage) : Nat :=
  level f.exeInstPacket f.memInstPacket f.wbInstPacket * (memoryAccessTime + 1) +
    f.access.wait (f.memInstPacket.map (·.deref heap))

def IDStage.todo (d : IDStage) : Nat :=
  level d.exeInstPacket d.memInstPacket d.wbInstPacket * (memoryAccessTime + 1) +
    d.access.wait (d.memInstPacket.map (·.deref heap))

def EXEStage.todo (x : EXEStage) : Nat := x.access.wait (x.memInstPacket.map (·.deref heap))

def MEMStage.todo (m : MEMStage) : Nat := m.access.wait (some (p.deref heap))

/-- The most steps that a hazard and the accesses behind it keep a packet for. -/
def longestHazard : Nat := 3 * (memoryAccessTime + 1) + memoryAccessTime

theorem todo_le (exe mem wb : Option Ptr) (a : MemAccess) (o : Option InstPacket) :
    level exe mem wb * (memoryAccessTime + 1) + a.wait o ≤ longestHazard :=
  Nat.add_le_add (Nat.mul_le_mul_right _ (level_le exe mem wb)) (a.wait_le o)

/-- A shift leaves less to do, whatever access it brings to MEM. -/
theorem todo_shift {exe mem wb : Option Ptr} (h : level exe mem wb ≠ 0) (a b : MemAccess) (o o' : Option InstPacket) :
    level none exe mem * (memoryAccessTime + 1) + b.wait o' < level exe mem wb * (memoryAccessTime + 1) + a.wait o := by
  have hlt := level_shift h
  have hw := b.wait_le o'
  have hmul := Nat.mul_le_mul_right (memoryAccessTime + 1) (Nat.succ_le_of_lt hlt)
  rw [Nat.succ_mul] at hmul
  omega

/-! ### A step with a free output sends the packet on or leaves less to do -/

theorem MEMStage.step_todo (m : MEMStage) : m.step heap p false = (m.instPacketHandler p, true) ∨
    ∃ m', m.step heap p false = (m', false) ∧ m'.todo heap p < m.todo heap p := by
  unfold step
  rcases m.access.check_cases (some (p.deref heap)) with h | ⟨b, h, hlt⟩
  · rw [h]
    exact .inl rfl
  · rw [h]
    exact .inr ⟨_, rfl, hlt⟩

theorem EXEStage.step_todo (x : EXEStage) : x.step heap p false = (x.instPacketHandler p, true) ∨
    ∃ x', x.step heap p false = (x', false) ∧ x'.todo heap < x.todo heap := by
  unfold step
  rcases x.access.check_cases (x.memInstPacket.map (·.deref heap)) with h | ⟨b, h, hlt⟩
  · rw [h]
    exact .inl rfl
  · rw [h]
    exact .inr ⟨_, rfl, hlt⟩

theorem IDStage.step_todo (d : IDStage) : d.step heap p false = (d.instPacketHandler p, true) ∨
    ∃ d', d.step heap p false = (d', false) ∧ d'.todo heap < d.todo heap := by
  by_cases hl : level d.exeInstPacket d.memInstPacket d.wbInstPacket = 0
  · obtain ⟨he, hm, hw⟩ := level_eq_zero hl
    exact .inl (step_of_free (by simp [he]) (by simp [hm]) (by simp [hw]) (by simp [hm]))
  · unfold step
    dsimp only
    rcases d.access.check_cases (d.memInstPacket.map (·.deref heap)) with h | ⟨b, h, hlt⟩
    · rw [h]
      generalize (hazardCheck none (some (p.deref heap)) (d.exeInstPacket.map (·.deref heap))
        (d.memInstPacket.map (·.deref heap)) (d.wbInstPacket.map (·.deref heap))) = hazard
      obtain ⟨-, idHazard, exeHazard⟩ := hazard
      dsimp only
      rcases idHazard || exeHazard with _ | _
      · exact .inl (by simp)
      · refine .inr ⟨{ d with wbInstPacket := d.memInstPacket, memInstPacket := d.exeInstPacket, exeInstPacket := none },
          by simp, todo_shift hl _ _ _ _⟩
    · rw [h]
      refine .inr ⟨{ d with access := b }, by simp, Nat.add_lt_add_left hlt _⟩

theorem IFStage.step_todo (f : IFStage) : f.step heap p false = (f.instPacketHandler p, true) ∨
    ∃ f', f.step heap p false = (f', false) ∧ f'.todo heap < f.todo heap := by
  by_cases hl : level f.exeInstPacket f.memInstPacket f.wbInstPacket = 0
  · obtain ⟨he, hm, hw⟩ := level_eq_zero hl
    exact .inl (step_of_free (by simp [he]) (by simp [hm]) (by simp [hw]) (by simp [hm]) (by simp [he]))
  · unfold step
    dsimp only
    rcases f.access.check_cases (f.memInstPacket.map (·.deref heap)) with h | ⟨b, h, hlt⟩
    · rw [h]
      generalize (hazardCheck (some (p.deref heap)) (f.idInstPacket.map (·.deref heap))
        (f.exeInstPacket.map (·.deref heap)) (f.memInstPacket.map (·.deref heap))
        (f.wbInstPacket.map (·.deref heap))) = hazard
      obtain ⟨ifHazard, idHazard, exeHazard⟩ := hazard
      generalize (f.exeInstPacket.map (·.deref heap)).any (·.isTakenBranch) = taken
      dsimp only
      rcases ifHazard || idHazard || exeHazard with _ | _ <;> rcases taken with _ | _
      · exact .inl (by simp)
      all_goals
        refine .inr ⟨{ f with wbInstPacket := f.memInstPacket, memInstPacket := f.exeInstPacket, exeInstPacket := none },
          by simp, todo_shift hl _ _ _ _⟩
    · rw [h]
      refine .inr ⟨{ f with access := b }, by simp, Nat.add_lt_add_left hlt _⟩

end

/-! ## What the oldest packet has in front of it -/

/-- The steps of a packet that is the oldest, if it is in this register: `base` when its stage has sent it on, and before
that the steps for which its stage keeps it, `cap` at most. -/
def PipeRegister.ahead (r : PipeRegister) (base cap : Nat) (todo : Ptr → Nat) (behind : Nat) : Nat :=
  match r.shown, r.pushed with
  | p :: _, _ => base + todo p + 1
  | [], _ :: _ => base + cap + 2
  | [], [] => behind

namespace PipeRegister

variable {r : PipeRegister} {base cap behind : Nat} {todo : Ptr → Nat} {p : Ptr} {ps : List Ptr}

theorem ahead_shown (h : r.shown = p :: ps) : r.ahead base cap todo behind = base + todo p + 1 := by
  unfold ahead
  rw [h]

theorem ahead_pushed (h : r.shown = []) (hp : r.pushed ≠ []) : r.ahead base cap todo behind = base + cap + 2 := by
  obtain ⟨q, qs, hq⟩ := List.exists_cons_of_ne_nil hp
  unfold ahead
  rw [h, hq]

theorem ahead_empty (h : r.held = []) : r.ahead base cap todo behind = behind := by
  obtain ⟨h1, h2⟩ := List.append_eq_nil_iff.mp h
  unfold ahead
  rw [h1, h2]

theorem ahead_push (h : r.held = []) : (r.push p).ahead base cap todo behind = base + cap + 2 := by
  obtain ⟨h1, h2⟩ := List.append_eq_nil_iff.mp h
  exact ahead_pushed h1 (by simp [push])

theorem ahead_le {n : Nat} (hcap : ∀ p, todo p ≤ cap) (hn : base + cap + 2 ≤ n) (hb : behind ≤ n) :
    r.ahead base cap todo behind ≤ n := by
  unfold ahead
  split
  · next p _ _ =>
    have := hcap p
    omega
  · exact hn
  · exact hb

/-- What was pushed is at the output behind a `sync`. -/
theorem ahead_sync (h : r.shown = []) (hp : r.pushed ≠ []) (hcap : ∀ p, todo p ≤ cap) {behind' : Nat} :
    r.sync.ahead base cap todo behind' < r.ahead base cap todo behind := by
  obtain ⟨q, qs, hq⟩ := List.exists_cons_of_ne_nil hp
  have hs : r.sync.shown = q :: qs := by simp [sync, h, hq]
  rw [ahead_shown hs, ahead_pushed h hp]
  have := hcap q
  omega

end PipeRegister

namespace Pipeline

/-- The port to the IF stage, with the packet that waits behind it. -/
def portRegister (s : Pipeline) : PipeRegister := ⟨s.port, s.pendingInstPacket.toList⟩

/-- The most steps of a packet that is the oldest. -/
def lifetime : Nat := 2 * memoryAccessTime + 2 * longestHazard + 10

def ahead (s : Pipeline) : Nat :=
  s.prMEM2WB.ahead 0 0 (fun _ => 0) <|
  s.prEXE2MEM.ahead 2 memoryAccessTime (s.memStage.todo s.heap) <|
  s.prID2EXE.ahead (memoryAccessTime + 4) memoryAccessTime (fun _ => s.exeStage.todo s.heap) <|
  s.prIF2ID.ahead (2 * memoryAccessTime + 6) longestHazard (fun _ => s.idStage.todo s.heap) <|
  s.portRegister.ahead (2 * memoryAccessTime + longestHazard + 8) longestHazard (fun _ => s.ifStage.todo s.heap) 0

/-- The steps that all the packets have. -/
def rank (s : Pipeline) : Nat := lifetime * (s.inFlight.length - 1) + s.ahead

variable {s t : Pipeline}

theorem inFlight_eq (s : Pipeline) : s.inFlight =
    s.prMEM2WB.held ++ (s.prEXE2MEM.held ++ (s.prID2EXE.held ++ (s.prIF2ID.held ++ s.portRegister.held))) := by
  simp [inFlight, pastIF, pastID, pastEXE, portRegister, PipeRegister.held]

theorem ahead_le (s : Pipeline) : s.ahead ≤ lifetime := by
  have hmem : ∀ p, s.memStage.todo s.heap p ≤ memoryAccessTime := fun p => MemAccess.wait_le _ _
  have hexe : ∀ _ : Ptr, s.exeStage.todo s.heap ≤ memoryAccessTime := fun _ => MemAccess.wait_le _ _
  unfold ahead
  refine PipeRegister.ahead_le (fun _ => Nat.le_refl 0) ?_ <| PipeRegister.ahead_le hmem ?_ <|
    PipeRegister.ahead_le hexe ?_ <| PipeRegister.ahead_le (fun _ => todo_le _ _ _ _ _) ?_ <|
    PipeRegister.ahead_le (fun _ => todo_le _ _ _ _ _) ?_ (Nat.zero_le _)
  all_goals
    unfold lifetime
    omega

/-- Nothing is in front of no packet. -/
theorem ahead_eq_zero (h : s.inFlight = []) : s.ahead = 0 := by
  rw [inFlight_eq] at h
  simp only [List.append_eq_nil_iff] at h
  obtain ⟨h0, h1, h2, h3, h4⟩ := h
  unfold ahead
  rw [PipeRegister.ahead_empty h0, PipeRegister.ahead_empty h1, PipeRegister.ahead_empty h2,
    PipeRegister.ahead_empty h3, PipeRegister.ahead_empty h4]

theorem rank_le (s : Pipeline) : s.rank ≤ lifetime * s.inFlight.length := by
  unfold rank
  rcases hf : s.inFlight with _ | ⟨p, ps⟩
  · rw [s.ahead_eq_zero hf]
    exact Nat.zero_le _
  · have := s.ahead_le
    rw [List.length_cons, Nat.add_sub_cancel, Nat.mul_succ]
    omega

/-- Fewer steps in front of the same packets. -/
theorem rank_lt_of_ahead (hf : t.inFlight = s.inFlight) (h : t.ahead < s.ahead) : t.rank < s.rank := by
  unfold rank
  rw [hf]
  exact Nat.add_lt_add_left h _

/-- The oldest packet is recycled. -/
theorem rank_stepWB (h : s.prMEM2WB.shown ≠ []) : s.stepWB.rank < s.rank := by
  obtain ⟨p, ps, hp⟩ := List.exists_cons_of_ne_nil h
  have hs : s.ahead = 1 := PipeRegister.ahead_shown hp
  have hf : s.inFlight = p :: s.stepWB.inFlight := by
    unfold stepWB
    rw [hp]
    simp [inFlight_eq, PipeRegister.held_eq_cons hp, portRegister]
  have hle := s.stepWB.ahead_le
  unfold rank
  rw [hf, hs, List.length_cons, Nat.add_sub_cancel]
  rcases hn : s.stepWB.inFlight with _ | ⟨q, qs⟩
  · rw [s.stepWB.ahead_eq_zero hn]
    exact Nat.lt_succ_self _
  · rw [List.length_cons, Nat.add_sub_cancel, Nat.mul_succ]
    omega

/-! ## The oldest packet goes on -/

/-- A step that neither executes nor loses an instruction leaves less to do. -/
def GoesOn (s : Pipeline) : Prop :=
  ∃ a t, Answers s a ∧ s.step a = .next t ∧ t.rank < s.rank ∧ t.executed = s.executed ∧ t.cpu.arch = s.cpu.arch

theorem goesOn_of_moves {a : StageAct} (ha : Answers s a) (hs : s.step a = .next t) (hm : Moves s t)
    (h : t.ahead < s.ahead) : GoesOn s :=
  ⟨a, t, ha, hs, rank_lt_of_ahead (congrArg Line.inFlight hm.line) h, congrArg Line.issued hm.line,
    congrArg State.arch hm.cpu⟩

theorem goesOn_sync (h : s.sync.ahead < s.ahead) : GoesOn s := goesOn_of_moves (a := .sync) trivial rfl moves_sync h

/-- An empty register does not stall the stage in front of it. -/
theorem not_stalled {r : PipeRegister} (h : r.held = []) : false = !r.held.isEmpty := by
  rw [h]
  rfl

theorem held_sync_eq_nil {r : PipeRegister} (h : r.held = []) : r.sync.held = [] := by
  rw [PipeRegister.held_sync, h]

theorem pushed_ne_nil {r : PipeRegister} (h : r.held ≠ []) (hs : r.shown = []) : r.pushed ≠ [] := by
  rintro hp
  exact h (by simp [PipeRegister.held, hs, hp])

theorem goesOn_WB (h : s.prMEM2WB.held ≠ []) : GoesOn s := by
  rcases hs : s.prMEM2WB.shown with _ | ⟨p, ps⟩
  · exact goesOn_sync (PipeRegister.ahead_sync hs (pushed_ne_nil h hs) fun _ => Nat.le_refl 0)
  · refine ⟨.stepWB, s.stepWB, trivial, rfl, rank_stepWB (by simp [hs]), ?_, ?_⟩
    · unfold stepWB
      rw [hs]
    · unfold stepWB
      rw [hs]

/-! ### The registers in front are empty -/

theorem ahead_eq_MEM (h0 : s.prMEM2WB.held = []) : s.ahead =
    (s.prEXE2MEM.ahead 2 memoryAccessTime (s.memStage.todo s.heap) <|
      s.prID2EXE.ahead (memoryAccessTime + 4) memoryAccessTime (fun _ => s.exeStage.todo s.heap) <|
      s.prIF2ID.ahead (2 * memoryAccessTime + 6) longestHazard (fun _ => s.idStage.todo s.heap) <|
      s.portRegister.ahead (2 * memoryAccessTime + longestHazard + 8) longestHazard
        (fun _ => s.ifStage.todo s.heap) 0) := PipeRegister.ahead_empty h0

theorem ahead_eq_EXE (h0 : s.prMEM2WB.held = []) (h1 : s.prEXE2MEM.held = []) : s.ahead =
    (s.prID2EXE.ahead (memoryAccessTime + 4) memoryAccessTime (fun _ => s.exeStage.todo s.heap) <|
      s.prIF2ID.ahead (2 * memoryAccessTime + 6) longestHazard (fun _ => s.idStage.todo s.heap) <|
      s.portRegister.ahead (2 * memoryAccessTime + longestHazard + 8) longestHazard
        (fun _ => s.ifStage.todo s.heap) 0) := by
  rw [ahead_eq_MEM h0, PipeRegister.ahead_empty h1]

theorem ahead_eq_ID (h0 : s.prMEM2WB.held = []) (h1 : s.prEXE2MEM.held = []) (h2 : s.prID2EXE.held = []) : s.ahead =
    (s.prIF2ID.ahead (2 * memoryAccessTime + 6) longestHazard (fun _ => s.idStage.todo s.heap) <|
      s.portRegister.ahead (2 * memoryAccessTime + longestHazard + 8) longestHazard
        (fun _ => s.ifStage.todo s.heap) 0) := by
  rw [ahead_eq_EXE h0 h1, PipeRegister.ahead_empty h2]

theorem ahead_eq_IF (h0 : s.prMEM2WB.held = []) (h1 : s.prEXE2MEM.held = []) (h2 : s.prID2EXE.held = [])
    (h3 : s.prIF2ID.held = []) : s.ahead = s.portRegister.ahead (2 * memoryAccessTime + longestHazard + 8) longestHazard
      (fun _ => s.ifStage.todo s.heap) 0 := by
  rw [ahead_eq_ID h0 h1 h2, PipeRegister.ahead_empty h3]

/-! ### One lemma for each place of the oldest packet -/

section

variable (h0 : s.prMEM2WB.held = [])

include h0

theorem goesOn_MEM (h : s.prEXE2MEM.held ≠ []) : GoesOn s := by
  rcases hs : s.prEXE2MEM.shown with _ | ⟨p, ps⟩
  · refine goesOn_sync ?_
    rw [ahead_eq_MEM h0, ahead_eq_MEM (s := s.sync) (held_sync_eq_nil h0)]
    exact PipeRegister.ahead_sync hs (pushed_ne_nil h hs) fun p => MemAccess.wait_le _ _
  · refine goesOn_of_moves (a := .stepMEM false) (not_stalled h0) rfl moves_stepMEM ?_
    rw [ahead_eq_MEM h0, PipeRegister.ahead_shown hs]
    unfold stepMEM
    rw [hs]
    rcases s.memStage.step_todo s.heap p with hgo | ⟨m', hstay, hlt⟩
    · simp only [hgo]
      unfold ahead
      rw [PipeRegister.ahead_push h0]
      omega
    · simp only [hstay]
      rw [ahead_eq_MEM (s := { s with memStage := m' }) h0, PipeRegister.ahead_shown hs]
      dsimp only
      omega

variable (h1 : s.prEXE2MEM.held = [])

include h1

theorem goesOn_EXE (h : s.prID2EXE.held ≠ []) : GoesOn s := by
  rcases hs : s.prID2EXE.shown with _ | ⟨p, ps⟩
  · refine goesOn_sync ?_
    rw [ahead_eq_EXE h0 h1, ahead_eq_EXE (s := s.sync) (held_sync_eq_nil h0) (held_sync_eq_nil h1)]
    exact PipeRegister.ahead_sync hs (pushed_ne_nil h hs) fun p => MemAccess.wait_le _ _
  · refine goesOn_of_moves (a := .stepEXE false) (not_stalled h1) rfl moves_stepEXE ?_
    rw [ahead_eq_EXE h0 h1, PipeRegister.ahead_shown hs]
    unfold stepEXE
    rw [hs]
    rcases s.exeStage.step_todo s.heap p with hgo | ⟨x', hstay, hlt⟩
    · simp only [hgo]
      unfold ahead
      rw [PipeRegister.ahead_empty h0, PipeRegister.ahead_push h1]
      omega
    · simp only [hstay]
      rw [ahead_eq_EXE (s := { s with exeStage := x' }) h0 h1, PipeRegister.ahead_shown hs]
      dsimp only
      omega

variable (h2 : s.prID2EXE.held = [])

include h2

theorem goesOn_ID (h : s.prIF2ID.held ≠ []) : GoesOn s := by
  rcases hs : s.prIF2ID.shown with _ | ⟨p, ps⟩
  · refine goesOn_sync ?_
    rw [ahead_eq_ID h0 h1 h2,
      ahead_eq_ID (s := s.sync) (held_sync_eq_nil h0) (held_sync_eq_nil h1) (held_sync_eq_nil h2)]
    exact PipeRegister.ahead_sync hs (pushed_ne_nil h hs) fun p => todo_le _ _ _ _ _
  · refine goesOn_of_moves (a := .stepID false) (not_stalled h2) rfl moves_stepID ?_
    rw [ahead_eq_ID h0 h1 h2, PipeRegister.ahead_shown hs]
    unfold stepID
    rw [hs]
    rcases s.idStage.step_todo s.heap p with hgo | ⟨d', hstay, hlt⟩
    · simp only [hgo]
      unfold ahead
      rw [PipeRegister.ahead_empty h0, PipeRegister.ahead_empty h1, PipeRegister.ahead_push h2]
      omega
    · simp only [hstay]
      rw [ahead_eq_ID (s := { s with idStage := d' }) h0 h1 h2, PipeRegister.ahead_shown hs]
      dsimp only
      omega

variable (h3 : s.prIF2ID.held = [])

include h3

theorem goesOn_IF {p : Ptr} {ps : List Ptr} (hs : s.port = p :: ps) : GoesOn s := by
  have hahead := ahead_eq_IF h0 h1 h2 h3
  rw [PipeRegister.ahead_shown (show s.portRegister.shown = p :: ps from hs)] at hahead
  rcases s.ifStage.step_todo s.heap p with hgo | ⟨f', hstay, hlt⟩
  · have hstep : s.stepIF false =
        .next { s with ifStage := s.ifStage.instPacketHandler p, port := ps, prIF2ID := s.prIF2ID.push p } := by
      unfold stepIF
      rw [hs]
      simp only [hgo]
    refine goesOn_of_moves (a := .stepIF true false) (not_stalled h3) hstep (moves_stepIF hstep) ?_
    rw [hahead]
    unfold ahead
    rw [PipeRegister.ahead_empty h0, PipeRegister.ahead_empty h1, PipeRegister.ahead_empty h2,
      PipeRegister.ahead_push h3]
    omega
  · have hstep : s.stepIF false = .next { s with ifStage := f' } := by
      unfold stepIF
      rw [hs]
      simp only [hstay]
    refine goesOn_of_moves (a := .stepIF true false) (not_stalled h3) hstep (moves_stepIF hstep) ?_
    have hs' : ({ s with ifStage := f' } : Pipeline).portRegister.shown = p :: ps := hs
    rw [hahead, ahead_eq_IF (s := { s with ifStage := f' }) h0 h1 h2 h3, PipeRegister.ahead_shown hs']
    dsimp only
    omega

end

end Pipeline

section

variable {imem : Imem} {dmem : BaseMemory} {s : Pipeline}

/-- **The oldest packet goes on.** -/
theorem Delivers.goes_on (h : Delivers imem dmem s) (hf : s.inFlight ≠ []) : s.GoesOn := by
  by_cases h0 : s.prMEM2WB.held = []
  swap
  · exact Pipeline.goesOn_WB h0
  by_cases h1 : s.prEXE2MEM.held = []
  swap
  · exact Pipeline.goesOn_MEM h0 h1
  by_cases h2 : s.prID2EXE.held = []
  swap
  · exact Pipeline.goesOn_EXE h0 h1 h2
  by_cases h3 : s.prIF2ID.held = []
  swap
  · exact Pipeline.goesOn_ID h0 h1 h2 h3
  rcases hport : s.port with _ | ⟨p, ps⟩
  swap
  · exact Pipeline.goesOn_IF h0 h1 h2 h3 hport
  -- the packet waits behind the port, which takes it now
  obtain ⟨cpu, hcpu, -, harch, -⟩ := h.cpu.exists_retry
  have hpend : s.pendingInstPacket.toList ≠ [] := fun hnil => hf (by
    rw [Pipeline.inFlight_eq, h0, h1, h2, h3]
    simp [PipeRegister.held, Pipeline.portRegister, hport, hnil])
  have hstep : s.step (.retry true) =
      .next { s with cpu, port := s.port ++ s.pendingInstPacket.toList, pendingInstPacket := none } := by
    simp only [Pipeline.step, Pipeline.retrySendInstPacket, hcpu, Outcome.bind_next]
  refine ⟨.retry true, _, rfl, hstep, Pipeline.rank_lt_of_ahead ?_ ?_, rfl, harch⟩
  · simp [Pipeline.inFlight_eq, Pipeline.portRegister, PipeRegister.held]
  · refine lt_of_eq_of_lt (Pipeline.ahead_eq_IF h0 h1 h2 h3) ?_
    rw [Pipeline.ahead_eq_IF h0 h1 h2 h3]
    exact PipeRegister.ahead_sync (r := s.portRegister) hport hpend fun _ => todo_le _ _ _ _ _

end

/-- **Main result.** From every state that a run reaches, every packet can be recycled, in a number of steps that the
number of packets bounds. Then what was executed is retired, in order, and nothing more was executed. -/
theorem pipeline_drains {imem : Imem} {dmem : BaseMemory} {as : List StageAct} {s : Pipeline}
    (hr : Reaches Pipeline.step (.init imem dmem) as s) :
    ∃ bs t, Reaches Pipeline.step s bs t ∧ Along Pipeline.step Answers s bs ∧
      bs.length ≤ Pipeline.lifetime * s.inFlight.length ∧ t.inFlight = [] ∧ t.retired = s.executed ∧
      t.executed = s.executed ∧ t.cpu.arch = s.cpu.arch := by
  obtain ⟨bs, t, ht, hall, hle, ⟨hd, he, ha⟩, hf⟩ : ∃ bs t, Reaches Pipeline.step s bs t ∧
      Along Pipeline.step Answers s bs ∧ bs.length ≤ s.rank ∧
      (Delivers imem dmem t ∧ t.executed = s.executed ∧ t.cpu.arch = s.cpu.arch) ∧ t.inFlight = [] := by
    refine exists_reaches_le_rank Pipeline.rank ?_ ⟨delivers_of_reaches hr, rfl, rfl⟩
    rintro u ⟨hd, he, ha⟩
    by_cases hf : u.inFlight = []
    · exact .inl hf
    · obtain ⟨a, t, hans, hs, hlt, he', ha'⟩ := hd.goes_on hf
      exact .inr ⟨a, t, hans, hs, ⟨delivers_step hd hs, he'.trans he, ha'.trans ha⟩, hlt⟩
  have hv := hd.conserved
  rw [hf, List.map_nil, List.append_nil] at hv
  exact ⟨bs, t, ht, hall, hle.trans s.rank_le, hf, hv.trans he, he, ha⟩

/-- `addi` is in IFStage's register and `hcf`, refused by the port, waits behind it. -/
theorem pipeline_drains_addiThenHcf : ∃ s,
    Reaches Pipeline.step (.init addiThenHcf ⟨0, fun _ => 0⟩) (addiRetires.take 3) s ∧ s.inFlight.length = 2 ∧
    s.retired.length = 0 ∧ s.executed.length = 2 ∧
    ∃ bs t, Reaches Pipeline.step s bs t ∧ Along Pipeline.step Answers s bs ∧
      bs.length ≤ Pipeline.lifetime * s.inFlight.length ∧ t.inFlight = [] ∧ t.retired = s.executed ∧
      t.executed = s.executed ∧ t.cpu.arch = s.cpu.arch := by
  have hrun : (run Pipeline.step (.init addiThenHcf ⟨0, fun _ => 0⟩) (addiRetires.take 3)).holds (fun s =>
      s.inFlight.length == 2 && s.retired.length == 0 && s.executed.length == 2) = true := by decide +kernel
  obtain ⟨s, hr, hx⟩ := Outcome.exists_of_holds hrun
  simp only [Bool.and_eq_true, beq_iff_eq] at hx
  exact ⟨s, hr, hx.1.1, hx.1.2, hx.2, pipeline_drains hr⟩

end SocModel.Stage5
