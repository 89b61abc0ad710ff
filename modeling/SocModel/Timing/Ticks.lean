import SocModel.Lib.Timed
import SocModel.Stage5.Delivery
import SocModel.Stage5.Shadow

/-!
# The 5-stage model tick by tick

In a tick the functional CPU sends a packet, every stage steps once, in an order that is the simulator's, and the pipe
registers are synchronised. `isStalled` is true exactly while a register holds a packet that has not been popped.

* `Pipeline.tick` : the machine;
* `Unhindered` : no transfer is taken, and no instruction reads what one of the three before it writes;
* `Flowing` : the pipeline full of such instructions, `flowing_step` : a tick in which the stages step downstream first;
* `arrivals_of_unhindered` : an instruction for every tick from the fifth on.
-/

namespace SocModel.Stage5

open Lib

/-- What is left to the simulator in a tick. -/
structure Tick where
  /-- The order in which the stages step. -/
  order : List Stage
  /-- What the recycle container hands out for the CPU's packet. -/
  object : Nat

/-- The order in which no stage finds its output register full that is emptied in the same tick. -/
def downstreamFirst : List Stage := [.WB, .MEM, .EXE, .ID, .IF]

namespace Pipeline

/-- The step of a stage that is told the truth about its input and output. -/
def act (s : Pipeline) : Stage → StageAct
  | .IF => .stepIF (!s.port.isEmpty) (!s.prIF2ID.held.isEmpty)
  | .ID => .stepID (!s.prID2EXE.held.isEmpty)
  | .EXE => .stepEXE (!s.prEXE2MEM.held.isEmpty)
  | .MEM => .stepMEM (!s.prMEM2WB.held.isEmpty)
  | .WB => .stepWB

def stepStage (s : Pipeline) (x : Stage) : Outcome Fault Pipeline := s.step (s.act x)

/-- The CPU executes its next instruction, unless that was `HCF`, and the port takes the packet. -/
def supply (object : Nat) (s : Pipeline) : Outcome Fault Pipeline :=
  if s.cpu.events = 0 then .next s else s.step (.exec true object)

def tick (s : Pipeline) (t : Tick) : Outcome Fault Pipeline :=
  (s.supply t.object).bind fun s => (run stepStage s t.order).bind fun s => s.step .sync

end Pipeline

/-- The 5-stage model with a clock; an instruction arrives when WBStage takes its packet. -/
abbrev timedTick : Timed Pipeline → Tick → Outcome Fault (Timed Pipeline) :=
  Timed.step (·.recycled.length) Pipeline.tick

/-- Nothing in the instructions executed holds the pipeline up. -/
structure Unhindered (executed : List InstPacket) : Prop where
  notTaken : ∀ p ∈ executed, p.isTakenBranch = false
  independent : ∀ k j p q, executed[k]? = some p → executed[j]? = some q → j < k → k ≤ j + 3 →
    dependsOn p.inst q.inst = false

instance (executed : List InstPacket) : Decidable (Unhindered executed) :=
  decidable_of_iff ((∀ p ∈ executed, p.isTakenBranch = false) ∧ ∀ k < executed.length, ∀ j < k, k ≤ j + 3 →
      (executed[k]?.any fun p => executed[j]?.any fun q => dependsOn p.inst q.inst) = false)
    ⟨fun h => ⟨h.1, fun k j p q hp hq hj hd => by
        have := h.2 k (List.getElem?_eq_some_iff.mp hp).1 j hj hd
        simpa [hp, hq] using this⟩,
      fun h => ⟨h.notTaken, fun k hk j hj hd => by
        have := h.independent k j _ _ (List.getElem?_eq_getElem hk) (List.getElem?_eq_getElem (Nat.lt_trans hj hk)) hj hd
        simpa [hk, Nat.lt_trans hj hk] using this⟩⟩

/-! ## The steps of a tick -/

section

variable {s : Pipeline} {o : Option Ptr}

/-! A stage with nothing at its input does nothing; one with a packet and an empty output register sends it on. -/

theorem stepWB_eq (hr : s.prMEM2WB = ⟨o.toList, []⟩) : s.stepWB =
    { s with prMEM2WB := {}, acquired := (o.map fun p => s.acquired.erase p.object).getD s.acquired,
             recycled := s.recycled ++ o.toList, retired := s.retired ++ (o.map fun p => p.deref s.heap).toList } := by
  cases s
  subst hr
  rcases o with _ | p
  · simp [Pipeline.stepWB]
  · rfl

theorem stepMEM_eq (hr : s.prEXE2MEM = ⟨o.toList, []⟩) (ho : s.prMEM2WB = {})
    (hgo : ∀ p ∈ o, s.memStage.step s.heap p false = (s.memStage.instPacketHandler p, true)) :
    s.stepMEM (!s.prMEM2WB.held.isEmpty) =
      { s with memStage := (o.map s.memStage.instPacketHandler).getD s.memStage, prEXE2MEM := {},
               prMEM2WB := ⟨[], o.toList⟩ } := by
  cases s
  subst hr ho
  rcases o with _ | p
  · rfl
  · have hgo := hgo p rfl
    simp only [Pipeline.stepMEM, Option.toList_some, PipeRegister.held, List.append_nil, List.isEmpty_nil, Bool.not_true]
    dsimp only at hgo
    rw [hgo]
    rfl

theorem stepEXE_eq (hr : s.prID2EXE = ⟨o.toList, []⟩) (ho : s.prEXE2MEM = {})
    (hgo : ∀ p ∈ o, s.exeStage.step s.heap p false = (s.exeStage.instPacketHandler p, true)) :
    s.stepEXE (!s.prEXE2MEM.held.isEmpty) =
      { s with exeStage := (o.map s.exeStage.instPacketHandler).getD s.exeStage, prID2EXE := {},
               prEXE2MEM := ⟨[], o.toList⟩ } := by
  cases s
  subst hr ho
  rcases o with _ | p
  · rfl
  · have hgo := hgo p rfl
    simp only [Pipeline.stepEXE, Option.toList_some, PipeRegister.held, List.append_nil, List.isEmpty_nil, Bool.not_true]
    dsimp only at hgo
    rw [hgo]
    rfl

theorem stepID_eq (hr : s.prIF2ID = ⟨o.toList, []⟩) (ho : s.prID2EXE = {})
    (hgo : ∀ p ∈ o, s.idStage.step s.heap p false = (s.idStage.instPacketHandler p, true)) :
    s.stepID (!s.prID2EXE.held.isEmpty) =
      { s with idStage := (o.map s.idStage.instPacketHandler).getD s.idStage, prIF2ID := {},
               prID2EXE := ⟨[], o.toList⟩ } := by
  cases s
  subst hr ho
  rcases o with _ | p
  · rfl
  · have hgo := hgo p rfl
    simp only [Pipeline.stepID, Option.toList_some, PipeRegister.held, List.append_nil, List.isEmpty_nil, Bool.not_true]
    dsimp only at hgo
    rw [hgo]
    rfl

theorem stepIF_eq (hr : s.port = o.toList) (ho : s.prIF2ID = {})
    (hgo : ∀ p ∈ o, s.ifStage.step s.heap p false = (s.ifStage.instPacketHandler p, true)) :
    s.step (s.act .IF) = .next
      { s with ifStage := (o.map s.ifStage.instPacketHandler).getD s.ifStage, port := [],
               prIF2ID := ⟨[], o.toList⟩ } := by
  cases s
  subst hr ho
  rcases o with _ | p
  · rfl
  · have hgo := hgo p rfl
    simp only [Pipeline.act, Pipeline.step, Pipeline.stepIF, Option.toList_some, PipeRegister.held, List.append_nil,
      List.isEmpty_nil, List.isEmpty_cons, Bool.not_true, Bool.not_false, if_true]
    dsimp only at hgo
    rw [hgo]
    rfl

/-- The stages downstream first, none of them held up: every packet is one register further on. -/
theorem run_downstreamFirst {a b c d x : Option Ptr} (hx : s.port = x.toList) (ha : s.prIF2ID = ⟨a.toList, []⟩)
    (hb : s.prID2EXE = ⟨b.toList, []⟩) (hc : s.prEXE2MEM = ⟨c.toList, []⟩) (hd : s.prMEM2WB = ⟨d.toList, []⟩)
    (hMEM : ∀ p ∈ c, s.memStage.step s.heap p false = (s.memStage.instPacketHandler p, true))
    (hEXE : ∀ p ∈ b, s.exeStage.step s.heap p false = (s.exeStage.instPacketHandler p, true))
    (hID : ∀ p ∈ a, s.idStage.step s.heap p false = (s.idStage.instPacketHandler p, true))
    (hIF : ∀ p ∈ x, s.ifStage.step s.heap p false = (s.ifStage.instPacketHandler p, true)) :
    Reaches Pipeline.stepStage s downstreamFirst
      { s with
        ifStage := (x.map s.ifStage.instPacketHandler).getD s.ifStage
        idStage := (a.map s.idStage.instPacketHandler).getD s.idStage
        exeStage := (b.map s.exeStage.instPacketHandler).getD s.exeStage
        memStage := (c.map s.memStage.instPacketHandler).getD s.memStage
        port := []
        prIF2ID := ⟨[], x.toList⟩
        prID2EXE := ⟨[], a.toList⟩
        prEXE2MEM := ⟨[], b.toList⟩
        prMEM2WB := ⟨[], c.toList⟩
        acquired := (d.map fun p => s.acquired.erase p.object).getD s.acquired
        recycled := s.recycled ++ d.toList
        retired := s.retired ++ (d.map fun p => p.deref s.heap).toList } := by
  refine reaches_cons.mpr ⟨_, congrArg Outcome.next (stepWB_eq hd), ?_⟩
  refine reaches_cons.mpr ⟨_, congrArg Outcome.next (stepMEM_eq (o := c) hc rfl hMEM), ?_⟩
  refine reaches_cons.mpr ⟨_, congrArg Outcome.next (stepEXE_eq (o := b) hb rfl hEXE), ?_⟩
  refine reaches_cons.mpr ⟨_, congrArg Outcome.next (stepID_eq (o := a) ha rfl hID), ?_⟩
  exact Reaches.single (stepIF_eq (o := x) hx rfl hIF)

end

/-! ## Packets by their age -/

/-- Of packets sent one a tick, the one sent `d` ticks before tick `n`. -/
def ago (ps : List Ptr) (n d : Nat) : Option Ptr := if d ≤ n then ps[n - d]? else none

/-- The packets the CPU has sent. -/
def Pipeline.sent (s : Pipeline) : List Ptr := s.recycled ++ s.inFlight

section

variable {ps : List Ptr} {x : Option Ptr} {n d : Nat}

theorem ago_new (hl : ps.length ≤ n) (hx : x.isSome → ps.length = n) : ago (ps ++ x.toList) (n + 1) 1 = x := by
  unfold ago
  rw [if_pos (Nat.le_add_left 1 n), Nat.add_sub_cancel, List.getElem?_append_right hl]
  rcases x with _ | p
  · rfl
  · rw [hx rfl, Nat.sub_self]
    rfl

/-- What was sent earlier is one tick older. -/
theorem ago_succ (hx : x.isSome → ps.length = n) (hd : 0 < d) :
    ago (ps ++ x.toList) (n + 1) (d + 1) = ago ps n d := by
  unfold ago
  rw [Nat.add_sub_add_right]
  by_cases hle : d ≤ n
  · rw [if_pos hle, if_pos (by omega)]
    rcases x with _ | p
    · rw [Option.toList_none, List.append_nil]
    · have := hx rfl
      rw [List.getElem?_append_left (by omega)]
  · rw [if_neg hle, if_neg (by omega)]

theorem isSome_ago_of_le (hl : n ≤ ps.length + 1) (hd : 2 ≤ d) (hle : d ≤ n) : (ago ps n d).isSome = true := by
  unfold ago
  rw [if_pos hle, List.getElem?_eq_getElem (by omega)]
  rfl

theorem ago_eq_none (hd : n < d) : ago ps n d = none := if_neg (by omega)

end

section

variable {imem : Imem} {dmem : BaseMemory} {s : Pipeline} {p q : Ptr} {n d e : Nat}

theorem getElem?_sent_of_ago (hp : ago s.sent n d = some p) : d ≤ n ∧ s.sent[n - d]? = some p := by
  unfold ago at hp
  split at hp
  · next hle => exact ⟨hle, hp⟩
  · cases hp

/-- A packet in flight shows the instruction of its turn. -/
theorem executed_of_ago (h : Delivers imem dmem s) (hp : ago s.sent n d = some p) (hf : p ∈ s.inFlight) :
    s.executed[n - d]? = some (p.deref s.heap) := by
  obtain ⟨hle, hp⟩ := getElem?_sent_of_ago hp
  obtain ⟨hlt, rfl⟩ := List.getElem?_eq_some_iff.mp hp
  have hs : (s.sent[n - d]).serial = n - d := h.line.serial_getElem hlt
  have hv := h.line.deref_eq hf
  rw [hs] at hv
  exact hv

theorem independent_of_ago (h : Delivers imem dmem s) (hc : Unhindered s.executed) (hp : ago s.sent n d = some p)
    (hq : ago s.sent n e = some q) (hpf : p ∈ s.inFlight) (hqf : q ∈ s.inFlight) (hde : d < e) (hle : e ≤ d + 3) :
    dependsOn (p.deref s.heap).inst (q.deref s.heap).inst = false := by
  have hen := (getElem?_sent_of_ago hq).1
  exact hc.independent _ _ _ _ (executed_of_ago h hp hpf) (executed_of_ago h hq hqf) (by omega) (by omega)

end

/-! ## The pipeline full -/

/-- Every register holds the packet of its turn, and every stage that can still get a packet has the pointers to those
in front of it. -/
structure Flowing (imem : Imem) (dmem : BaseMemory) (t : Timed Pipeline) : Prop where
  delivers : Delivers imem dmem t.state
  pending : t.state.pendingInstPacket = none
  port : t.state.port = []
  prIF2ID : t.state.prIF2ID = ⟨(ago t.state.sent t.now 1).toList, []⟩
  prID2EXE : t.state.prID2EXE = ⟨(ago t.state.sent t.now 2).toList, []⟩
  prEXE2MEM : t.state.prEXE2MEM = ⟨(ago t.state.sent t.now 3).toList, []⟩
  prMEM2WB : t.state.prMEM2WB = ⟨(ago t.state.sent t.now 4).toList, []⟩
  ifStage : t.state.sent.length = t.now →
    t.state.ifStage.idInstPacket = ago t.state.sent t.now 1 ∧ t.state.ifStage.exeInstPacket = ago t.state.sent t.now 2 ∧
    t.state.ifStage.memInstPacket = ago t.state.sent t.now 3 ∧ t.state.ifStage.wbInstPacket = ago t.state.sent t.now 4
  idStage : t.state.sent.length = t.now →
    t.state.idStage.exeInstPacket = ago t.state.sent t.now 2 ∧ t.state.idStage.memInstPacket = ago t.state.sent t.now 3 ∧
    t.state.idStage.wbInstPacket = ago t.state.sent t.now 4
  exeStage : t.now ≤ t.state.sent.length + 1 → t.state.exeStage.memInstPacket = ago t.state.sent t.now 3
  length : t.state.sent.length ≤ t.now
  running : t.state.cpu.events ≠ 0 → t.state.sent.length = t.now
  arrivals : t.arrivals = List.range' 4 t.state.recycled.length

section

variable {imem : Imem} {dmem : BaseMemory} {s u : Pipeline} {object : Nat}

/-- What the CPU's part of a tick does: it puts a packet into the port, or has executed `HCF`. -/
structure Supplied (s u : Pipeline) (x : Option Ptr) : Prop where
  port : u.port = s.port ++ x.toList
  inFlight : u.inFlight = s.inFlight ++ x.toList
  stages : (u.ifStage, u.idStage, u.exeStage, u.memStage) = (s.ifStage, s.idStage, s.exeStage, s.memStage)
  registers : (u.prIF2ID, u.prID2EXE, u.prEXE2MEM, u.prMEM2WB) = (s.prIF2ID, s.prID2EXE, s.prEXE2MEM, s.prMEM2WB)
  recycled : u.recycled = s.recycled
  pending : u.pendingInstPacket = none
  running : x.isSome → s.cpu.events ≠ 0
  halted : u.cpu.events ≠ 0 → x.isSome

theorem supply_cases (h : s.supply object = .next u) : (s.cpu.events = 0 ∧ u = s) ∨
    (s.cpu.events ≠ 0 ∧ ∃ i cpu, u = s.issue true object i cpu) := by
  unfold Pipeline.supply at h
  split at h
  · next h0 => exact .inl ⟨h0, (Outcome.next.inj h).symm⟩
  · next h0 =>
    obtain ⟨i, cpu, -, -, -, rfl⟩ := Pipeline.exec_eq_next h
    exact .inr ⟨h0, i, cpu, rfl⟩

theorem supplied_of_supply (hp : s.pendingInstPacket = none) (h : s.supply object = .next u) :
    ∃ x, Supplied s u x := by
  rcases supply_cases h with ⟨h0, rfl⟩ | ⟨h0, i, cpu, rfl⟩
  · exact ⟨none, by simp, by simp, rfl, rfl, rfl, hp, by simp, fun h => absurd h0 h⟩
  · refine ⟨some ⟨object, s.executed.length⟩, rfl, ?_, rfl, rfl, rfl, hp, fun _ => h0, fun _ => rfl⟩
    simp [Pipeline.issue, Pipeline.inFlight, hp, Pipeline.pastIF, Pipeline.pastID, Pipeline.pastEXE]

/-- The stages move packets; they execute nothing. -/
theorem executed_stepStage {y : Stage} (h : s.stepStage y = .next u) : u.executed = s.executed ∧ u.cpu = s.cpu := by
  have hmoves : ∀ {v}, Moves s v → v.executed = s.executed ∧ v.cpu = s.cpu := fun hm =>
    ⟨congrArg Line.issued hm.line, hm.cpu⟩
  cases y with
  | IF =>
    rcases Pipeline.stepIF_eq_next h with hif | rfl
    · exact hmoves (moves_stepIF hif)
    · exact ⟨rfl, rfl⟩
  | ID => exact Outcome.next.inj h ▸ hmoves moves_stepID
  | EXE => exact Outcome.next.inj h ▸ hmoves moves_stepEXE
  | MEM => exact Outcome.next.inj h ▸ hmoves moves_stepMEM
  | WB =>
    obtain rfl : s.stepWB = u := Outcome.next.inj h
    unfold Pipeline.stepWB
    split <;> exact ⟨rfl, rfl⟩

/-- A tick, taken apart. -/
theorem tick_cases {k : Tick} (h : s.tick k = .next u) : ∃ v w, s.supply k.object = .next v ∧
    Reaches Pipeline.stepStage v k.order w ∧ u = w.sync ∧ u.executed = v.executed ∧ u.cpu = v.cpu := by
  obtain ⟨v, hv, h⟩ := Outcome.bind_eq_next.mp h
  obtain ⟨w, hw, h⟩ := Outcome.bind_eq_next.mp h
  obtain rfl := Outcome.next.inj h
  have he : w.executed = v.executed ∧ w.cpu = v.cpu := by
    refine Reaches.inv' (I := fun u => u.executed = v.executed ∧ u.cpu = v.cpu) ?_ hw ⟨rfl, rfl⟩
    rintro s y t ⟨h1, h2⟩ hst
    obtain ⟨h3, h4⟩ := executed_stepStage hst
    exact ⟨h3.trans h1, h4.trans h2⟩
  exact ⟨v, w, hv, hw, rfl, he⟩

theorem delivers_supply (hd : Delivers imem dmem s) (h : s.supply object = .next u) : Delivers imem dmem u := by
  unfold Pipeline.supply at h
  split at h
  · exact Outcome.next.inj h ▸ hd
  · exact delivers_step hd h

theorem delivers_tick {k : Tick} (hd : Delivers imem dmem s) (h : s.tick k = .next u) : Delivers imem dmem u := by
  obtain ⟨v, w, hv, hw, rfl, -, -⟩ := tick_cases h
  have hdw : Delivers imem dmem w :=
    hw.inv' (I := Delivers imem dmem) (fun _ _ _ hd hs => delivers_step hd hs) (delivers_supply hd hv)
  have hsync : w.step .sync = .next w.sync := rfl
  exact delivers_step hdw hsync

variable {t v : Timed Pipeline} {x : Option Ptr} {p : Ptr} {d : Nat}

theorem Supplied.sent (h : Supplied s u x) : u.sent = s.sent ++ x.toList := by
  unfold Pipeline.sent
  rw [h.recycled, h.inFlight, List.append_assoc]

theorem Flowing.isSome_supplied (ht : Flowing imem dmem t) (h : Supplied t.state s x) (hx : x.isSome) :
    t.state.sent.length = t.now :=
  ht.running (h.running hx)

/-- What is at the stages' inputs when they step, by age at the end of the tick. -/
theorem Flowing.inputs (ht : Flowing imem dmem t) (h : Supplied t.state s x) :
    s.port = (ago s.sent (t.now + 1) 1).toList ∧ s.prIF2ID = ⟨(ago s.sent (t.now + 1) 2).toList, []⟩ ∧
    s.prID2EXE = ⟨(ago s.sent (t.now + 1) 3).toList, []⟩ ∧ s.prEXE2MEM = ⟨(ago s.sent (t.now + 1) 4).toList, []⟩ ∧
    s.prMEM2WB = ⟨(ago s.sent (t.now + 1) 5).toList, []⟩ := by
  have hx := ht.isSome_supplied h
  have hr := h.registers
  simp only [Prod.mk.injEq] at hr
  obtain ⟨h1, h2, h3, h4⟩ := hr
  rw [h.sent, ago_new ht.length hx, ago_succ hx (by omega), ago_succ hx (by omega), ago_succ hx (by omega),
    ago_succ hx (by omega), h1, h2, h3, h4, h.port, ht.port]
  exact ⟨rfl, ht.prIF2ID, ht.prID2EXE, ht.prEXE2MEM, ht.prMEM2WB⟩

theorem Flowing.inFlight (ht : Flowing imem dmem t) (h : Supplied t.state s x) : s.inFlight =
    (ago s.sent (t.now + 1) 5).toList ++ (ago s.sent (t.now + 1) 4).toList ++ (ago s.sent (t.now + 1) 3).toList ++
      (ago s.sent (t.now + 1) 2).toList ++ (ago s.sent (t.now + 1) 1).toList := by
  obtain ⟨h1, h2, h3, h4, h5⟩ := ht.inputs h
  unfold Pipeline.inFlight Pipeline.pastIF Pipeline.pastID Pipeline.pastEXE PipeRegister.held
  rw [h1, h2, h3, h4, h5, h.pending]
  simp only [List.append_nil, Option.toList_none]

theorem Flowing.mem_inFlight (ht : Flowing imem dmem t) (h : Supplied t.state s x) (h1 : 1 ≤ d) (h5 : d ≤ 5)
    (hp : ago s.sent (t.now + 1) d = some p) : p ∈ s.inFlight := by
  rw [ht.inFlight h]
  obtain rfl | rfl | rfl | rfl | rfl : d = 1 ∨ d = 2 ∨ d = 3 ∨ d = 4 ∨ d = 5 := by omega
  all_goals simp [hp]

theorem Flowing.isSome_of_ago (ht : Flowing imem dmem t) (h : Supplied t.state s x)
    (hp : ago s.sent (t.now + 1) 1 = some p) : x.isSome = true := by
  rw [h.sent, ago_new ht.length (ht.isSome_supplied h)] at hp
  rw [hp]
  rfl

/-- A packet that is still to pass a stage was one of the last. -/
theorem Flowing.now_le_of_ago (ht : Flowing imem dmem t) (h : Supplied t.state s x) {e : Nat}
    (hp : ago s.sent (t.now + 1) (e + 2) = some p) : t.now ≤ t.state.sent.length + e := by
  rw [h.sent, ago_succ (ht.isSome_supplied h) (by omega)] at hp
  obtain ⟨hle, hp⟩ := getElem?_sent_of_ago hp
  obtain ⟨hlt, -⟩ := List.getElem?_eq_some_iff.mp hp
  omega

theorem Flowing.ifStage_eq (ht : Flowing imem dmem t) (h : Supplied t.state s x)
    (hl : t.state.sent.length = t.now) :
    s.ifStage.idInstPacket = ago s.sent (t.now + 1) 2 ∧ s.ifStage.exeInstPacket = ago s.sent (t.now + 1) 3 ∧
    s.ifStage.memInstPacket = ago s.sent (t.now + 1) 4 ∧ s.ifStage.wbInstPacket = ago s.sent (t.now + 1) 5 := by
  have hs := h.stages
  simp only [Prod.mk.injEq] at hs
  have hx := ht.isSome_supplied h
  rw [hs.1, h.sent, ago_succ hx (by omega), ago_succ hx (by omega), ago_succ hx (by omega), ago_succ hx (by omega)]
  exact ht.ifStage hl

theorem Flowing.idStage_eq (ht : Flowing imem dmem t) (h : Supplied t.state s x)
    (hl : t.state.sent.length = t.now) :
    s.idStage.exeInstPacket = ago s.sent (t.now + 1) 3 ∧ s.idStage.memInstPacket = ago s.sent (t.now + 1) 4 ∧
    s.idStage.wbInstPacket = ago s.sent (t.now + 1) 5 := by
  have hs := h.stages
  simp only [Prod.mk.injEq] at hs
  have hx := ht.isSome_supplied h
  rw [hs.2.1, h.sent, ago_succ hx (by omega), ago_succ hx (by omega), ago_succ hx (by omega)]
  exact ht.idStage hl

theorem Flowing.exeStage_eq (ht : Flowing imem dmem t) (h : Supplied t.state s x)
    (hl : t.now ≤ t.state.sent.length + 1) : s.exeStage.memInstPacket = ago s.sent (t.now + 1) 4 := by
  have hs := h.stages
  simp only [Prod.mk.injEq] at hs
  rw [hs.2.2.1, h.sent, ago_succ (ht.isSome_supplied h) (by omega)]
  exact ht.exeStage hl

section

variable (ht : Flowing imem dmem t) (h : Supplied t.state s x) (hd : Delivers imem dmem s)
  (hc : Unhindered s.executed) (hm : ∀ p ∈ s.executed, p.inst.op.isMem = false)

include ht h hd hm in
theorem Flowing.not_mem (h1 : 1 ≤ d) (h5 : d ≤ 5) (hp : ago s.sent (t.now + 1) d = some p) :
    (p.deref s.heap).inst.op.isMem = false :=
  hm _ (List.mem_of_getElem? (executed_of_ago hd hp (ht.mem_inFlight h h1 h5 hp)))

include ht h hd hc in
theorem Flowing.independent {q : Ptr} {e : Nat} (h1 : 1 ≤ d) (h5 : e ≤ 5) (hde : d < e) (hle : e ≤ d + 3)
    (hp : ago s.sent (t.now + 1) d = some p) (hq : ago s.sent (t.now + 1) e = some q) :
    dependsOn (p.deref s.heap).inst (q.deref s.heap).inst = false :=
  independent_of_ago hd hc hp hq (ht.mem_inFlight h h1 (by omega) hp) (ht.mem_inFlight h (by omega) h5 hq) hde hle

/-! No stage is held up. -/

include ht h hd hm in
theorem Flowing.sends_MEM (hp : ago s.sent (t.now + 1) 4 = some p) :
    s.memStage.step s.heap p false = (s.memStage.instPacketHandler p, true) :=
  MEMStage.step_of_free (ht.not_mem h hd hm (by omega) (by omega) hp)

include ht h hd hm in
theorem Flowing.sends_EXE (hp : ago s.sent (t.now + 1) 3 = some p) :
    s.exeStage.step s.heap p false = (s.exeStage.instPacketHandler p, true) := by
  have h1 := ht.exeStage_eq h (ht.now_le_of_ago h hp)
  refine EXEStage.step_of_free ?_
  intro q hq
  exact ht.not_mem h hd hm (by omega) (by omega) (h1 ▸ hq)

include ht h hd hc hm in
theorem Flowing.sends_ID (hp : ago s.sent (t.now + 1) 2 = some p) :
    s.idStage.step s.heap p false = (s.idStage.instPacketHandler p, true) := by
  obtain ⟨h1, h2, h3⟩ := ht.idStage_eq h (Nat.le_antisymm ht.length (ht.now_le_of_ago h hp))
  refine IDStage.step_of_free ?_ ?_ ?_ ?_ <;> intro q hq
  · exact ht.independent h hd hc (by omega) (by omega) (by omega) (by omega) hp (h1 ▸ hq)
  · exact ht.independent h hd hc (by omega) (by omega) (by omega) (by omega) hp (h2 ▸ hq)
  · exact ht.independent h hd hc (by omega) (by omega) (by omega) (by omega) hp (h3 ▸ hq)
  · exact ht.not_mem h hd hm (by omega) (by omega) (h2 ▸ hq)

include ht h hd hc hm in
theorem Flowing.sends_IF (hp : ago s.sent (t.now + 1) 1 = some p) :
    s.ifStage.step s.heap p false = (s.ifStage.instPacketHandler p, true) := by
  obtain ⟨h1, h2, h3, h4⟩ := ht.ifStage_eq h (ht.isSome_supplied h (ht.isSome_of_ago h hp))
  refine IFStage.step_of_free ?_ ?_ ?_ ?_ ?_
  · intro i hi q hq
    exact ht.independent h hd hc (by omega) (by omega) (by omega) (by omega) (h1 ▸ hi) (h2 ▸ hq)
  · intro i hi q hq
    exact ht.independent h hd hc (by omega) (by omega) (by omega) (by omega) (h1 ▸ hi) (h3 ▸ hq)
  · intro i hi q hq
    exact ht.independent h hd hc (by omega) (by omega) (by omega) (by omega) (h1 ▸ hi) (h4 ▸ hq)
  · intro q hq
    exact ht.not_mem h hd hm (by omega) (by omega) (h3 ▸ hq)
  · intro q hq
    have hq3 : ago s.sent (t.now + 1) 3 = some q := h2 ▸ hq
    exact hc.notTaken _ (List.mem_of_getElem? (executed_of_ago hd hq3 (ht.mem_inFlight h (by omega) (by omega) hq3)))

end

/-! The pointers the stages are left with. -/

theorem Flowing.length_supplied (ht : Flowing imem dmem t) (h : Supplied t.state s x) :
    s.sent.length ≤ t.now + 1 := by
  have hl := ht.length
  rw [h.sent, List.length_append]
  rcases x with _ | y
  · rw [Option.toList_none, List.length_nil]
    omega
  · rw [Option.toList_some, List.length_singleton]
    omega

theorem Flowing.ifStage_after (ht : Flowing imem dmem t) (h : Supplied t.state s x)
    (hl : s.sent.length = t.now + 1) {f : IFStage}
    (hf : f = ((ago s.sent (t.now + 1) 1).map s.ifStage.instPacketHandler).getD s.ifStage) :
    f.idInstPacket = ago s.sent (t.now + 1) 1 ∧ f.exeInstPacket = ago s.sent (t.now + 1) 2 ∧
    f.memInstPacket = ago s.sent (t.now + 1) 3 ∧ f.wbInstPacket = ago s.sent (t.now + 1) 4 := by
  have hlen := ht.length
  rcases x with _ | y
  · rw [h.sent, Option.toList_none, List.append_nil] at hl
    omega
  · have hn := ht.isSome_supplied h rfl
    obtain ⟨h1, h2, h3, -⟩ := ht.ifStage_eq h hn
    have hy : ago s.sent (t.now + 1) 1 = some y := by
      rw [h.sent, ago_new ht.length (fun _ => hn)]
    rw [hy] at hf ⊢
    subst hf
    exact ⟨rfl, h1, h2, h3⟩

theorem Flowing.idStage_after (ht : Flowing imem dmem t) (h : Supplied t.state s x)
    (hl : s.sent.length = t.now + 1) {d : IDStage}
    (hf : d = ((ago s.sent (t.now + 1) 2).map s.idStage.instPacketHandler).getD s.idStage) :
    d.exeInstPacket = ago s.sent (t.now + 1) 2 ∧ d.memInstPacket = ago s.sent (t.now + 1) 3 ∧
    d.wbInstPacket = ago s.sent (t.now + 1) 4 := by
  have hlen := ht.length
  have hn : t.state.sent.length = t.now := by
    rcases x with _ | y
    · rw [h.sent, Option.toList_none, List.append_nil] at hl
      omega
    · exact ht.isSome_supplied h rfl
  obtain ⟨h1, h2, h3⟩ := ht.idStage_eq h hn
  rcases ha : ago s.sent (t.now + 1) 2 with _ | p
  · have h0 : t.now + 1 < 2 := by
      by_contra hge
      have hsome : (ago s.sent (t.now + 1) 2).isSome = true := isSome_ago_of_le (by omega) (by omega) (by omega)
      rw [ha] at hsome
      cases hsome
    rw [ha] at hf
    subst hf
    rw [ago_eq_none (by omega)] at h1 h2 h3
    rw [ago_eq_none (by omega), ago_eq_none (by omega)]
    exact ⟨h1, h2, h3⟩
  · rw [ha] at hf
    subst hf
    exact ⟨rfl, h1, h2⟩

theorem Flowing.exeStage_after (ht : Flowing imem dmem t) (h : Supplied t.state s x)
    (hl : t.now ≤ s.sent.length) {e : EXEStage}
    (hf : e = ((ago s.sent (t.now + 1) 3).map s.exeStage.instPacketHandler).getD s.exeStage) :
    e.memInstPacket = ago s.sent (t.now + 1) 3 := by
  have hlen := ht.length
  have hn : t.now ≤ t.state.sent.length + 1 := by
    rcases x with _ | y
    · rw [h.sent, Option.toList_none, List.append_nil] at hl
      omega
    · have := ht.isSome_supplied h rfl
      omega
  have h1 := ht.exeStage_eq h hn
  rcases hb : ago s.sent (t.now + 1) 3 with _ | p
  · have h0 : t.now + 1 < 3 := by
      by_contra hge
      have hsome : (ago s.sent (t.now + 1) 3).isSome = true := isSome_ago_of_le (by omega) (by omega) (by omega)
      rw [hb] at hsome
      cases hsome
    rw [hb] at hf
    subst hf
    rw [ago_eq_none (by omega)] at h1
    exact h1
  · rw [hb] at hf
    subst hf
    rfl

/-- The packet WBStage takes was sent four ticks ago. -/
theorem Flowing.now_of_oldest (ht : Flowing imem dmem t) (h : Supplied t.state s x)
    (hp : ago s.sent (t.now + 1) 5 = some p) : t.now = 4 + t.state.recycled.length := by
  rw [h.sent, ago_succ (ht.isSome_supplied h) (by omega)] at hp
  have hreg : t.state.prMEM2WB.shown = [p] := by
    rw [ht.prMEM2WB, hp]
    rfl
  have hfirst : t.state.sent[t.state.recycled.length]? = some p := by
    unfold Pipeline.sent Pipeline.inFlight Pipeline.pastIF Pipeline.pastID Pipeline.pastEXE
    rw [List.getElem?_append_right (Nat.le_refl _), Nat.sub_self, PipeRegister.held_eq_cons hreg]
    rfl
  obtain ⟨hle, hp⟩ := getElem?_sent_of_ago hp
  obtain ⟨hlt, rfl⟩ := List.getElem?_eq_some_iff.mp hp
  obtain ⟨hlt', he⟩ := List.getElem?_eq_some_iff.mp hfirst
  have hs := ht.delivers.line.serial_getElem hlt
  have hs' := ht.delivers.line.serial_getElem hlt'
  have heq := congrArg Ptr.serial he
  have : t.state.recycled.length = t.now - 4 := (hs'.symm.trans heq).trans hs
  omega

/-- **One tick**, the stages stepping downstream first. -/
theorem flowing_step {k : Tick} (ht : Flowing imem dmem t) (ho : k.order = downstreamFirst)
    (hv : timedTick t k = .next v) (hc : Unhindered v.state.executed)
    (hm : ∀ p ∈ v.state.executed, p.inst.op.isMem = false) : Flowing imem dmem v := by
  obtain ⟨hs, hnow, harr⟩ := Timed.step_eq_next hv
  have hdv := delivers_tick ht.delivers hs
  obtain ⟨s, r, hsup, hrun, hr, hex, -⟩ := tick_cases hs
  obtain ⟨x, h⟩ := supplied_of_supply ht.pending hsup
  have hd : Delivers imem dmem s := delivers_supply ht.delivers hsup
  rw [hex] at hc hm
  obtain ⟨h1, h2, h3, h4, h5⟩ := ht.inputs h
  have hrun' := run_downstreamFirst h1 h2 h3 h4 h5 (fun _ => ht.sends_MEM h hd hm) (fun _ => ht.sends_EXE h hd hm)
    (fun _ => ht.sends_ID h hd hc hm) (fun _ => ht.sends_IF h hd hc hm)
  rw [ho] at hrun
  obtain rfl := Outcome.next.inj (hrun.symm.trans hrun')
  have hsent : v.state.sent = s.sent := by
    unfold Pipeline.sent
    rw [ht.inFlight h, hr]
    simp only [Pipeline.inFlight, Pipeline.pastIF, Pipeline.pastID, Pipeline.pastEXE, Pipeline.sync, PipeRegister.sync,
      PipeRegister.held, h.pending, List.append_nil, List.nil_append, Option.toList_none, List.append_assoc]
  have hlen : s.sent.length = t.state.sent.length + x.toList.length := by
    rw [h.sent, List.length_append]
  have hx := ht.isSome_supplied h
  refine ⟨hdv, by rw [hr]; exact h.pending, by rw [hr]; rfl, ?_, ?_, ?_, ?_, ?_, ?_, ?_, ?_, ?_, ?_⟩
  · rw [hsent, hnow, hr]
    rfl
  · rw [hsent, hnow, hr]
    rfl
  · rw [hsent, hnow, hr]
    rfl
  · rw [hsent, hnow, hr]
    rfl
  · rw [hsent, hnow, hr]
    exact fun hl => ht.ifStage_after h hl rfl
  · rw [hsent, hnow, hr]
    exact fun hl => ht.idStage_after h hl rfl
  · rw [hsent, hnow, hr]
    exact fun hl => ht.exeStage_after h (by omega) rfl
  · rw [hsent, hnow]
    exact ht.length_supplied h
  · rw [hsent, hnow, hr]
    intro he
    have hxs := h.halted he
    obtain ⟨y, rfl⟩ := Option.isSome_iff_exists.mp hxs
    rw [hlen, hx hxs]
    rfl
  · rw [harr, ht.arrivals, hr]
    show _ ++ List.replicate ((s.recycled ++ (ago s.sent (t.now + 1) 5).toList).length - _) _ =
      List.range' 4 (s.recycled ++ (ago s.sent (t.now + 1) 5).toList).length
    rw [List.length_append, h.recycled, Nat.add_sub_cancel_left]
    rcases h5 : ago s.sent (t.now + 1) 5 with _ | p
    · exact List.append_nil _
    · have hage := ht.now_of_oldest h h5
      show _ ++ [t.now] = List.range' 4 (t.state.recycled.length + 1)
      rw [List.range'_concat, Nat.one_mul, hage, Nat.add_comm]

end

/-! ## The instructions executed -/

/-- The instructions in a row from address 0 on, and `HCF` the last if it is there. -/
structure Sequential (s : Pipeline) : Prop where
  pc : ∀ k p, s.executed[k]? = some p → p.pc = BitVec.ofNat 32 (4 * k)
  next : s.cpu.pc = BitVec.ofNat 32 (4 * s.executed.length)
  hcf : ∀ k p, s.executed[k]? = some p → k + 1 < s.executed.length → p.inst.op ≠ .HCF

section

variable {imem : Imem} {dmem : BaseMemory} {s u : Pipeline} {object : Nat} {k : Tick}

theorem executed_prefix_supply (h : s.supply object = .next u) : s.executed <+: u.executed := by
  rcases supply_cases h with ⟨-, rfl⟩ | ⟨-, i, cpu, rfl⟩
  · exact List.prefix_rfl
  · exact ⟨_, rfl⟩

theorem executed_prefix_tick (h : s.tick k = .next u) : s.executed <+: u.executed := by
  obtain ⟨v, w, hv, -, -, he, -⟩ := tick_cases h
  exact he ▸ executed_prefix_supply hv

theorem getElem?_mono {xs ys : List InstPacket} {j : Nat} {p : InstPacket} (hp : xs <+: ys)
    (hj : xs[j]? = some p) : ys[j]? = some p := by
  obtain ⟨hlt, rfl⟩ := List.getElem?_eq_some_iff.mp hj
  exact List.prefix_iff_getElem?.mp hp j hlt

theorem Unhindered.mono {xs ys : List InstPacket} (h : Unhindered ys) (hp : xs <+: ys) : Unhindered xs := by
  refine ⟨fun p hx => h.notTaken p (hp.subset hx), fun k j p q hk hj => ?_⟩
  exact h.independent k j p q (getElem?_mono hp hk) (getElem?_mono hp hj)

theorem sequential_init (imem : Imem) (dmem : BaseMemory) : Sequential (.init imem dmem) :=
  ⟨fun _ _ h => (by cases h), rfl, fun _ _ h => (by cases h)⟩

/-- While a call is scheduled the last instruction was not `HCF`. -/
theorem hcf_of_events (hd : Delivers imem dmem s) (he : s.cpu.events ≠ 0) {p : InstPacket}
    (hp : s.executed.getLast? = some p) : p.inst.op ≠ .HCF := by
  have hh := (hd.cpu.ready he).1
  unfold Arch.halted State.arch at hh
  rw [← hd.executed, List.getLast?_map, hp] at hh
  simpa using hh

theorem getElem?_concat_cases {xs : List InstPacket} {x p : InstPacket} {j : Nat} (h : (xs ++ [x])[j]? = some p) :
    xs[j]? = some p ∨ (j = xs.length ∧ p = x) := by
  rcases Nat.lt_trichotomy j xs.length with hlt | rfl | hgt
  · rw [List.getElem?_append_left hlt] at h
    exact .inl h
  · rw [List.getElem?_concat_length] at h
    exact .inr ⟨rfl, (Option.some.inj h).symm⟩
  · rw [List.getElem?_eq_none (by rw [List.length_append, List.length_singleton]; omega)] at h
    cases h

theorem sequential_supply (hd : Delivers imem dmem s) (hs : Sequential s) (h : s.supply object = .next u)
    (ht : ∀ p ∈ u.executed, p.isTakenBranch = false) : Sequential u := by
  rcases supply_cases h with ⟨-, rfl⟩ | ⟨h0, i, cpu, rfl⟩
  · exact hs
  · have hx : (s.issue true object i cpu).executed = s.executed ++ [⟨i, s.cpu.pc, cpu.pc != s.cpu.pc + 4⟩] := rfl
    have hpc : cpu.pc = s.cpu.pc + 4 := by
      have := ht _ (hx ▸ List.mem_append_right _ (List.mem_singleton_self _))
      simpa using this
    refine ⟨fun k p hp => ?_, ?_, fun k p hp hk => ?_⟩
    · rcases getElem?_concat_cases (hx ▸ hp) with hp | ⟨rfl, rfl⟩
      · exact hs.pc k p hp
      · exact hs.next
    · show cpu.pc = _
      rw [hpc, hs.next, hx, List.length_append]
      show BitVec.ofNat 32 _ + BitVec.ofNat 32 4 = _
      rw [← BitVec.ofNat_add]
      rfl
    · rw [hx, List.length_append, List.length_singleton] at hk
      rcases getElem?_concat_cases (hx ▸ hp) with hp | ⟨rfl, -⟩
      · by_cases hlast : k + 1 = s.executed.length
        · refine hcf_of_events hd h0 ?_
          rw [List.getLast?_eq_getElem?, ← hlast, Nat.add_sub_cancel, hp]
        · exact hs.hcf k p hp (by omega)
      · omega

theorem sequential_tick (hd : Delivers imem dmem s) (hs : Sequential s) (h : s.tick k = .next u)
    (ht : ∀ p ∈ u.executed, p.isTakenBranch = false) : Sequential u := by
  obtain ⟨v, w, hv, -, -, he, hcpu⟩ := tick_cases h
  rw [he] at ht
  obtain ⟨h1, h2, h3⟩ := sequential_supply hd hs hv ht
  exact ⟨fun k p hp => h1 k p (he ▸ hp), by rw [he, hcpu, h2], fun k p hp hk => h3 k p (he ▸ hp) (he ▸ hk)⟩

end

/-! ## Runs -/

section

variable {imem : Imem} {dmem : BaseMemory} {ks : List Tick} {t : Timed Pipeline}

theorem flowing_init (imem : Imem) (dmem : BaseMemory) : Flowing imem dmem ⟨.init imem dmem, 0, []⟩ where
  delivers := delivers_init imem dmem
  pending := rfl
  port := rfl
  prIF2ID := rfl
  prID2EXE := rfl
  prEXE2MEM := rfl
  prMEM2WB := rfl
  ifStage _ := ⟨rfl, rfl, rfl, rfl⟩
  idStage _ := ⟨rfl, rfl, rfl⟩
  exeStage _ := rfl
  length := Nat.le_refl 0
  running _ := rfl
  arrivals := rfl

theorem delivers_of_ticks (hr : Reaches timedTick ⟨.init imem dmem, 0, []⟩ ks t) : Delivers imem dmem t.state :=
  (Timed.reaches_state hr).inv' (I := Delivers imem dmem) (fun _ _ _ hd hk => delivers_tick hd hk)
    (delivers_init imem dmem)

theorem sequential_of_ticks (hr : Reaches timedTick ⟨.init imem dmem, 0, []⟩ ks t)
    (hc : ∀ p ∈ t.state.executed, p.isTakenBranch = false) : Sequential t.state := by
  have hinv : Delivers imem dmem t.state ∧
      ((∀ p ∈ t.state.executed, p.isTakenBranch = false) → Sequential t.state) := by
    refine (Timed.reaches_state hr).inv' (I := fun s => Delivers imem dmem s ∧
      ((∀ p ∈ s.executed, p.isTakenBranch = false) → Sequential s)) ?_ ?_
    · rintro s k u ⟨hd, hs⟩ hk
      refine ⟨delivers_tick hd hk, fun hc => sequential_tick hd (hs fun p hp => hc p ?_) hk hc⟩
      exact (executed_prefix_tick hk).subset hp
    · exact ⟨delivers_init imem dmem, fun _ => sequential_init imem dmem⟩
  exact hinv.2 hc

/-- No more packets have arrived than were sent. -/
theorem length_recycled_le (hr : Reaches timedTick ⟨.init imem dmem, 0, []⟩ ks t) :
    t.state.recycled.length ≤ t.state.executed.length := by
  have hl := (delivers_of_ticks hr).line
  have hp := hl.retired_prefix_issued.length_le
  rw [hl.length] at hp
  exact hp

/-- **A packet for every tick.** Stages that step downstream first, and instructions that hold nothing up: WBStage takes
the first packet in the fifth tick, and from then on one in every tick. -/
theorem arrivals_of_unhindered (hr : Reaches timedTick ⟨.init imem dmem, 0, []⟩ ks t)
    (ho : ∀ k ∈ ks, k.order = downstreamFirst) (hc : Unhindered t.state.executed)
    (hm : ∀ p ∈ t.state.executed, p.inst.op.isMem = false) :
    t.arrivals = List.range' 4 t.state.recycled.length := by
  have hflow : (Unhindered t.state.executed ∧ ∀ p ∈ t.state.executed, p.inst.op.isMem = false) →
      Flowing imem dmem t := by
    refine hr.inv (C := fun _ k => k.order = downstreamFirst) (I := fun t =>
      (Unhindered t.state.executed ∧ ∀ p ∈ t.state.executed, p.inst.op.isMem = false) → Flowing imem dmem t) ?_
      (Along.of_mem (fun k hk _ => ho k hk) _) fun _ => flowing_init imem dmem
    rintro t k u hi hk hs ⟨hc, hm⟩
    have hp := executed_prefix_tick (Timed.step_eq_next hs).1
    exact flowing_step (hi ⟨hc.mono hp, fun p hx => hm p (hp.subset hx)⟩) hk hs hc hm
  exact (hflow ⟨hc, hm⟩).arrivals

end

end SocModel.Stage5
