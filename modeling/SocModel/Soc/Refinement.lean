import Mathlib.Order.WellFounded
import SocModel.DataMem.Forward
import SocModel.Soc.CpuMemory
import SocModel.Stage5.Refinement

/-!
# The bus-based CPU refines the functional one

Both CPUs are compared with the instruction-level machine. The CPU on the bus executes what the functional CPU executes,
with equal registers and `pc` whenever no instruction is under way, and its data memory is equal once the stores on their
way have landed.

* `Sim.step_cases` : an action keeps the simulation or advances the machine by one instruction;
* `rank` : what is left to do, `catches_up` : the CPU on the bus gets to every state of the machine;
* `refines` : the two CPUs.
-/

namespace SocModel.Soc

open Lib Bus

section

variable {lat : Nat} {imem : Imem} {dmem : BaseMemory} {a b : Arch} {s t : CpuMemory}

/-! ## One action -/

theorem onDm_blocked {act : DataMem.Act} (h : DataMem.step lat s.dm act = .blocked) : s.onDm lat act = .blocked := by
  unfold CpuMemory.onDm
  rw [h]
  rfl

/-- What waits in the data memory can be served. -/
theorem Sim.serves (h : Sim lat imem a s) :
    ∀ b ∈ DataMem.pendingBeats s.dm.events, ∃ m x, DataMem.serveBeat b s.dm.base = .ok (m, x) := by
  intro b hb
  obtain ⟨x, hx, -⟩ := serveBeat_land (h.inRange b.req (List.mem_append_left _ (List.mem_map_of_mem hb)))
  exact ⟨_, x, hx⟩

/-- What the data memory does without a request keeps the simulation. -/
theorem Sim.dm_cases (h : Sim lat imem a s) {act : DataMem.Act} (hp : act.pops = []) :
    s.onDm lat act = .blocked ∨ ∃ t, s.onDm lat act = .next t ∧ Sim lat imem a t := by
  rcases act with ⟨port, _ | p⟩ | ⟨k, port⟩ | port | _
  · rcases hst : s.dm.stepped with _ | _
    · exact .inr (h.dmStep port hst)
    · exact .inl (onDm_blocked (if_pos hst))
  · cases hp
  · rcases hk : s.dm.events[k]? with _ | ⟨due, e⟩
    · refine .inl (onDm_blocked ?_)
      simp only [DataMem.step, hk]
    · by_cases hd : due = s.dm.now
      · subst hd
        rcases e with bt | _
        · exact .inr (h.serve port hk)
        · exact .inr (h.send port hk)
      · refine .inl (onDm_blocked ?_)
        simp only [DataMem.step, hk, ne_eq, hd, not_false_eq_true, if_true]
  · exact .inr (h.retry port)
  · by_cases hn : ∀ e ∈ s.dm.events, s.dm.now < e.1
    · exact .inr (h.tick hn)
    · refine .inl (onDm_blocked (if_pos ?_))
      simpa using hn

/-- Each is an action of the two. -/
theorem exists_act (lat : Nat) (s : CpuMemory) {act : DataMem.Act} (hp : act.pops = []) :
    ∃ act', CpuMemory.step lat s act' = s.onDm lat act := by
  rcases act with ⟨port, _ | p⟩ | ⟨k, port⟩ | port | _
  · exact ⟨.dmStep port false, rfl⟩
  · cases hp
  · exact ⟨.event k port, rfl⟩
  · exact ⟨.retry port, rfl⟩
  · exact ⟨.tick, rfl⟩

/-- What the program may do at `a`. -/
structure Allowed (imem : Imem) (a : Arch) : Prop where
  shared : ∀ i, imem.fetch (a.pc.toNat / 4) = .ok i → Shared i.op
  accesses : a.halted = false → ∀ i e, imem.fetch (a.pc.toNat / 4) = .ok i → execBase i a.pc a.rf = .ok e →
    Accesses a.dmem.size i.op e

/-- **One action.** It is not enabled, or keeps the simulation, or is an instruction of the machine, or faults where the
machine faults. -/
theorem Sim.step_cases (h : Sim lat imem a s) (hal : Allowed imem a) (act : CpuMemory.Act) :
    CpuMemory.step lat s act = .blocked ∨
      (∃ t, CpuMemory.step lat s act = .next t ∧
        (Sim lat imem a t ∨ ∃ b, a.step imem = .next b ∧ Sim lat imem b t)) ∨
      ∃ e, CpuMemory.step lat s act = .fault e ∧ a.halted = false ∧ a.exec imem = .error e := by
  have hdm : ∀ act : DataMem.Act, act.pops = [] → s.onDm lat act = .blocked ∨
      ∃ t, s.onDm lat act = .next t ∧ (Sim lat imem a t ∨ ∃ b, a.step imem = .next b ∧ Sim lat imem b t) :=
    fun act hp => (h.dm_cases hp).imp_right fun ⟨t, ht, hsim⟩ => ⟨t, ht, .inl hsim⟩
  cases act with
  | exec =>
    by_cases he : s.cpu.events = 0
    · refine .inl ?_
      dsimp only [CpuMemory.step, Cpu.step]
      rw [if_pos he]
      rfl
    · have hh := (h.ready he).2
      rcases h.exec he hal.shared (hal.accesses hh) with ⟨t, hst, ⟨b, hb, ht, -⟩ | ⟨ha, -⟩⟩ | ⟨e, hst, hx⟩
      · exact .inr (.inl ⟨t, hst, .inr ⟨b, hb, ht⟩⟩)
      · exact .inr (.inl ⟨t, hst, .inl ha⟩)
      · exact .inr (.inr ⟨e, hst, hh, hx⟩)
  | receive =>
    rcases hp : s.responses with _ | ⟨p, ps⟩
    · refine .inl ?_
      dsimp only [CpuMemory.step]
      rw [hp]
    · rcases hw : isWriteResp p with _ | _
      · rcases h.phase with hr | ⟨q, hl⟩
        · have := hr.answers p (answers_tail hp ▸ List.mem_cons_self)
          rw [hw] at this
          cases this
        · rcases h.receiveRead hl hp hw with ⟨t, b, hst, hb, ht, -⟩ | ⟨e, hst, hx⟩
          · exact .inr (.inl ⟨t, hst, .inr ⟨b, hb, ht⟩⟩)
          · exact .inr (.inr ⟨e, hst, hl.halted, hx⟩)
      · rcases p with q | q | q | q
        · cases hw
        · cases hw
        · cases hw
        · obtain ⟨hst, hsim⟩ := h.receiveWrite hp
          exact .inr (.inl ⟨_, hst, .inl hsim⟩)
  | dmStep port arrives =>
    rcases arrives with _ | _
    · exact (hdm (.dmStep port none) rfl).imp_right .inl
    rcases hp : s.requests with _ | ⟨p, ps⟩
    · refine .inl ?_
      dsimp only [CpuMemory.step]
      rw [hp, if_pos rfl]
    · rcases hst : s.dm.stepped with _ | _
      · obtain ⟨t, ht, hsim⟩ := h.pop port hst hp
        exact .inr (.inl ⟨t, ht, .inl hsim⟩)
      -- no second request is popped in a tick
      · exact .inl ((step_pop lat port hp).trans (onDm_blocked (if_pos hst)))
  | event k port => exact (hdm (.event k port) rfl).imp_right .inl
  | retry port => exact (hdm (.retry port) rfl).imp_right .inl
  | tick => exact (hdm .tick rfl).imp_right .inl

/-! ## What is left to do -/

/-- The packets and events on their way, the earlier ones heavier. -/
def weight (s : CpuMemory) : Nat := 8 * s.requests.length + DataMem.backlog s.dm + s.responses.length

/-- What is left to do on the way to `m` instructions. -/
def rank (m : Nat) (s : CpuMemory) : Nat × Nat × Nat × Nat :=
  (m - s.cpu.commits.length, s.cpu.events, weight s, DataMem.wait s.dm)

/-- The lexicographic order of ranks. -/
abbrev Less : Nat × Nat × Nat × Nat → Nat × Nat × Nat × Nat → Prop :=
  Prod.Lex (· < ·) (Prod.Lex (· < ·) (Prod.Lex (· < ·) (· < ·)))

theorem wellFounded_less : WellFounded Less :=
  WellFounded.prod_lex Nat.lt_wfRel.wf (WellFounded.prod_lex Nat.lt_wfRel.wf
    (WellFounded.prod_lex Nat.lt_wfRel.wf Nat.lt_wfRel.wf))

theorem less_of_commits {m : Nat} (h : m - t.cpu.commits.length < m - s.cpu.commits.length) :
    Less (rank m t) (rank m s) := Prod.Lex.left _ _ h

theorem less_of_events {m : Nat} (hc : t.cpu.commits = s.cpu.commits) (h : t.cpu.events < s.cpu.events) :
    Less (rank m t) (rank m s) := by
  unfold rank
  rw [hc]
  exact Prod.Lex.right _ (Prod.Lex.left _ _ h)

theorem less_of_weight {m : Nat} (hc : t.cpu = s.cpu) (h : weight t < weight s) : Less (rank m t) (rank m s) := by
  unfold rank
  rw [hc]
  exact Prod.Lex.right _ (Prod.Lex.right _ (Prod.Lex.left _ _ h))

/-- The data memory has less to do, whether what it sent is on its way now or only its clock goes on. -/
theorem less_of_lighter {m : Nat} {dm : DataMem.State} (h : DataMem.Lighter s.dm dm) :
    Less (rank m { s with dm, responses := s.responses ++ dm.sent.drop s.dm.sent.length }) (rank m s) := by
  rcases h with hlt | ⟨heq, hsent, hwait⟩
  · refine less_of_weight rfl ?_
    simp only [weight, List.length_append, List.length_drop]
    omega
  · have hw : weight { s with dm, responses := s.responses ++ dm.sent.drop s.dm.sent.length } = weight s := by
      simp only [weight, hsent, List.drop_length, List.append_nil, heq]
    unfold rank
    rw [hw]
    exact Prod.Lex.right _ (Prod.Lex.right _ (Prod.Lex.right _ hwait))

/-! ### Each thing on its way can go on -/

/-- Nothing is on its way. -/
structure Drained (s : CpuMemory) : Prop where
  requests : s.requests = []
  events : s.dm.events = []
  respQ : s.dm.respQ = []
  responses : s.responses = []

theorem Drained.waiting (h : Drained s) : s.waiting = [] := by
  simp [CpuMemory.waiting, DataMem.State.beats, DataMem.pendingBeats, h.requests, h.events]

theorem Drained.answers (h : Drained s) : s.answers = [] := by
  simp [CpuMemory.answers, h.respQ, h.responses]

theorem Drained.ready (h : Drained s) (hs : Sim lat imem a s) : Ready a s := by
  rcases hs.phase with hr | ⟨q, hl⟩
  · exact hr
  · rcases hl.transit with ⟨ws, hw, -⟩ | ⟨ps, v, -, -, ha, -⟩
    · rw [h.waiting] at hw
      simp at hw
    · rw [h.answers] at ha
      simp at ha

/-- A step of the simulation in which the memory side moves on. -/
def MovesOn (lat : Nat) (imem : Imem) (a : Arch) (s : CpuMemory) : Prop :=
  ∃ act t, CpuMemory.step lat s act = .next t ∧ Sim lat imem a t ∧ t.cpu = s.cpu ∧ ∀ m, Less (rank m t) (rank m s)

/-- The data memory, or its clock. -/
theorem movesOn_dm (h : Sim lat imem a s) (hw : s.dm.respQ ≠ [] ∨ s.dm.events ≠ [] ∨ s.dm.stepped = true) :
    MovesOn lat imem a s := by
  obtain ⟨act, dm, hpops, hd, hl⟩ := DataMem.exists_lighter lat h.serial.future h.serves hw
  obtain ⟨act', hact⟩ := exists_act lat s hpops
  have hnext := onDm_next hd
  rcases h.dm_cases hpops with hb | ⟨t, ht, hsim⟩
  · rw [hnext] at hb
    cases hb
  · obtain rfl := Outcome.next.inj (ht.symm.trans hnext)
    exact ⟨act', _, hact.trans ht, hsim, rfl, fun _ => less_of_lighter hl⟩

theorem movesOn_pop (h : Sim lat imem a s) (hst : s.dm.stepped = false) (hr : s.requests ≠ []) :
    MovesOn lat imem a s := by
  obtain ⟨p, ps, hp⟩ := List.exists_cons_of_ne_nil hr
  obtain ⟨t, ht, hsim⟩ := h.pop ⟨false, true⟩ hst hp
  obtain ⟨r, hr⟩ := h.single p (hp ▸ List.mem_cons_self)
  have hd : DataMem.step lat s.dm (.dmStep ⟨false, true⟩ (some p)) = _ := DataMem.pop_single hr ⟨false, true⟩ hst
  obtain rfl := Outcome.next.inj (ht.symm.trans ((step_pop lat _ hp).trans (onDm_next hd)))
  refine ⟨_, _, ht, hsim, rfl, fun m => less_of_weight rfl ?_⟩
  have hload := DataMem.pop_backlog hd
  rw [hr.reqs, List.length_singleton] at hload
  simp only [weight, hp, List.length_append, List.length_drop, List.length_cons]
  omega

/-- Whatever is on its way to the data memory or back, something of it can go on. -/
theorem movesOn_of_not_drained (h : Sim lat imem a s) (hr : s.responses = []) (hd : ¬ Drained s) :
    MovesOn lat imem a s := by
  by_cases hw : s.dm.respQ ≠ [] ∨ s.dm.events ≠ [] ∨ s.dm.stepped = true
  · exact movesOn_dm h hw
  · simp only [not_or, ne_eq, not_not, Bool.not_eq_true] at hw
    obtain ⟨hq, hev, hst⟩ := hw
    exact movesOn_pop h hst fun hreq => hd ⟨hreq, hev, hq, hr⟩

/-- A response to a store is delivered. -/
theorem movesOn_receive (h : Sim lat imem a s) {p : Burst WriteResp} {ps : List Packet}
    (hp : s.responses = .writeResp p :: ps) :
    ∃ t, CpuMemory.step lat s .receive = .next t ∧ Sim lat imem a t ∧ t.cpu.loads = s.cpu.loads ∧
      ∀ m, Less (rank m t) (rank m s) := by
  obtain ⟨hst, hsim⟩ := h.receiveWrite hp
  refine ⟨_, hst, hsim, rfl, fun m => ?_⟩
  refine Prod.Lex.right _ (Prod.Lex.right _ (Prod.Lex.left _ _ ?_))
  simp only [weight, hp, List.length_cons]
  omega

theorem commits_length (h : Sim lat imem a s) {n : Nat} (ha : Arch.after imem dmem n = .next a) :
    s.cpu.commits.length = n := by
  rw [h.commits, List.length_map, Arch.done_length_of_after ha]

/-- On the way to `b`: at most as many instructions, and none that `b` does not have. -/
structure Behind (lat : Nat) (imem : Imem) (dmem : BaseMemory) (m n : Nat) (a : Arch) (s : CpuMemory) : Prop where
  after : Arch.after imem dmem n = .next a
  sim : Sim lat imem a s
  le : n ≤ m
  loads : s.cpu.loads = [] ∨ n < m

theorem Behind.less {m n : Nat} (h : Behind lat imem dmem m n a s) (hm : n < m)
    {b : Arch} (hb : a.step imem = .next b) (ht : Sim lat imem b t) : Less (rank m t) (rank m s) := by
  refine less_of_commits ?_
  rw [commits_length h.sim h.after, commits_length ht ((Arch.after_succ h.after).trans hb)]
  omega

/-- The machine has a next state before `m`. -/
theorem Behind.exists_step {m n : Nat} (h : Behind lat imem dmem m n a s) (hb : Arch.after imem dmem m = .next b)
    (hm : n < m) : ∃ c, a.step imem = .next c := by
  obtain ⟨c, hc, -⟩ := Arch.exists_after_of_le hb (show n + 1 ≤ m from hm)
  exact ⟨c, (Arch.after_succ h.after).symm.trans hc⟩

/-- **The CPU on the bus gets to every state of the machine**, with nothing on its way. -/
theorem catches_up {m n : Nat} (hal : ∀ n a, Arch.after imem dmem n = .next a → Allowed imem a)
    (hb : Arch.after imem dmem m = .next b) (h : Behind lat imem dmem m n a s) :
    ∃ as t, Reaches (CpuMemory.step lat) s as t ∧ Sim lat imem b t ∧ Drained t := by
  refine exists_reaches_of_rank wellFounded_less (rank m) (I := fun s => ∃ n a, Behind lat imem dmem m n a s) ?_ ⟨n, a, h⟩
  clear h
  rintro s ⟨n, a, h⟩
  rcases hp : s.responses with _ | ⟨p, ps⟩
  · by_cases hd : Drained s
    · have hr := hd.ready h.sim
      rcases Nat.lt_or_eq_of_le h.le with hm | rfl
      · -- the next instruction
        obtain ⟨c, hc⟩ := h.exists_step hb hm
        obtain ⟨hh, hx⟩ := Arch.step_eq_next.mp hc
        have he : s.cpu.events = 1 := by
          rw [hr.events, hh]
          rfl
        have hallowed := hal n a h.after
        rcases h.sim.exec (by omega) hallowed.shared (hallowed.accesses hh) with
          ⟨t, hst, ⟨c', hc', ht, hl⟩ | ⟨ht, q, hl⟩⟩ | ⟨e, -, hf⟩
        · exact .inr ⟨_, t, hst, ⟨n + 1, c', (Arch.after_succ h.after).trans hc', ht, hm, .inl hl⟩, h.less hm hc' ht⟩
        · refine .inr ⟨_, t, hst, ⟨n, a, h.after, ht, h.le, .inr hm⟩, less_of_events ?_ ?_⟩
          · rw [ht.commits, h.sim.commits]
          · rw [hl.events, he]
            exact Nat.one_pos
        · rw [hx] at hf
          cases hf
      · obtain rfl := Outcome.next.inj (h.after.symm.trans hb)
        exact .inl ⟨h.sim, hd⟩
    · obtain ⟨act, t, hst, ht, hcpu, hlt⟩ := movesOn_of_not_drained h.sim hp hd
      exact .inr ⟨act, t, hst, ⟨n, a, h.after, ht, h.le, hcpu ▸ h.loads⟩, hlt m⟩
  · rcases hw : isWriteResp p with _ | _
    · -- the value of the load
      rcases h.sim.phase with hr | ⟨q, hl⟩
      · have := hr.answers p (answers_tail hp ▸ List.mem_cons_self)
        rw [hw] at this
        cases this
      · have hm : n < m := by
          refine h.loads.resolve_left fun hnil => ?_
          have := hl.loads
          rw [hnil] at this
          cases this
        rcases h.sim.receiveRead hl hp hw with ⟨t, c, hst, hc, ht, hnil⟩ | ⟨e, -, hf⟩
        · exact .inr ⟨_, t, hst, ⟨n + 1, c, (Arch.after_succ h.after).trans hc, ht, hm, .inl hnil⟩, h.less hm hc ht⟩
        · obtain ⟨c, hc⟩ := h.exists_step hb hm
          rw [(Arch.step_eq_next.mp hc).2] at hf
          cases hf
    · rcases p with q | q | q | q
      · cases hw
      · cases hw
      · cases hw
      · obtain ⟨t, hst, ht, hl, hlt⟩ := movesOn_receive h.sim hp
        exact .inr ⟨_, t, hst, ⟨n, a, h.after, ht, h.le, hl ▸ h.loads⟩, hlt m⟩

end

/-! ## The two CPUs -/

/-- The program consists of instructions that both CPU models have. -/
def SharedOnly (imem : Imem) : Prop := ∀ k i, imem.fetch k = .ok i → Shared i.op

/-- In every state of the functional CPU, the address of the next access is in the data memory and outside the windows of
the DMA and the systolic array. -/
def DataAddrs (imem : Imem) (dmem : BaseMemory) : Prop :=
  ∀ bs u i e, Reaches Stage5.step (Stage5.init imem dmem) bs u → u.events ≠ 0 → Stage5.fetchInstr u = .ok i →
    execBase i u.pc u.rf = .ok e → Accesses dmem.size i.op e

/-- The two runs, in any two states: one has executed what the other has and maybe more, and after equally many
instructions, with none under way, the registers and `pc` are equal, and the data memories if no store is on its way. -/
structure Agree (s : CpuMemory) (u : Stage5.State) : Prop where
  sequence : s.executed <+: u.executed ∨ u.executed <+: s.executed
  boundary : s.cpu.loads = [] → s.executed.length = u.executed.length →
    s.executed = u.executed ∧ s.cpu.rf = u.rf ∧ s.cpu.pc = u.pc
  memory : s.cpu.loads = [] → s.executed.length = u.executed.length → (∀ r ∈ s.waiting, r.isWrite = false) →
    s.dm.base = u.dmem

structure Refines (lat : Nat) (imem : Imem) (dmem : BaseMemory) : Prop where
  agree : ∀ as s bs u, Reaches (CpuMemory.step lat) (CpuMemory.init imem dmem) as s →
    Reaches Stage5.step (Stage5.init imem dmem) bs u → Agree s u
  /-- The CPU on the bus gets to every boundary of the functional CPU, with nothing on its way. -/
  follows : ∀ as s bs u, Reaches (CpuMemory.step lat) (CpuMemory.init imem dmem) as s →
    Reaches Stage5.step (Stage5.init imem dmem) bs u → s.executed.length ≤ u.executed.length →
    ∃ as' s', Reaches (CpuMemory.step lat) s as' s' ∧ s'.executed = u.executed ∧ s'.cpu.loads = [] ∧ s'.waiting = []
  /-- And the functional CPU to every boundary of the CPU on the bus. -/
  followed : ∀ as s bs u, Reaches (CpuMemory.step lat) (CpuMemory.init imem dmem) as s →
    Reaches Stage5.step (Stage5.init imem dmem) bs u → s.cpu.loads = [] → u.executed.length ≤ s.executed.length →
    ∃ bs' u', Reaches Stage5.step u bs' u' ∧ u'.executed = s.executed
  /-- Where the CPU on the bus has undefined behaviour, the functional CPU has it. -/
  faults : ∀ as s bs u act e, Reaches (CpuMemory.step lat) (CpuMemory.init imem dmem) as s →
    Reaches Stage5.step (Stage5.init imem dmem) bs u → CpuMemory.step lat s act = .fault e →
    u.executed.length = s.cpu.commits.length → u.events ≠ 0 →
    ∀ accepts, ∃ e', Stage5.step u (.exec accepts) = .fault e'

section

variable {lat : Nat} {imem : Imem} {dmem : BaseMemory} {a : Arch} {s : CpuMemory} {u : Stage5.State} {n : Nat}

/-- A state of the machine is one of the functional CPU, about to execute an instruction. -/
theorem allowed_of_after (hsh : SharedOnly imem) (hd : DataAddrs imem dmem) (h : Arch.after imem dmem n = .next a) :
    Allowed imem a where
  shared i hi := hsh _ i hi
  accesses hh i e hi he := by
    obtain ⟨bs, u, hu, htr, hua⟩ := Stage5.exists_reaches (Stage5.tracks_init imem dmem)
      (show Arch.after imem dmem 0 = .next (Stage5.init imem dmem).arch from rfl) h n.zero_le
    obtain ⟨v, hv, htv, hva, hpend⟩ := htr.exists_retry
    have harch : v.arch = a := hva.trans hua
    have hev : v.events = 1 := htv.events_eq (harch ▸ hh) hpend
    have hpc : v.pc = a.pc := congrArg Arch.pc harch
    have hrf : v.rf = a.rf := congrArg Arch.rf harch
    rw [Arch.size_of_after h]
    refine hd (bs ++ [.retry true]) v i e (hu.trans (Reaches.single hv)) (by omega) ?_ (hpc ▸ hrf ▸ he)
    unfold Stage5.fetchInstr
    rw [htv.imem_eq, hpc]
    exact hi

/-- **The simulation holds in every run.** -/
theorem sim_of_reaches (hal : ∀ n a, Arch.after imem dmem n = .next a → Allowed imem a) {as : List CpuMemory.Act}
    (hr : Reaches (CpuMemory.step lat) (CpuMemory.init imem dmem) as s) :
    ∃ n a, Arch.after imem dmem n = .next a ∧ Sim lat imem a s := by
  refine hr.inv' (I := fun s => ∃ n a, Arch.after imem dmem n = .next a ∧ Sim lat imem a s) ?_
    ⟨0, Arch.init dmem, rfl, sim_init lat imem dmem⟩
  rintro s act t ⟨n, a, ha, hs⟩ hst
  rcases hs.step_cases (hal n a ha) act with hb | ⟨t', ht, hx | ⟨b, hb, hx⟩⟩ | ⟨e, he, -⟩
  · rw [hst] at hb
    cases hb
  · rw [hst] at ht
    exact ⟨n, a, ha, Outcome.next.inj ht ▸ hx⟩
  · rw [hst] at ht
    exact ⟨n + 1, b, (Arch.after_succ ha).trans hb, Outcome.next.inj ht ▸ hx⟩
  · rw [hst] at he
    cases he

/-- At a boundary the machine has executed what the CPU has. -/
theorem Sim.ready_of_loads (h : Sim lat imem a s) (hl : s.cpu.loads = []) : Ready a s := by
  rcases h.phase with hr | ⟨q, hq⟩
  · exact hr
  · have := hq.loads
    rw [hl] at this
    cases this

theorem done_prefix_executed (h : Sim lat imem a s) : a.done <+: s.executed := by
  rcases h.phase with hr | ⟨q, hl⟩
  · exact hr.executed ▸ List.prefix_rfl
  · exact hl.executed ▸ List.prefix_append _ _

/-- What a load under way adds to the instructions executed is the next one of the machine. -/
theorem executed_prefix_done (h : Sim lat imem a s) (ha : Arch.after imem dmem n = .next a) {m : Nat} {b : Arch}
    (hb : Arch.after imem dmem m = .next b) (hm : n < m) : s.executed <+: b.done := by
  rcases h.phase with hr | ⟨q, hl⟩
  · rw [hr.executed]
    exact Arch.done_prefix_of_after ha hb hm.le
  · obtain ⟨c, hc, hp⟩ := Arch.exists_after_of_le hb (show n + 1 ≤ m from hm)
    obtain ⟨i, hi, hd⟩ := Arch.done_of_exec (Arch.step_eq_next.mp ((Arch.after_succ ha).symm.trans hc)).2
    rw [hl.fetch] at hi
    obtain rfl := Except.ok.inj hi
    rw [hl.executed, ← hd]
    exact hp

theorem agree_of_sim (h : Sim lat imem a s) (ha : Arch.after imem dmem n = .next a) {m : Nat}
    (hu : Arch.after imem dmem m = .next u.arch) : Agree s u := by
  have heq : s.cpu.loads = [] → s.executed.length = u.executed.length → a = u.arch := by
    intro hl hlen
    rw [(h.ready_of_loads hl).executed, Arch.done_length_of_after ha,
      show u.executed.length = m from Arch.done_length_of_after hu] at hlen
    subst hlen
    exact Outcome.next.inj (ha.symm.trans hu)
  refine ⟨?_, fun hl hlen => ?_, fun hl hlen hw => ?_⟩
  · rcases Nat.lt_or_ge n m with hm | hm
    · exact .inl (executed_prefix_done h ha hu hm)
    · exact .inr ((Arch.done_prefix_of_after hu ha hm).trans (done_prefix_executed h))
  · obtain rfl := heq hl hlen
    exact ⟨(h.ready_of_loads hl).executed, h.rf, h.pc⟩
  · obtain rfl := heq hl hlen
    have hnil : s.waiting = [] := by
      rw [List.eq_nil_iff_forall_not_mem]
      intro r hr
      have := (h.ready_of_loads hl).waiting r hr
      rw [hw r hr] at this
      cases this
    have hland := h.landed
    rw [CpuMemory.landed, hnil] at hland
    exact hland

end

/-- **Main result.** For every program over the shared instructions whose data addresses are the data memory's, and every
latency, the CPU on the bus and the functional CPU execute the same instructions, with equal registers and `pc` at each
boundary and equal data memories once the stores on their way have landed. -/
theorem refines (lat : Nat) (imem : Imem) (dmem : BaseMemory) (hsh : SharedOnly imem) (hd : DataAddrs imem dmem) :
    Refines lat imem dmem := by
  have hal : ∀ n a, Arch.after imem dmem n = .next a → Allowed imem a := fun n a h => allowed_of_after hsh hd h
  refine ⟨?_, ?_, ?_, ?_⟩
  · intro as s bs u hs hu
    obtain ⟨n, a, ha, h⟩ := sim_of_reaches hal hs
    obtain ⟨m, hm⟩ := (Stage5.tracks_of_reaches hu).arch
    exact agree_of_sim h ha hm
  · intro as s bs u hs hu hle
    obtain ⟨n, a, ha, h⟩ := sim_of_reaches hal hs
    obtain ⟨m, hm⟩ := (Stage5.tracks_of_reaches hu).arch
    have hlen : u.executed.length = m := Arch.done_length_of_after hm
    have hbehind : Behind lat imem dmem m n a s := by
      have hn := Arch.done_length_of_after ha
      rcases h.phase with hr | ⟨q, hl⟩
      · rw [hr.executed] at hle
        exact ⟨ha, h, by omega, .inl hr.loads⟩
      · rw [hl.executed, List.length_append, List.length_singleton] at hle
        exact ⟨ha, h, by omega, .inr (by omega)⟩
    obtain ⟨as', t, ht, hst, hdr⟩ := catches_up hal hm hbehind
    have hr := hdr.ready hst
    exact ⟨as', t, ht, hr.executed, hr.loads, hdr.waiting⟩
  · intro as s bs u hs hu hl hle
    obtain ⟨n, a, ha, h⟩ := sim_of_reaches hal hs
    have htr := Stage5.tracks_of_reaches hu
    obtain ⟨m, hm⟩ := htr.arch
    have hlen : u.executed.length = m := Arch.done_length_of_after hm
    have hr := h.ready_of_loads hl
    rw [hr.executed, Arch.done_length_of_after ha, hlen] at hle
    obtain ⟨bs', v, hv, -, hva⟩ := Stage5.exists_reaches htr hm ha hle
    exact ⟨bs', v, hv, (congrArg Arch.done hva).trans hr.executed.symm⟩
  · intro as s bs u act e hs hu hf hlen hev accepts
    obtain ⟨n, a, ha, h⟩ := sim_of_reaches hal hs
    have htr := Stage5.tracks_of_reaches hu
    obtain ⟨m, hm⟩ := htr.arch
    have hum : u.executed.length = m := Arch.done_length_of_after hm
    rw [commits_length h ha, hum] at hlen
    subst hlen
    obtain rfl := Outcome.next.inj (ha.symm.trans hm)
    rcases h.step_cases (hal m _ ha) act with hb | ⟨t, ht, -⟩ | ⟨e', -, hh, hx⟩
    · rw [hf] at hb
      cases hb
    · rw [hf] at ht
      cases ht
    · rcases hst : Stage5.execOneInstr accepts { u with events := u.events - 1 } with e'' | v
      · refine ⟨e'', ?_⟩
        dsimp only [Stage5.step]
        rw [if_neg hev, hst]
        rfl
      · have hnext := (htr.exec hev hst).2
        rw [(Arch.step_eq_next.mp hnext).2] at hx
        cases hx

/-- A word is stored at address 4 and loaded from there. -/
def storeThenLoad : Imem := .ofList
  [{ op := .SW, a1 := { reg := 0 }, a2 := { reg := 0 }, a3 := { imm := 4 } },
    { op := .LW, a1 := { reg := 1 }, a2 := { reg := 0 }, a3 := { imm := 4 } }, { op := .HCF }]

theorem sharedOnly_storeThenLoad : SharedOnly storeThenLoad := by
  intro k i hi
  unfold Imem.fetch at hi
  split at hi
  · next hk =>
    have hk : k < 3 := hk
    obtain rfl := Except.ok.inj hi
    interval_cases k <;> exact ⟨rfl, by decide, by decide⟩
  · cases hi

/-- The state after `n` of its instructions. -/
def storeThenLoadAt (n : Nat) (P : Arch → Bool) : Bool :=
  match Arch.after storeThenLoad ⟨16, fun _ => 0⟩ n with
  | .next a => P a
  | _ => false

theorem of_storeThenLoadAt {n : Nat} {P : Arch → Bool} {a : Arch} (h : storeThenLoadAt n P = true)
    (ha : Arch.after storeThenLoad ⟨16, fun _ => 0⟩ n = .next a) : P a = true := by
  unfold storeThenLoadAt at h
  rw [ha] at h
  exact h

theorem accesses_storeThenLoad {n : Nat} {a : Arch} {i : Instr} {e : Effect}
    (ha : Arch.after storeThenLoad ⟨16, fun _ => 0⟩ n = .next a) (hh : a.halted = false)
    (hi : storeThenLoad.fetch (a.pc.toNat / 4) = .ok i) (he : execBase i a.pc a.rf = .ok e) : Accesses 16 i.op e := by
  have hn : n < 3 := by
    by_contra hge
    obtain ⟨b, hb, hp⟩ := Arch.exists_after_of_le ha (show 3 ≤ n by omega)
    have hb3 : b.halted = true := of_storeThenLoadAt (by decide +kernel) hb
    rcases Nat.lt_or_eq_of_le (show 3 ≤ n by omega) with hlt | rfl
    · obtain ⟨c, hc, -⟩ := Arch.exists_after_of_le ha (show 4 ≤ n from hlt)
      have := (Arch.step_eq_next.mp ((Arch.after_succ hb).symm.trans hc)).1
      rw [hb3] at this
      cases this
    · rw [ha] at hb
      rw [Outcome.next.inj hb, hb3] at hh
      cases hh
  have hx : (a.pc = BitVec.ofNat 32 (4 * n) ∧ a.rf 0 = 0) := by
    have := of_storeThenLoadAt (P := fun a => a.pc == BitVec.ofNat 32 (4 * n) && a.rf 0 == 0)
      (by interval_cases n <;> decide +kernel) ha
    simpa using this
  obtain ⟨hpc, h0⟩ := hx
  rw [hpc] at hi
  have hfour : (a.rf 0 + 4#32).toNat + 4 ≤ 16 ∧ slaveIndex (a.rf 0 + 4#32) = 0 := by
    rw [h0]
    decide
  interval_cases n
  · obtain rfl := (Except.ok.inj hi).symm
    obtain rfl := (Except.ok.inj he).symm
    exact hfour
  · obtain rfl := (Except.ok.inj hi).symm
    obtain rfl := (Except.ok.inj he).symm
    exact hfour
  · obtain rfl := (Except.ok.inj hi).symm
    obtain rfl := (Except.ok.inj he).symm
    trivial

theorem dataAddrs_storeThenLoad : DataAddrs storeThenLoad ⟨16, fun _ => 0⟩ := by
  intro bs u i e hu hev hi he
  have htr := Stage5.tracks_of_reaches hu
  obtain ⟨n, hn⟩ := htr.arch
  refine accesses_storeThenLoad hn (htr.ready hev).1 ?_ he
  unfold Stage5.fetchInstr at hi
  rwa [htr.imem_eq] at hi

theorem refines_storeThenLoad : Refines 5 storeThenLoad ⟨16, fun _ => 0⟩ :=
  refines 5 storeThenLoad ⟨16, fun _ => 0⟩ sharedOnly_storeThenLoad dataAddrs_storeThenLoad

end SocModel.Soc
