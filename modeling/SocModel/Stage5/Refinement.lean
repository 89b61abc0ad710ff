import SocModel.Isa.Machine
import SocModel.Stage5.Cpu

/-!
# The functional CPU and the instruction-level machine

The CPU of the 5-stage model executes a whole instruction in one call, so its registers, `pc` and data memory are those
of the instruction-level machine after every call, whatever the IF stage's port answers.

* `State.arch` : the state as one of the instruction-level machine;
* `tracks_step` : a call is one instruction or none, `tracks_of_reaches` : every run;
* `exists_reaches` : a run for every number of instructions.
-/

namespace SocModel.Stage5

open Lib

namespace State

/-- The instructions executed: the packets the port took and the one that waits. -/
def executed (s : State) : List (Word × Instr) :=
  (s.sent ++ s.pendingInstPacket.toList).map fun p => (p.pc, p.inst)

def arch (s : State) : Arch := ⟨s.rf, s.pc, s.dmem, s.executed⟩

end State

/-- The state is one of the instruction-level machine's; while a packet waits, and after `HCF`, no call is scheduled. -/
structure Tracks (imem : Imem) (dmem : BaseMemory) (s : State) : Prop where
  imem_eq : s.imem = imem
  arch : ∃ n, Arch.after imem dmem n = .next s.arch
  events : if s.arch.halted = true ∨ s.pendingInstPacket.isSome = true then s.events = 0 else s.events = 1

theorem tracks_init (imem : Imem) (dmem : BaseMemory) : Tracks imem dmem (init imem dmem) :=
  ⟨rfl, ⟨0, rfl⟩, rfl⟩

section

variable {s t : State} {accepts : Bool} {i : Instr}

theorem arch_finish (pcNext : Word) (hp : s.pendingInstPacket = none) :
    (finish accepts i pcNext s).arch = s.arch.retire i s.rf pcNext s.dmem := by
  unfold finish commitInstr State.send State.arch Arch.retire State.executed
  cases accepts <;> simp [hp]

theorem events_finish (pcNext : Word) (hp : s.pendingInstPacket = none) (he : s.events = 0) :
    if (finish accepts i pcNext s).arch.halted = true ∨ (finish accepts i pcNext s).pendingInstPacket.isSome = true
    then (finish accepts i pcNext s).events = 0 else (finish accepts i pcNext s).events = 1 := by
  rw [arch_finish pcNext hp]
  unfold finish commitInstr State.send Arch.halted Arch.retire
  cases accepts
  · simp [he]
  · by_cases hi : i.op = .HCF <;> simp [hp, he, hi]

/-- How a call ends. -/
theorem finish_of_processInstr (h : processInstr accepts i s = .ok t) :
    ∃ (e : Effect) (u : State) (pcNext : Word), execBase i s.pc s.rf = .ok e ∧ t = finish accepts i pcNext u ∧
      u.pendingInstPacket = s.pendingInstPacket ∧ u.events = s.events ∧ u.imem = s.imem ∧
      s.arch.complete i e = .ok (s.arch.retire i u.rf pcNext u.dmem) ∧ u.pc = s.pc ∧ u.sent = s.sent := by
  simp only [processInstr, Except.bind_eq_ok] at h
  obtain ⟨e, he, h⟩ := h
  rcases e with ⟨rf, pcNext⟩ | addr | ⟨addr, data⟩ | ⟨x, y⟩
  · exact ⟨_, _, _, he, (Except.ok.inj h).symm, rfl, rfl, rfl, rfl, rfl, rfl⟩
  · simp only [memRead, Except.bind_eq_ok] at h
    obtain ⟨u, ⟨data, hd, rf, hr, hu⟩, h⟩ := h
    cases hu
    refine ⟨_, _, _, he, (Except.ok.inj h).symm, rfl, rfl, rfl, ?_, rfl, rfl⟩
    exact Except.bind_eq_ok.mpr ⟨data, hd, Except.bind_eq_ok.mpr ⟨rf, hr, rfl⟩⟩
  · simp only [memWrite, Except.bind_eq_ok] at h
    obtain ⟨u, ⟨dmem, hd, hu⟩, h⟩ := h
    cases hu
    refine ⟨_, _, _, he, (Except.ok.inj h).symm, rfl, rfl, rfl, ?_, rfl, rfl⟩
    exact Except.bind_eq_ok.mpr ⟨dmem, hd, rfl⟩
  · cases h

/-- One call of `execOneInstr` is one instruction. -/
theorem exec_of_execOneInstr (hp : s.pendingInstPacket = none) (he : s.events = 0)
    (h : execOneInstr accepts s = .ok t) : s.arch.exec s.imem = .ok t.arch ∧ t.imem = s.imem ∧
      if t.arch.halted = true ∨ t.pendingInstPacket.isSome = true then t.events = 0 else t.events = 1 := by
  simp only [execOneInstr, fetchInstr, Except.bind_eq_ok] at h
  obtain ⟨i, hi, h⟩ := h
  obtain ⟨e, u, pcNext, hx, rfl, hpu, heu, him, hc, hpc, hs⟩ := finish_of_processInstr h
  have hpu := hpu.trans hp
  have hexec : s.executed = u.executed := by
    unfold State.executed
    rw [hp, hpu, hs]
  refine ⟨?_, ?_, events_finish pcNext hpu (heu.trans he)⟩
  · have hret : s.arch.retire i u.rf pcNext u.dmem = u.arch.retire i u.rf pcNext u.dmem := by
      unfold Arch.retire State.arch
      rw [hexec, hpc]
    rw [arch_finish pcNext hpu, ← hret]
    exact Except.bind_eq_ok.mpr ⟨i, hi, Except.bind_eq_ok.mpr ⟨e, hx, hc⟩⟩
  · rw [← him]
    unfold finish commitInstr State.send
    cases accepts <;> rfl

/-- Where the instruction-level machine has a next state, the call returns. -/
theorem exists_execOneInstr {a : Arch} (accepts : Bool) (h : s.arch.exec s.imem = .ok a) :
    ∃ t, execOneInstr accepts s = .ok t := by
  simp only [Arch.exec, Except.bind_eq_ok] at h
  obtain ⟨i, hi, e, he, h⟩ := h
  suffices hx : ∃ t, processInstr accepts i s = .ok t by
    obtain ⟨t, ht⟩ := hx
    exact ⟨t, Except.bind_eq_ok.mpr ⟨i, hi, ht⟩⟩
  rcases e with ⟨rf, pcNext⟩ | addr | ⟨addr, data⟩ | ⟨x, y⟩ <;> unfold Arch.complete at h
  · exact ⟨_, Except.bind_eq_ok.mpr ⟨_, he, rfl⟩⟩
  · simp only [Except.bind_eq_ok] at h
    obtain ⟨data, hd, rf, hr, -⟩ := h
    have hm : memRead i i.op addr { s with instCnt := s.instCnt + 1 } = .ok { s with rf, instCnt := s.instCnt + 1 } :=
      Except.bind_eq_ok.mpr ⟨data, hd, Except.bind_eq_ok.mpr ⟨rf, hr, rfl⟩⟩
    exact ⟨_, Except.bind_eq_ok.mpr ⟨_, he, Except.bind_eq_ok.mpr ⟨_, hm, rfl⟩⟩⟩
  · simp only [Except.bind_eq_ok] at h
    obtain ⟨dmem, hd, -⟩ := h
    have hm : memWrite i.op addr data { s with instCnt := s.instCnt + 1 } =
        .ok { s with dmem, instCnt := s.instCnt + 1 } := Except.bind_eq_ok.mpr ⟨dmem, hd, rfl⟩
    exact ⟨_, Except.bind_eq_ok.mpr ⟨_, he, Except.bind_eq_ok.mpr ⟨_, hm, rfl⟩⟩⟩
  · cases h

end

section

variable {imem : Imem} {dmem : BaseMemory} {s t : State}

/-- The waiting packet is the last instruction executed. -/
theorem halted_of_pending {p : InstPacket} (hp : s.pendingInstPacket = some p) :
    s.arch.halted = (p.inst.op == .HCF) := by
  unfold Arch.halted State.arch State.executed
  simp [hp]

theorem Tracks.retry {accepts : Bool} (h : Tracks imem dmem s) (hs : retrySendInstPacket accepts s = .ok t) :
    Tracks imem dmem t ∧ t.arch = s.arch := by
  unfold retrySendInstPacket at hs
  rcases hp : s.pendingInstPacket with _ | p <;> rw [hp] at hs
  · exact Except.ok.inj hs ▸ ⟨h, rfl⟩
  · rcases accepts with _ | _
    · cases hs
    · have ht := Except.ok.inj hs
      have ha : t.arch = s.arch := by
        rw [← ht]
        unfold State.arch State.executed State.send
        simp [hp]
      have he := h.events
      rw [hp, if_pos (.inr rfl)] at he
      refine ⟨⟨?_, ?_, ?_⟩, ha⟩
      · rw [← ht]
        exact h.imem_eq
      · rw [ha]
        exact h.arch
      · rw [ha, halted_of_pending hp, ← ht]
        by_cases hi : p.inst.op = .HCF <;> simp [State.send, hi, he]

/-- A call is scheduled: the machine is not halted and no packet waits. -/
theorem Tracks.ready (h : Tracks imem dmem s) (he : s.events ≠ 0) :
    s.arch.halted = false ∧ s.pendingInstPacket = none ∧ s.events = 1 := by
  have hx := h.events
  by_cases hc : s.arch.halted = true ∨ s.pendingInstPacket.isSome = true
  · rw [if_pos hc] at hx
    exact absurd hx he
  · rw [if_neg hc] at hx
    rw [not_or] at hc
    exact ⟨by simpa using hc.1, by simpa using hc.2, hx⟩

theorem Tracks.exec {accepts : Bool} (h : Tracks imem dmem s) (he : s.events ≠ 0)
    (hs : execOneInstr accepts { s with events := s.events - 1 } = .ok t) :
    Tracks imem dmem t ∧ s.arch.step imem = .next t.arch := by
  obtain ⟨hh, hp, h1⟩ := h.ready he
  have h0 : s.events - 1 = 0 := by omega
  obtain ⟨hx, him, hev⟩ := exec_of_execOneInstr (s := { s with events := s.events - 1 }) hp h0 hs
  have hstep : s.arch.step imem = .next t.arch := by
    rw [← h.imem_eq]
    exact Arch.step_eq_next.mpr ⟨hh, hx⟩
  obtain ⟨n, hn⟩ := h.arch
  exact ⟨⟨him.trans h.imem_eq, ⟨n + 1, (Arch.after_succ hn).trans hstep⟩, hev⟩, hstep⟩

theorem tracks_step {act : Act} (h : Tracks imem dmem s) (hs : step s act = .next t) : Tracks imem dmem t := by
  rcases act with accepts | accepts <;> unfold step at hs
  · dsimp only at hs
    split at hs
    · cases hs
    · next he => exact (h.exec he (Outcome.ofExcept_eq_next.mp hs)).1
  · exact (h.retry (Outcome.ofExcept_eq_next.mp hs)).1

theorem tracks_of_reaches {as : List Act} (hr : Reaches step (init imem dmem) as s) : Tracks imem dmem s :=
  hr.inv' (I := Tracks imem dmem) (fun _ _ _ h hs => tracks_step h hs) (tracks_init imem dmem)

/-- A waiting packet goes when the port takes it. -/
theorem Tracks.exists_retry (h : Tracks imem dmem s) : ∃ t, step s (.retry true) = .next t ∧ Tracks imem dmem t ∧
    t.arch = s.arch ∧ t.pendingInstPacket = none := by
  rcases hp : s.pendingInstPacket with _ | p
  · exact ⟨s, by simp [step, retrySendInstPacket, hp], h, rfl, hp⟩
  · have hr : retrySendInstPacket true s = .ok { s.send p with pendingInstPacket := none } := by
      simp [retrySendInstPacket, hp]
    exact ⟨_, Outcome.ofExcept_eq_next.mpr hr, (h.retry hr).1, (h.retry hr).2, rfl⟩

theorem Tracks.events_eq (h : Tracks imem dmem s) (hh : s.arch.halted = false) (hp : s.pendingInstPacket = none) :
    s.events = 1 := by
  have := h.events
  rw [hh, hp] at this
  simpa using this

/-- From every state with `a`'s past the CPU gets to `a`. -/
theorem exists_reaches {n m : Nat} {a : Arch} (h : Tracks imem dmem s) (hs : Arch.after imem dmem n = .next s.arch)
    (ha : Arch.after imem dmem m = .next a) (hn : n ≤ m) :
    ∃ as t, Reaches step s as t ∧ Tracks imem dmem t ∧ t.arch = a := by
  induction m generalizing a with
  | zero =>
    obtain rfl : n = 0 := by omega
    exact ⟨[], s, rfl, h, Outcome.next.inj (hs.symm.trans ha)⟩
  | succ m ih =>
    rcases Nat.lt_or_eq_of_le hn with hlt | rfl
    · obtain ⟨b, hb, hstep⟩ := Arch.exists_after_of_succ ha
      obtain ⟨as, u, hu, htr, rfl⟩ := ih hb (by omega)
      obtain ⟨v, hv, htv, harch, hpend⟩ := htr.exists_retry
      obtain ⟨hh, hx⟩ := Arch.step_eq_next.mp hstep
      have he : v.events = 1 := htv.events_eq (harch ▸ hh) hpend
      obtain ⟨t, ht⟩ := exists_execOneInstr (s := { v with events := v.events - 1 }) true
        (show v.arch.exec v.imem = .ok a by rw [harch, htv.imem_eq, hx])
      obtain ⟨htt, hst⟩ := htv.exec (by omega) ht
      refine ⟨as ++ [.retry true, .exec true], t, hu.trans (reaches_cons.mpr ⟨v, hv, Reaches.single ?_⟩), htt, ?_⟩
      · dsimp only [step]
        rw [if_neg (by omega), ht]
        rfl
      · rw [harch, hstep] at hst
        exact (Outcome.next.inj hst).symm
    · exact ⟨[], s, rfl, h, Outcome.next.inj (hs.symm.trans ha)⟩

end

end SocModel.Stage5
