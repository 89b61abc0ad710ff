import SocModel.Chisel.Hazard
import SocModel.Chisel.InOrder
import SocModel.Lib.Timed

/-!
# A straight line through the Chisel pipeline

The instructions from address 0 on, up to a number of them, without loads and stores, without a dependence that the
interlock sees, and without `HCF` before the last. Each enters WB in the cycle after the one before it, unless a
transfer redirects the fetch: then the next instruction in EXE is another one.

* `Straight` : what the memory holds;
* `InStep`, `Draining`, `OffTrack` : the three stages of a run, `Phase` : the invariant, `phase_step`;
* `arrivals_of_straight` : the cycles in which the instructions enter WB.
-/

namespace SocModel.Chisel

open Lib Opcode

/-- The instruction at the `k`-th word of the memory. -/
def entryAt (memory : Addr → BitVec 8) (k : Nat) : Entry :=
  ⟨BitVec.ofNat 15 (4 * k), instMem memory (BitVec.ofNat 15 (4 * k))⟩

/-- The bubbles of the reset, and the instructions from address 0 on: what goes through a stage, cycle by cycle. -/
def slot (memory : Addr → BitVec 8) : Nat → Entry
  | k + 4 => entryAt memory k
  | _ => ⟨0, 0⟩

structure Straight (memory : Addr → BitVec 8) (n : Nat) : Prop where
  ne_zero : ∀ k < n, (entryAt memory k).inst ≠ 0#32
  not_mem : ∀ k < n, opcode (entryAt memory k).inst ≠ LOAD ∧ opcode (entryAt memory k).inst ≠ STORE
  not_hcf : ∀ k, k + 1 < n → opcode (entryAt memory k).inst ≠ HCF
  no_overlap : ∀ k < n, ∀ j < k, k ≤ j + 3 → overlap (entryAt memory k).inst (entryAt memory j).inst = false

/-- The CPU with a clock; an instruction arrives when it enters WB. -/
abbrev timedClock (memory : Addr → BitVec 8) : Timed State → Input → Outcome Empty (Timed State) :=
  Timed.step (·.wbLog.length) (clock memory)

/-! ## Slots -/

section

variable {memory : Addr → BitVec 8} {n k j : Nat}

theorem slot_of_lt (hk : k < 4) : slot memory k = ⟨0, 0⟩ := by
  match k, hk with
  | 0, _ => rfl
  | 1, _ => rfl
  | 2, _ => rfl
  | 3, _ => rfl

theorem address_succ (k : Nat) : BitVec.ofNat 15 (4 * k) + 4 = BitVec.ofNat 15 (4 * (k + 1)) := by
  show BitVec.ofNat 15 (4 * k) + BitVec.ofNat 15 4 = _
  rw [← BitVec.ofNat_add]
  rfl

theorem overlap_zero_left (i : Word) : overlap 0#32 i = false := rfl

theorem overlap_zero_right (i : Word) : overlap i 0#32 = false := by
  unfold overlap
  rw [show useRd 0#32 = false from rfl]
  simp

theorem Straight.slot_ne_zero (h : Straight memory n) (hk : k < n + 4) : (slot memory k).inst ≠ 0#32 ↔ 4 ≤ k := by
  rcases Nat.lt_or_ge k 4 with hlt | hge
  · rw [slot_of_lt hlt]
    exact iff_of_false (fun hne => hne rfl) (by omega)
  · obtain ⟨j, rfl⟩ := Nat.exists_eq_add_of_le' hge
    exact iff_of_true (h.ne_zero j (by omega)) hge

theorem Straight.slot_not_mem (h : Straight memory n) (hk : k < n + 4) :
    opcode (slot memory k).inst ≠ LOAD ∧ opcode (slot memory k).inst ≠ STORE := by
  rcases Nat.lt_or_ge k 4 with hlt | hge
  · rw [slot_of_lt hlt]
    decide
  · obtain ⟨j, rfl⟩ := Nat.exists_eq_add_of_le' hge
    exact h.not_mem j (by omega)

theorem Straight.slot_not_hcf (h : Straight memory n) (hk : k < n + 3) : opcode (slot memory k).inst ≠ HCF := by
  rcases Nat.lt_or_ge k 4 with hlt | hge
  · rw [slot_of_lt hlt]
    decide
  · obtain ⟨j, rfl⟩ := Nat.exists_eq_add_of_le' hge
    exact h.not_hcf j (by omega)

theorem Straight.slot_no_overlap (h : Straight memory n) (hk : k < n + 4) (hj : j < k) (hd : k ≤ j + 3) :
    overlap (slot memory k).inst (slot memory j).inst = false := by
  rcases Nat.lt_or_ge k 4 with hlt | hge
  · rw [slot_of_lt hlt]
    exact overlap_zero_left _
  · obtain ⟨k, rfl⟩ := Nat.exists_eq_add_of_le' hge
    rcases Nat.lt_or_ge j 4 with hlt | hge
    · rw [slot_of_lt hlt]
      exact overlap_zero_right _
    · obtain ⟨j, rfl⟩ := Nat.exists_eq_add_of_le' hge
      exact h.no_overlap k (by omega) j (by omega) (by omega)

end

/-! ## The stages of a run -/

section

variable (memory : Addr → BitVec 8)

/-- Every stage holds the instruction it should after `now` cycles. -/
structure InStep (t : Timed State) : Prop where
  ifPc : t.state.ifPc = BitVec.ofNat 15 (4 * t.now)
  id : t.state.id = slot memory (t.now + 3)
  exe : t.state.exe.inst = (slot memory (t.now + 2)).inst
  mem : t.state.mem.inst = (slot memory (t.now + 1)).inst
  wb : t.state.wb.inst = (slot memory t.now).inst
  exeLog : t.state.exeLog.length = t.now - 1
  arrivals : t.arrivals = List.range' 3 (t.now - 3)

/-- The first `n` instructions have entered EXE; nothing is known about those behind them. -/
structure Draining (n : Nat) (t : Timed State) : Prop where
  now : n + 1 ≤ t.now
  exe : t.now ≤ n + 1 → t.state.exe.inst = (slot memory (t.now + 2)).inst
  mem : t.now ≤ n + 2 → t.state.mem.inst = (slot memory (t.now + 1)).inst
  wb : t.now ≤ n + 3 → t.state.wb.inst = (slot memory t.now).inst
  arrivals : t.arrivals.take n = List.range' 3 (min (t.now - 3) n)

/-- The `m`-th instruction has redirected the fetch away from the next, and nothing has entered EXE since. -/
structure OffTrack (m : Nat) (t : Timed State) : Prop where
  now : m + 2 ≤ t.now
  pos : 1 ≤ m
  exe : t.state.exe.inst = 0#32
  mem : t.state.mem.inst = if t.now < m + 3 then (slot memory (t.now + 1)).inst else 0#32
  wb : t.state.wb.inst = if t.now < m + 4 then (slot memory t.now).inst else 0#32
  exeLog : t.state.exeLog.length = m
  arrivals : t.arrivals = List.range' 3 (min (t.now - 3) m)
  target : if t.state.id.inst = 0#32 then t.state.ifPc ≠ BitVec.ofNat 15 (4 * m)
    else t.state.id.pc ≠ BitVec.ofNat 15 (4 * m)

/-- Where a run is that starts with `n` instructions in a straight line. -/
inductive Phase (n : Nat) (t : Timed State) : Prop
  | inStep (h : InStep memory t) (hn : t.now ≤ n)
  | draining (h : Draining memory n t)
  | offTrack {m : Nat} (hm : m < n) (h : OffTrack memory m t)
  /-- Another instruction has entered EXE in the place of the `m`-th. -/
  | diverged {m : Nat} {e : Entry} (hm : m < n) (he : t.state.exeLog[m]? = some e)
      (hpc : e.pc ≠ BitVec.ofNat 15 (4 * m))

end

/-! ## One cycle -/

section

variable {memory : Addr → BitVec 8} {n m : Nat} {s : State} {t u : Timed State} {inp : Input}

theorem timedClock_eq_next (h : timedClock memory t inp = .next u) : u.state = cycle memory t.state inp ∧
    u.now = t.now + 1 ∧
    u.arrivals = t.arrivals ++ List.replicate ((cycle memory t.state inp).wbLog.length - t.state.wbLog.length) t.now := by
  obtain ⟨hs, hn, ha⟩ := Timed.step_eq_next h
  have hu : u.state = cycle memory t.state inp := (Outcome.next.inj hs).symm
  exact ⟨hu, hn, hu ▸ ha⟩

theorem hcf_of_wb {k : Nat} (h : Straight memory n) (hk : k < n + 3) (hw : s.wb.inst = (slot memory k).inst) :
    s.hcf = false := by
  unfold State.hcf
  rw [hw, beq_eq_false_iff_ne]
  exact h.slot_not_hcf hk

theorem stallMA_of_mem {k : Nat} {dmValid : Bool} (h : Straight memory n) (hk : k < n + 4)
    (hm : s.mem.inst = (slot memory k).inst) : s.stallMA dmValid = false := by
  obtain ⟨hl, hs⟩ := h.slot_not_mem hk
  unfold State.stallMA
  rw [hm, beq_eq_false_iff_ne.mpr hl, beq_eq_false_iff_ne.mpr hs, Bool.or_false, Bool.and_false]

/-- What enters WB in a cycle in which MEM moves on. -/
theorem length_wbLog_cycle (hmv : (s.hcf || s.stallMA inp.dmValid) = false) :
    (cycle memory s inp).wbLog.length - s.wbLog.length = if s.mem.inst = 0#32 then 0 else 1 := by
  simp only [cycle, hmv, Bool.not_false, List.length_append, Nat.add_sub_cancel_left]
  by_cases h0 : s.mem.inst = 0#32
  · rw [h0, took_zero]
    rfl
  · rw [took, if_pos (by simpa using h0), if_neg h0]
    rfl

theorem exeLog_cycle_getElem {e : Entry} (he : s.exeLog[m]? = some e) : (cycle memory s inp).exeLog[m]? = some e := by
  obtain ⟨hlt, -⟩ := List.getElem?_eq_some_iff.mp he
  simp only [cycle]
  rw [List.getElem?_append_left hlt, he]

theorem length_took_slot {k : Nat} (h : Straight memory n) (hk : k < n + 4) :
    (took true (slot memory k).pc (slot memory k).inst).length = if k < 4 then 0 else 1 := by
  have hz := h.slot_ne_zero hk
  unfold took
  by_cases hlt : k < 4
  · rw [if_pos hlt, slot_of_lt hlt]
    rfl
  · rw [if_neg hlt, if_pos (by simpa using hz.mpr (by omega))]
    rfl

theorem InStep.moves (inp : Input) (h : Straight memory n) (ht : InStep memory t) (hn : t.now ≤ n) :
    (t.state.hcf || t.state.stallMA inp.dmValid) = false ∧ t.state.stallDH = false := by
  refine ⟨?_, ?_⟩
  · rw [hcf_of_wb h (by omega) ht.wb, stallMA_of_mem h (by omega) ht.mem]
    rfl
  · unfold State.stallDH
    rw [ht.id, ht.exe, ht.mem, ht.wb, h.slot_no_overlap (by omega) (by omega) (by omega),
      h.slot_no_overlap (by omega) (by omega) (by omega), h.slot_no_overlap (by omega) (by omega) (by omega)]
    rfl

/-- The record of arrivals, one cycle on. -/
theorem arrivals_cycle (h : Straight memory n) {k : Nat} (hk : k < n + 3)
    (hm : s.mem.inst = (slot memory (k + 1)).inst) (hmv : (s.hcf || s.stallMA inp.dmValid) = false) :
    List.range' 3 (k - 3) ++ List.replicate ((cycle memory s inp).wbLog.length - s.wbLog.length) k =
      List.range' 3 (k + 1 - 3) := by
  have hz := h.slot_ne_zero (k := k + 1) (by omega)
  rw [← hm] at hz
  rw [length_wbLog_cycle hmv]
  rcases Nat.lt_or_ge k 3 with hlt | hge
  · rw [if_pos (by_contra fun hne => absurd (hz.mp hne) (by omega)), show k - 3 = 0 by omega,
      show k + 1 - 3 = 0 by omega]
    rfl
  · rw [if_neg (hz.mpr (by omega)), show k + 1 - 3 = k - 3 + 1 by omega, List.range'_concat, Nat.one_mul,
      Nat.add_sub_cancel' hge]
    rfl

/-- No transfer redirects the fetch. -/
theorem InStep.cycle (h : Straight memory n) (ht : InStep memory t) (hn : t.now ≤ n) (hf : t.state.flush = false)
    (hu : timedClock memory t inp = .next u) : InStep memory u := by
  obtain ⟨hs, hnow, ha⟩ := timedClock_eq_next hu
  obtain ⟨hmv, hdh⟩ := ht.moves inp h hn
  obtain ⟨hh, hma⟩ := Bool.or_eq_false_iff.mp hmv
  have hiss : t.state.issues inp.dmValid = true := issues_iff.mpr ⟨⟨hf, hma⟩, hh, hdh⟩
  obtain ⟨hif, hid, hexe⟩ := front_of_issues memory hiss
  refine ⟨?_, ?_, ?_, ?_, ?_, ?_, ?_⟩
  · rw [hs, hnow]
    show t.state.nextIf inp = _
    rw [hif, ht.ifPc]
    exact address_succ _
  · rw [hs, hnow]
    show t.state.nextId memory inp = _
    rw [hid, ht.ifPc]
    rfl
  · rw [hs, hnow]
    show (t.state.nextExe inp).inst = _
    rw [hexe]
    exact congrArg Entry.inst ht.id
  · rw [hs, hnow]
    show (t.state.nextMem inp).inst = _
    rw [nextMem_of_moves hmv]
    exact ht.exe
  · rw [hs, hnow]
    show (t.state.nextWb inp).inst = _
    rw [nextWb_of_moves hmv]
    exact ht.mem
  · rw [hs, hnow]
    show (t.state.exeLog ++ took (t.state.issues inp.dmValid) t.state.id.pc t.state.id.inst).length = _
    rw [List.length_append, ht.exeLog, hiss, ht.id, length_took_slot h (by omega)]
    split <;> omega
  · rw [ha, hnow, ht.arrivals, arrivals_cycle h (by omega) ht.mem hmv]

theorem InStep.draining (ht : InStep memory t) (hn : t.now = n + 1) : Draining memory n t where
  now := by omega
  exe _ := ht.exe
  mem _ := ht.mem
  wb _ := ht.wb
  arrivals := by
    rw [ht.arrivals, List.take_range'_of_length_le (by omega), Nat.min_eq_left (by omega)]

/-- A transfer in EXE redirects the fetch. -/
theorem InStep.offTrack (h : Straight memory n) (ht : InStep memory t) (hn : t.now ≤ n) (hf : t.state.flush = true)
    (hu : timedClock memory t inp = .next u) : ∃ m < n, OffTrack memory m u := by
  obtain ⟨hs, hnow, ha⟩ := timedClock_eq_next hu
  obtain ⟨hmv, -⟩ := ht.moves inp h hn
  obtain ⟨hif, hbubble, hexe⟩ := front_of_flush memory inp hf
  obtain ⟨hen, hne⟩ : eEn t.state.exe.inst = true ∧ t.state.id.pc ≠ t.state.exeTargetPc := by
    simp only [State.flush, Bool.and_eq_true, bne_iff_ne] at hf
    exact ⟨hf.1.1, hf.2⟩
  have h2 : 2 ≤ t.now := by
    have hz := ne_zero_of_eEn hen
    rw [ht.exe, h.slot_ne_zero (by omega)] at hz
    omega
  obtain ⟨k, hk⟩ := Nat.exists_eq_add_of_le' h2
  have hid : t.state.id = entryAt memory (k + 1) := by
    rw [ht.id, hk]
    rfl
  refine ⟨k + 1, by omega, ?_, ?_, ?_, ?_, ?_, ?_, ?_, ?_⟩
  · omega
  · omega
  · rw [hs]
    exact congrArg RegEXE.inst hexe
  · rw [hs, hnow, if_pos (by omega)]
    show (t.state.nextMem inp).inst = _
    rw [nextMem_of_moves hmv]
    exact ht.exe
  · rw [hs, hnow, if_pos (by omega)]
    show (t.state.nextWb inp).inst = _
    rw [nextWb_of_moves hmv]
    exact ht.mem
  · rw [hs]
    show (t.state.exeLog ++ took (t.state.issues inp.dmValid) t.state.id.pc t.state.id.inst).length = _
    have hiss : t.state.issues inp.dmValid = false := by simp [State.issues, hf]
    rw [hiss, took_false, List.append_nil, ht.exeLog]
    omega
  · rw [ha, hnow, ht.arrivals, arrivals_cycle h (by omega) ht.mem hmv]
    congr 1
    omega
  · rw [hs]
    show if (t.state.nextId memory inp).inst = 0#32 then t.state.nextIf inp ≠ _ else _
    rw [hbubble, hif]
    show t.state.exeTargetPc ≠ _
    rw [hid] at hne
    exact fun hc => hne hc.symm

/-- Once the last of them has entered WB, what arrives is another instruction. -/
theorem Draining.done (ht : Draining memory n t) (hn : n + 3 ≤ t.now) (hu : timedClock memory t inp = .next u) :
    Draining memory n u := by
  obtain ⟨hs, hnow, ha⟩ := timedClock_eq_next hu
  have hlen : n ≤ t.arrivals.length := by
    have := congrArg List.length ht.arrivals
    rw [List.length_take, List.length_range'] at this
    omega
  refine ⟨by omega, by omega, by omega, by omega, ?_⟩
  rw [ha, List.take_append_of_le_length hlen, ht.arrivals, Nat.min_eq_right (by omega), Nat.min_eq_right (by omega)]

theorem Draining.cycle (h : Straight memory n) (ht : Draining memory n t) (hu : timedClock memory t inp = .next u) :
    Draining memory n u := by
  rcases Nat.lt_or_ge t.now (n + 3) with hlt | hge
  · obtain ⟨hs, hnow, ha⟩ := timedClock_eq_next hu
    have hn := ht.now
    have hmem := ht.mem (by omega)
    have hmv : (t.state.hcf || t.state.stallMA inp.dmValid) = false := by
      rw [hcf_of_wb h hlt (ht.wb (by omega)), stallMA_of_mem h (by omega) hmem]
      rfl
    refine ⟨by omega, by omega, fun hle => ?_, fun hle => ?_, ?_⟩
    · rw [hs, hnow]
      show (t.state.nextMem inp).inst = _
      rw [nextMem_of_moves hmv]
      exact ht.exe (by omega)
    · rw [hs, hnow]
      show (t.state.nextWb inp).inst = _
      rw [nextWb_of_moves hmv]
      exact hmem
    · have hall := ht.arrivals
      have hlen := congrArg List.length hall
      rw [List.length_take, List.length_range'] at hlen
      rcases Nat.eq_zero_or_pos n with rfl | hpos
      · rw [List.take_zero, Nat.min_zero]
        rfl
      rw [List.take_of_length_le (by omega), Nat.min_eq_left (by omega)] at hall
      rw [ha, hnow, hall, arrivals_cycle h hlt hmem hmv, List.take_range'_of_length_le (by omega),
        Nat.min_eq_left (by omega)]
  · exact ht.done hge hu

theorem OffTrack.moves (inp : Input) (h : Straight memory n) (hm : m < n) (ht : OffTrack memory m t) :
    (t.state.hcf || t.state.stallMA inp.dmValid) = false ∧ t.state.flush = false := by
  refine ⟨?_, ?_⟩
  · rw [Bool.or_eq_false_iff]
    have hw := ht.wb
    have hmem := ht.mem
    refine ⟨?_, ?_⟩
    · split at hw
      · exact hcf_of_wb h (by omega) hw
      · unfold State.hcf
        rw [hw]
        rfl
    · split at hmem
      · exact stallMA_of_mem h (by omega) hmem
      · unfold State.stallMA
        rw [hmem]
        exact Bool.and_false _
  · unfold State.flush
    rw [ht.exe]
    rfl

/-- What is fetched next is not the `m`-th instruction either: the word before it is not a bubble. -/
theorem target_cycle (h : Straight memory n) (hm : m < n) (hpos : 1 ≤ m) {pc : Addr}
    (hpc : pc ≠ BitVec.ofNat 15 (4 * m)) : if instMem memory pc = 0#32 then pc + 4 ≠ BitVec.ofNat 15 (4 * m)
      else pc ≠ BitVec.ofNat 15 (4 * m) := by
  split
  · next h0 =>
    obtain ⟨k, rfl⟩ := Nat.exists_eq_add_of_le' hpos
    intro hc
    rw [← address_succ] at hc
    obtain rfl : pc = BitVec.ofNat 15 (4 * k) := BitVec.add_left_inj _ |>.mp hc
    exact h.ne_zero k (by omega) h0
  · exact hpc

/-- What the `m`-th instruction and those before it do: MEM, WB and the arrivals. -/
theorem OffTrack.drains (h : Straight memory n) (hm : m < n) (ht : OffTrack memory m t)
    (hu : timedClock memory t inp = .next u) :
    u.state.mem.inst = (if u.now < m + 3 then (slot memory (u.now + 1)).inst else 0#32) ∧
      u.state.wb.inst = (if u.now < m + 4 then (slot memory u.now).inst else 0#32) ∧
      u.arrivals = List.range' 3 (min (u.now - 3) m) := by
  obtain ⟨hs, hnow, ha⟩ := timedClock_eq_next hu
  have hn := ht.now
  have hmem := ht.mem
  obtain ⟨hmv, -⟩ := ht.moves inp h hm
  refine ⟨?_, ?_, ?_⟩
  · rw [hs, if_neg (by omega)]
    show (t.state.nextMem inp).inst = _
    rw [nextMem_of_moves hmv]
    exact ht.exe
  · rw [hs, hnow]
    show (t.state.nextWb inp).inst = _
    rw [nextWb_of_moves hmv]
    show t.state.mem.inst = _
    rw [hmem]
    by_cases hlt : t.now < m + 3
    · rw [if_pos hlt, if_pos (by omega)]
    · rw [if_neg hlt, if_neg (by omega)]
  · rw [ha, hnow, ht.arrivals]
    by_cases hlt : t.now < m + 3
    · rw [if_pos hlt] at hmem
      rw [Nat.min_eq_left (by omega), Nat.min_eq_left (by omega), arrivals_cycle h (by omega) hmem hmv]
    · rw [if_neg hlt] at hmem
      rw [Nat.min_eq_right (by omega), Nat.min_eq_right (by omega), length_wbLog_cycle hmv, if_pos hmem]
      exact List.append_nil _

/-- Nothing enters EXE yet: the place stays open. -/
theorem OffTrack.held (h : Straight memory n) (hm : m < n) (ht : OffTrack memory m t)
    (hdh : t.state.stallDH = true) (hu : timedClock memory t inp = .next u) : OffTrack memory m u := by
  obtain ⟨hs, hnow, -⟩ := timedClock_eq_next hu
  have hn := ht.now
  obtain ⟨hmv, hf⟩ := ht.moves inp h hm
  obtain ⟨-, hma⟩ := Bool.or_eq_false_iff.mp hmv
  obtain ⟨hif, hid, hexe⟩ := front_of_hazard memory hf hma hdh
  obtain ⟨hmem, hwb, harr⟩ := ht.drains h hm hu
  refine ⟨by omega, ht.pos, ?_, hmem, hwb, ?_, harr, ?_⟩
  · rw [hs]
    exact congrArg RegEXE.inst hexe
  · rw [hs]
    show (t.state.exeLog ++ took (t.state.issues inp.dmValid) t.state.id.pc t.state.id.inst).length = _
    have hiss : t.state.issues inp.dmValid = false := by simp [State.issues, hdh]
    rw [hiss, took_false, List.append_nil, ht.exeLog]
  · rw [hs]
    show if (t.state.nextId memory inp).inst = 0#32 then t.state.nextIf inp ≠ _ else
      (t.state.nextId memory inp).pc ≠ _
    rw [hid, hif]
    exact ht.target

/-- EXE takes what is in ID: a bubble, or the wrong instruction. -/
theorem OffTrack.issued (h : Straight memory n) (hm : m < n) (ht : OffTrack memory m t)
    (hiss : t.state.issues inp.dmValid = true) (hu : timedClock memory t inp = .next u) : Phase memory n u := by
  obtain ⟨hs, hnow, -⟩ := timedClock_eq_next hu
  have hn := ht.now
  obtain ⟨hif, hid, hexe⟩ := front_of_issues memory hiss
  obtain ⟨hmem, hwb, harr⟩ := ht.drains h hm hu
  have hlog : u.state.exeLog = t.state.exeLog ++ took true t.state.id.pc t.state.id.inst := by
    rw [hs, ← hiss]
    rfl
  have htar := ht.target
  by_cases h0 : t.state.id.inst = 0#32
  · rw [if_pos h0] at htar
    refine .offTrack hm ⟨by omega, ht.pos, ?_, hmem, hwb, ?_, harr, ?_⟩
    · rw [hs]
      show (t.state.nextExe inp).inst = _
      rw [hexe]
      exact h0
    · rw [hlog, h0, took_zero, List.append_nil, ht.exeLog]
    · rw [hs]
      show if (t.state.nextId memory inp).inst = 0#32 then t.state.nextIf inp ≠ _ else
        (t.state.nextId memory inp).pc ≠ _
      rw [hid, hif]
      exact target_cycle h hm ht.pos htar
  · rw [if_neg h0] at htar
    refine .diverged hm (e := ⟨t.state.id.pc, t.state.id.inst⟩) ?_ htar
    rw [hlog, took, if_pos (by simpa using h0), ← ht.exeLog]
    exact List.getElem?_concat_length

theorem OffTrack.cycle (h : Straight memory n) (hm : m < n) (ht : OffTrack memory m t)
    (hu : timedClock memory t inp = .next u) : Phase memory n u := by
  obtain ⟨hmv, hf⟩ := ht.moves inp h hm
  obtain ⟨hh, hma⟩ := Bool.or_eq_false_iff.mp hmv
  rcases hdh : t.state.stallDH with _ | _
  · exact ht.issued h hm (issues_iff.mpr ⟨⟨hf, hma⟩, hh, hdh⟩) hu
  · exact .offTrack hm (ht.held h hm hdh hu)

/-- **One cycle.** -/
theorem phase_step (h : Straight memory n) (ht : Phase memory n t) (hu : timedClock memory t inp = .next u) :
    Phase memory n u := by
  rcases ht with ⟨ht, hn⟩ | ht | ⟨hm, ht⟩ | ⟨hm, he, hpc⟩
  · rcases hf : t.state.flush with _ | _
    · have hnow := (timedClock_eq_next hu).2.1
      have hin := ht.cycle h hn hf hu
      rcases Nat.lt_or_ge t.now n with hlt | hge
      · exact .inStep hin (by omega)
      · exact .draining (hin.draining (by omega))
    · obtain ⟨m, hm, hoff⟩ := ht.offTrack h hn hf hu
      exact .offTrack hm hoff
  · exact .draining (ht.cycle h hu)
  · exact ht.cycle h hm hu
  · refine .diverged hm ?_ hpc
    rw [(timedClock_eq_next hu).1]
    exact exeLog_cycle_getElem he

end

theorem inStep_reset (memory : Addr → BitVec 8) : InStep memory ⟨reset, 0, []⟩ := ⟨rfl, rfl, rfl, rfl, rfl, rfl, rfl⟩

theorem length_wbLog_mono {memory : Addr → BitVec 8} {s t : State} {inp : Input} (h : clock memory s inp = .next t) :
    s.wbLog.length ≤ t.wbLog.length := by
  obtain rfl := Outcome.next.inj h
  exact List.length_append ▸ Nat.le_add_right _ _

/-- **The instructions of a straight line enter WB one cycle after the other**, as long as those in EXE are the ones of
the line. -/
theorem arrivals_of_straight {memory : Addr → BitVec 8} {n : Nat} {inps : List Input} {u : Timed State}
    (h : Straight memory n) (hr : Reaches (timedClock memory) ⟨reset, 0, []⟩ inps u)
    (hsame : ∀ m < n, ∀ e, u.state.exeLog[m]? = some e → e.pc = BitVec.ofNat 15 (4 * m)) :
    u.arrivals.take n = List.range' 3 (min n u.state.wbLog.length) := by
  have hp : Phase memory n u := by
    refine hr.inv' (I := Phase memory n) (fun _ _ _ ht hu => phase_step h ht hu) ?_
    exact .inStep (inStep_reset memory) (Nat.zero_le n)
  obtain ⟨k, hk⟩ : ∃ k, u.arrivals.take n = List.range' 3 k := by
    rcases hp with ⟨ht, hn⟩ | ht | @⟨m, hm, ht⟩ | ⟨hm, he, hpc⟩
    · refine ⟨u.now - 3, ?_⟩
      rw [ht.arrivals, List.take_range'_of_length_le (by omega)]
    · exact ⟨_, ht.arrivals⟩
    · refine ⟨min (u.now - 3) m, ?_⟩
      rw [ht.arrivals, List.take_range'_of_length_le (by omega)]
    · exact absurd (hsame _ hm _ he) hpc
  have hlen : u.arrivals.length = u.state.wbLog.length := by
    refine Timed.length_arrivals ?_ ?_ hr
    · exact fun _ _ _ => length_wbLog_mono
    · rfl
  have hkl := congrArg List.length hk
  rw [List.length_take, List.length_range', hlen] at hkl
  rw [hk, hkl]

end SocModel.Chisel
