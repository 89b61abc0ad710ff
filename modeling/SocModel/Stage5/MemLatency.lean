import Mathlib.Data.List.Chain
import SocModel.Stage5.Stages

/-!
# The memory latency in MEM

How long `MEMStage::step` keeps a packet while `prMEM2WB` is free. The counter that decides it belongs to the pc of the
last access, not to the packet.

* `Waits` : a packet at the input is kept for `n` ticks and sent on in the next;
* `MemAccess.waits` : how many these are, from what the counter was left at (`waits_iff`);
* `waitsAll_iff` : a sequence of packets pays `memory_access_time` for each access exactly when no two accesses in a
  row have the same pc.
-/

namespace SocModel.Stage5

open Lib

/-- A packet at the input of MEM: the pointer and what the objects hold meanwhile. -/
structure Arrival where
  heap : Heap
  ptr : Ptr

def Arrival.packet (a : Arrival) : InstPacket := a.ptr.deref a.heap

/-- The packet stalls `step` for `n` ticks and leaves in the tick after. -/
inductive Waits (a : Arrival) : MEMStage → Nat → MEMStage → Prop where
  | go {m m' : MEMStage} (h : m.step a.heap a.ptr false = (m', true)) : Waits a m 0 m'
  | stall {m m₁ m' : MEMStage} {n : Nat} (h : m.step a.heap a.ptr false = (m₁, false)) (hw : Waits a m₁ n m') :
      Waits a m (n + 1) m'

/-- The packets of a sequence, and the ticks that each is kept. -/
inductive WaitsAll : MEMStage → List Arrival → List Nat → MEMStage → Prop where
  | nil {m : MEMStage} : WaitsAll m [] [] m
  | cons {m m₁ m' : MEMStage} {a : Arrival} {as : List Arrival} {n : Nat} {ns : List Nat} (h : Waits a m n m₁)
      (hs : WaitsAll m₁ as ns m') : WaitsAll m (a :: as) (n :: ns) m'

/-- A load or a store. -/
def Arrival.isMem (a : Arrival) : Bool := a.packet.inst.op.isMem

/-- What the packet should be kept for. -/
def due (a : Arrival) : Nat := if a.isMem then memoryAccessTime else 0

/-! ## One packet -/

namespace MemAccess

/-- The ticks that the counter still asks for. -/
def waits (s : MemAccess) (a : Arrival) : Nat :=
  if a.isMem then
    if s.lastMemAccessPc = a.packet.pc then memoryAccessTime - s.memAccessCount else memoryAccessTime
  else 0

/-- The counter once the packet has left. -/
def leave (s : MemAccess) (a : Arrival) : MemAccess := if a.isMem then ⟨a.packet.pc, memoryAccessTime⟩ else s

end MemAccess

section

variable {a : Arrival} {m m' : MEMStage} {n : Nat}

/-- A tick in which the packet leaves, or one in which it stays. -/
theorem MEMStage.step_eq (m : MEMStage) (a : Arrival) : m.step a.heap a.ptr false =
    if (m.access.check (some a.packet)).2 then ({ m with access := (m.access.check (some a.packet)).1 }, false)
    else ({ access := (m.access.check (some a.packet)).1, wbInstPacket := some a.ptr }, true) := by
  unfold MEMStage.step Arrival.packet MEMStage.instPacketHandler
  rcases m.access.check (some (a.ptr.deref a.heap)) with ⟨access, _ | _⟩ <;> rfl

/-- What the tests of `step` do to the counter. -/
theorem check_of_mem (s : MemAccess) (h : a.isMem = true) : s.check (some a.packet) =
    if s.lastMemAccessPc = a.packet.pc then
      if s.memAccessCount < memoryAccessTime then (⟨a.packet.pc, s.memAccessCount + 1⟩, true) else (s, false)
    else (⟨a.packet.pc, 1⟩, true) := by
  have hmem : isMemPacket (some a.packet) = true := h
  unfold MemAccess.check
  simp only [hmem]
  by_cases hpc : s.lastMemAccessPc = a.packet.pc
  · simp [hpc]
  · simp [hpc]

/-- Once the counter belongs to the packet, it runs up to `memory_access_time`. -/
theorem waits_counting (hmem : a.isMem = true) (k : Nat) (hpc : m.access.lastMemAccessPc = a.packet.pc)
    (hc : m.access.memAccessCount + k = memoryAccessTime) :
    Waits a m k { access := ⟨a.packet.pc, memoryAccessTime⟩, wbInstPacket := some a.ptr } := by
  induction k generalizing m with
  | zero =>
    apply Waits.go
    obtain ⟨⟨pc, count⟩, wb⟩ := m
    obtain rfl : pc = a.packet.pc := hpc
    obtain rfl : count = memoryAccessTime := hc
    rw [MEMStage.step_eq, check_of_mem _ hmem, if_pos rfl, if_neg (Nat.lt_irrefl _)]
    rfl
  | succ k ih =>
    have hlt : m.access.memAccessCount < memoryAccessTime := by omega
    have hstep : m.step a.heap a.ptr false =
        ({ m with access := ⟨a.packet.pc, m.access.memAccessCount + 1⟩ }, false) := by
      rw [MEMStage.step_eq, check_of_mem _ hmem, if_pos hpc, if_pos hlt]
      rfl
    exact .stall hstep (ih rfl (by dsimp only; omega))

/-- How long a packet is kept, and what it leaves. -/
theorem waits_exact (a : Arrival) (hc : m.access.memAccessCount ≤ memoryAccessTime) :
    Waits a m (m.access.waits a) { access := m.access.leave a, wbInstPacket := some a.ptr } := by
  unfold MemAccess.waits MemAccess.leave
  by_cases hmem : a.isMem = true
  · rw [if_pos hmem, if_pos hmem]
    by_cases hpc : m.access.lastMemAccessPc = a.packet.pc
    · rw [if_pos hpc]
      exact waits_counting hmem _ hpc (by omega)
    · -- the first tick sets the counter to 1
      rw [if_neg hpc]
      have hstep : m.step a.heap a.ptr false = ({ m with access := ⟨a.packet.pc, 1⟩ }, false) := by
        rw [MEMStage.step_eq, check_of_mem _ hmem, if_neg hpc]
        rfl
      have hrest := waits_counting hmem (m := { m with access := ⟨a.packet.pc, 1⟩ }) (memoryAccessTime - 1) rfl rfl
      exact .stall hstep hrest
  · rw [if_neg hmem, if_neg hmem]
    apply Waits.go
    have hno : isMemPacket (some a.packet) = false := Bool.not_eq_true _ ▸ hmem
    have hcheck : m.access.check (some a.packet) = (m.access, false) := by
      unfold MemAccess.check
      simp [hno]
    rw [MEMStage.step_eq, hcheck]
    rfl

/-- `step` is a function: the ticks and the stage are determined. -/
theorem Waits.det {n' : Nat} {m'' : MEMStage} (h : Waits a m n m') (h' : Waits a m n' m'') : n = n' ∧ m' = m'' := by
  induction h generalizing n' m'' with
  | go hgo =>
    cases h' with
    | go hgo' =>
      have heq := hgo.symm.trans hgo'
      simp only [Prod.mk.injEq, and_true] at heq
      exact ⟨rfl, heq⟩
    | stall hst' => exact nomatch congrArg Prod.snd (hgo.symm.trans hst')
  | stall hst _ ih =>
    cases h' with
    | go hgo' => exact nomatch congrArg Prod.snd (hst.symm.trans hgo')
    | stall hst' hw' =>
      have heq := hst.symm.trans hst'
      simp only [Prod.mk.injEq, and_true] at heq
      subst heq
      obtain ⟨rfl, rfl⟩ := ih hw'
      exact ⟨rfl, rfl⟩

theorem waits_iff (hc : m.access.memAccessCount ≤ memoryAccessTime) :
    Waits a m n m' ↔ n = m.access.waits a ∧ m' = { access := m.access.leave a, wbInstPacket := some a.ptr } := by
  constructor
  · intro h
    exact h.det (waits_exact a hc)
  · rintro ⟨rfl, rfl⟩
    exact waits_exact a hc

/-! ## Sequences -/

/-- The packets that access the memory. -/
def accesses (as : List Arrival) : List Arrival := as.filter Arrival.isMem

/-- No two of them in a row have the same pc. -/
def Alternates (as : List Arrival) : Prop := (accesses as).IsChain fun a b => a.packet.pc ≠ b.packet.pc

/-- What the counter holds between two packets: nothing counted yet, or an access that has been paid. -/
def MemAccess.Settled (s : MemAccess) : Prop := s.memAccessCount = 0 ∨ s.memAccessCount = memoryAccessTime

theorem settled_leave {s : MemAccess} (h : s.Settled) (a : Arrival) : (s.leave a).Settled := by
  unfold MemAccess.leave
  split
  · exact .inr rfl
  · exact h

/-- A packet is kept for what is due unless it is an access with the pc that has been paid. -/
theorem waits_eq_due_iff {s : MemAccess} (h : s.Settled) (a : Arrival) :
    s.waits a = due a ↔ (a.isMem = true → s.memAccessCount = memoryAccessTime → s.lastMemAccessPc ≠ a.packet.pc) := by
  unfold MemAccess.waits due
  have hpos : (0 : Nat) < memoryAccessTime := by decide
  by_cases hmem : a.isMem = true
  · rw [if_pos hmem, if_pos hmem]
    by_cases hpc : s.lastMemAccessPc = a.packet.pc
    · rw [if_pos hpc]
      rcases h with h | h
      · exact iff_of_true (by rw [h, Nat.sub_zero]) fun _ hc => absurd (h.symm.trans hc) hpos.ne
      · refine iff_of_false (by omega) fun hno => ?_
        exact hno hmem h hpc
    · rw [if_neg hpc]
      exact iff_of_true rfl fun _ _ => hpc
  · rw [if_neg hmem, if_neg hmem]
    exact iff_of_true rfl fun h => absurd h hmem

/-- From a settled counter, with the condition on the first access of the sequence apart. -/
theorem waitsAll_due_iff (m : MEMStage) (h : m.access.Settled) (as : List Arrival) :
    (∃ m', WaitsAll m as (as.map due) m') ↔
      (∀ a ∈ (accesses as).head?, m.access.memAccessCount = memoryAccessTime → m.access.lastMemAccessPc ≠ a.packet.pc) ∧
        Alternates as := by
  induction as generalizing m with
  | nil => exact iff_of_true ⟨m, .nil⟩ ⟨fun _ ha => (nomatch ha), List.IsChain.nil⟩
  | cons a as ih =>
    have hc : m.access.memAccessCount ≤ memoryAccessTime := by
      rcases h with h | h <;> omega
    have hstep : (∃ m', WaitsAll m (a :: as) ((a :: as).map due) m') ↔ m.access.waits a = due a ∧
        ∃ m', WaitsAll { access := m.access.leave a, wbInstPacket := some a.ptr } as (as.map due) m' := by
      constructor
      · rintro ⟨m', hw⟩
        cases hw with
        | cons hw hs =>
          obtain ⟨hn, rfl⟩ := (waits_iff hc).mp hw
          exact ⟨hn.symm, m', hs⟩
      · rintro ⟨hn, m', hs⟩
        exact ⟨m', .cons ((waits_iff hc).mpr ⟨hn.symm, rfl⟩) hs⟩
    rw [hstep, ih _ (settled_leave h a), waits_eq_due_iff h a]
    unfold Alternates accesses
    by_cases hmem : a.isMem = true
    · rw [List.filter_cons_of_pos hmem, List.isChain_cons, List.head?_cons]
      simp only [MemAccess.leave, hmem, if_true, forall_const, Option.mem_def, Option.some.injEq,
        forall_eq']
    · rw [List.filter_cons_of_neg hmem]
      simp only [MemAccess.leave, hmem, Bool.false_eq_true, if_false, false_implies, true_and]

/-- **When the latency is paid.** From reset, each load and store of a sequence keeps MEM stalled for
`memory_access_time` ticks and each other packet for none, exactly when no access has the pc of the access before
it. -/
theorem waitsAll_iff (as : List Arrival) : (∃ m', WaitsAll {} as (as.map due) m') ↔ Alternates as := by
  rw [waitsAll_due_iff {} (.inl rfl) as]
  apply and_iff_right
  intro a _ hc
  exact absurd hc (by decide)

/-- A `LW` at pc 0 that a loop brings back. -/
def loopLoad : Arrival := ⟨fun _ => ⟨{ op := .LW }, 0, false⟩, ⟨0, 0⟩⟩

theorem not_waitsAll_loop : ¬ ∃ m', WaitsAll {} [loopLoad, loopLoad] [memoryAccessTime, memoryAccessTime] m' := by
  intro h
  have hno := ((waitsAll_due_iff {} (.inl rfl) [loopLoad, loopLoad]).mp h).2
  exact absurd rfl (List.isChain_cons_cons.mp hno).1

end

end SocModel.Stage5
