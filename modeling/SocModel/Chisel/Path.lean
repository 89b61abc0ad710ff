import Mathlib.Data.List.Chain
import SocModel.Chisel.Pipeline

/-!
# The path the pipeline follows

Which of ID and EXE hold a fetched instruction and not a bubble is beside the registers, and so is the path: the
fetched instructions that entered EXE, each with the address the architecture goes on to. The flush compares the
target with the pc in ID, which is 0 for a bubble; behind a fetched instruction in EXE there is never one.

* `State.succPc` : where the instruction in EXE goes on;
* `Follows` : what holds of IF, ID and EXE in every state of a run;
* `onPath` : the path starts at 0 and skips nothing.
-/

namespace SocModel.Chisel

open Lib Opcode

/-- The ALU's target of a jump or a taken branch, the next word otherwise. -/
def State.succPc (s : State) : Addr :=
  if opcode s.exe.inst = JAL ∨ opcode s.exe.inst = JALR ∨ (opcode s.exe.inst = BRANCH ∧ s.branchTaken = true) then
    s.exeTargetPc
  else s.exe.pc + 4

/-- An instruction that entered EXE, and where it goes on. -/
structure Visit where
  pc : Addr
  inst : Word
  next : Addr
  deriving DecidableEq, Repr

structure Tracked where
  cpu : State
  idFetched : Bool
  exeFetched : Bool
  path : List Visit

namespace Tracked

def start : Tracked := ⟨reset, false, false, []⟩

def step (memory : Addr → BitVec 8) (t : Tracked) (inp : Input) : Outcome Empty Tracked :=
  (Chisel.step memory t.cpu inp).bind fun u => .next
    { cpu := u
      idFetched := !t.cpu.flush && (!t.cpu.stallFront inp.dmValid || t.idFetched)
      exeFetched := !t.cpu.flush &&
        if t.cpu.stallMA inp.dmValid then t.exeFetched else !(t.cpu.hcf || t.cpu.stallDH) && t.idFetched
      path := t.path ++
        if t.cpu.issues inp.dmValid && t.idFetched then [⟨t.cpu.id.pc, t.cpu.id.inst, u.succPc⟩] else [] }

/-- The oldest fetch that has not entered EXE. -/
def front (t : Tracked) : Addr := if t.idFetched then t.cpu.id.pc else t.cpu.ifPc

end Tracked

/-- Where the path goes on. -/
def due (path : List Visit) : Addr := (path.getLast?.map Visit.next).getD 0

/-- The path starts at 0, each instruction is where the one before goes on, and is the one in the memory. -/
structure OnPath (memory : Addr → BitVec 8) (path : List Visit) : Prop where
  first : ∀ i ∈ path.head?, i.pc = 0
  next : path.IsChain fun i j => j.pc = i.next
  fetched : ∀ i ∈ path, i.inst = instMem memory i.pc

/-- IF, ID and EXE hold consecutive words, unless a stage holds a bubble. -/
structure Follows (memory : Addr → BitVec 8) (t : Tracked) : Prop where
  path : OnPath memory t.path
  id : t.idFetched = true → t.cpu.id.inst = instMem memory t.cpu.id.pc ∧ t.cpu.ifPc = t.cpu.id.pc + 4
  idBubble : t.idFetched = false → t.cpu.id.inst = 0
  exe : t.exeFetched = true → t.idFetched = true ∧ t.cpu.id.pc = t.cpu.exe.pc + 4 ∧ due t.path = t.cpu.succPc
  exeBubble : t.exeFetched = false → t.cpu.exe.inst = 0 ∧ t.front = due t.path

/-! ## Jumps and taken branches -/

theorem eEn_eq_true_iff {i : Word} : eEn i = true ↔ opcode i = BRANCH ∨ opcode i = JALR ∨ opcode i = JAL := by
  simp [eEn, or_assoc]

theorem eBranchTaken_of_jump {i : Word} (eq lt : Bool) (h : opcode i = JALR ∨ opcode i = JAL) :
    eBranchTaken i eq lt = true := by
  unfold eBranchTaken
  rcases h with h | h <;> rw [h] <;> rfl

/-- The two signals that redirect the fetch. -/
theorem succPc_eq (s : State) :
    s.succPc = if eEn s.exe.inst = true ∧ s.branchTaken = true then s.exeTargetPc else s.exe.pc + 4 := by
  have hj : opcode s.exe.inst = JALR ∨ opcode s.exe.inst = JAL → s.branchTaken = true := eBranchTaken_of_jump _ _
  unfold State.succPc
  refine if_congr ?_ rfl rfl
  rw [eEn_eq_true_iff]
  constructor
  · rintro (h | h | ⟨h, ht⟩)
    · exact ⟨.inr (.inr h), hj (.inr h)⟩
    · exact ⟨.inr (.inl h), hj (.inl h)⟩
    · exact ⟨.inl h, ht⟩
  · rintro ⟨h | h | h, ht⟩
    · exact .inr (.inr ⟨h, ht⟩)
    · exact .inr (.inl h)
    · exact .inl h

/-- The successor is that of the instruction in EXE. -/
theorem succPc_congr {s t : State} (h : t.exe = s.exe) : t.succPc = s.succPc := by
  cases s
  cases t
  cases h
  rfl

theorem flush_eq_true_iff {s : State} :
    s.flush = true ↔ (eEn s.exe.inst = true ∧ s.branchTaken = true) ∧ s.id.pc ≠ s.exeTargetPc := by
  simp [State.flush]

theorem flush_of_bubble {s : State} (h : s.exe.inst = 0) : s.flush = false := by
  have hen : eEn s.exe.inst = false := by
    rw [h]
    decide
  simp [State.flush, hen]

section

variable {memory : Addr → BitVec 8} {t : Tracked}

/-- The instruction in EXE sends the fetch elsewhere. -/
theorem Follows.due_of_flush (h : Follows memory t) (hf : t.cpu.flush = true) : due t.path = t.cpu.exeTargetPc := by
  rcases he : t.exeFetched with _ | _
  · rw [flush_of_bubble (h.exeBubble he).1] at hf
    cases hf
  · rw [(h.exe he).2.2, succPc_eq, if_pos (flush_eq_true_iff.mp hf).1]

/-- Without a flush the oldest fetch is where the path goes on. -/
theorem Follows.front_eq (h : Follows memory t) (hf : t.cpu.flush = false) : t.front = due t.path := by
  rcases he : t.exeFetched with _ | _
  · exact (h.exeBubble he).2
  · obtain ⟨hid, hpc, hdue⟩ := h.exe he
    rw [hdue, succPc_eq, Tracked.front, if_pos hid]
    split
    · next hj =>
      have hne : ¬ t.cpu.id.pc ≠ t.cpu.exeTargetPc := by
        intro hne
        rw [flush_eq_true_iff.mpr ⟨hj, hne⟩] at hf
        cases hf
      exact not_not.mp hne
    · exact hpc

/-! ## One cycle -/

theorem due_append (path : List Visit) (i : Visit) : due (path ++ [i]) = i.next := by
  simp [due]

/-- The path grows by the instruction that is due. -/
theorem OnPath.append {path : List Visit} (h : OnPath memory path) {i : Visit} (hpc : i.pc = due path)
    (hi : i.inst = instMem memory i.pc) : OnPath memory (path ++ [i]) where
  first := by
    intro j hj
    cases path with
    | nil =>
      obtain rfl : i = j := by simpa using hj
      exact hpc
    | cons k path => exact h.first j hj
  next := by
    refine h.next.append (List.isChain_singleton i) ?_
    intro j hj k hk
    obtain rfl : i = k := by simpa using hk
    rw [hpc, due, Option.mem_def.mp hj]
    rfl
  fetched := by
    intro j hj
    rcases List.mem_append.mp hj with hj | hj
    · exact h.fetched j hj
    · rw [List.mem_singleton.mp hj]
      exact hi

/-- A flush: the fetch goes to the target, ID and EXE take bubbles. -/
theorem Follows.flushed (h : Follows memory t) (hf : t.cpu.flush = true) (inp : Input) :
    Follows memory ⟨cycle memory t.cpu inp, false, false, t.path⟩ where
  path := h.path
  id hid := nomatch hid
  idBubble _ := congrArg Entry.inst (front_of_flush memory inp hf).2.1
  exe he := nomatch he
  exeBubble _ := by
    obtain ⟨hif, -, hexe⟩ := front_of_flush memory inp hf
    refine ⟨congrArg RegEXE.inst hexe, ?_⟩
    rw [h.due_of_flush hf]
    simp [Tracked.front, cycle, hif]

/-- MEM waits: nothing moves in front of it. -/
theorem Follows.waited (h : Follows memory t) (hf : t.cpu.flush = false) {inp : Input}
    (hma : t.cpu.stallMA inp.dmValid = true) :
    Follows memory ⟨cycle memory t.cpu inp, t.idFetched, t.exeFetched, t.path⟩ := by
  obtain ⟨hif, hid, hexe⟩ := front_of_wait memory hf hma
  have hsucc : (cycle memory t.cpu inp).succPc = t.cpu.succPc := succPc_congr hexe
  refine ⟨h.path, ?_, ?_, ?_, ?_⟩
  · simp only [cycle, hif, hid]
    exact h.id
  · simp only [cycle, hid]
    exact h.idBubble
  · rw [hsucc]
    simp only [cycle, hid, hexe]
    exact h.exe
  · simp only [Tracked.front, cycle, hif, hid, hexe]
    exact h.exeBubble

/-- The instruction in ID waits for a register: EXE takes a bubble. -/
theorem Follows.held (h : Follows memory t) (hf : t.cpu.flush = false) {inp : Input}
    (hma : t.cpu.stallMA inp.dmValid = false) (hdh : t.cpu.stallDH = true) :
    Follows memory ⟨cycle memory t.cpu inp, t.idFetched, false, t.path⟩ := by
  obtain ⟨hif, hid, hexe⟩ := front_of_hazard memory hf hma hdh
  refine ⟨h.path, ?_, ?_, fun he => (nomatch he), fun _ => ⟨?_, ?_⟩⟩
  · simp only [cycle, hif, hid]
    exact h.id
  · simp only [cycle, hid]
    exact h.idBubble
  · simp only [cycle, hexe]
  · rw [← h.front_eq hf]
    simp only [Tracked.front, cycle, hif, hid]

/-- EXE takes what is in ID, and ID the next fetch. -/
theorem Follows.issued (h : Follows memory t) {inp : Input} (hi : t.cpu.issues inp.dmValid = true) :
    Follows memory ⟨cycle memory t.cpu inp, true, t.idFetched, t.path ++
      if t.idFetched then [⟨t.cpu.id.pc, t.cpu.id.inst, (cycle memory t.cpu inp).succPc⟩] else []⟩ := by
  obtain ⟨hif, hid, hexe⟩ := front_of_issues memory hi
  have hfront := h.front_eq (issues_iff.mp hi).1.1
  refine ⟨?_, fun _ => ?_, fun hn => (nomatch hn), fun he => ?_, fun he => ?_⟩
  · rcases hr : t.idFetched with _ | _
    · rw [if_neg (by decide), List.append_nil]
      exact h.path
    · rw [if_pos rfl]
      rw [Tracked.front, if_pos hr] at hfront
      exact h.path.append hfront (h.id hr).1
  · simp only [cycle, hif, hid, and_self]
  · have hr : t.idFetched = true := he
    refine ⟨rfl, ?_, ?_⟩
    · simp only [cycle, hid, hexe]
      exact (h.id hr).2
    · simp only [hr, if_true]
      exact due_append _ _
  · have hr : t.idFetched = false := he
    rw [Tracked.front, hr, if_neg (by decide)] at hfront
    refine ⟨?_, ?_⟩
    · simp only [cycle, hexe]
      exact h.idBubble hr
    · rw [hr, if_neg (by decide), List.append_nil]
      simp only [Tracked.front, cycle, hid, if_true]
      exact hfront

/-- **One cycle.** -/
theorem Follows.step (h : Follows memory t) {inp : Input} {u : Tracked} (hs : t.step memory inp = .next u) :
    Follows memory u := by
  unfold Tracked.step Chisel.step at hs
  rcases hh : t.cpu.hcf with _ | _
  · rw [hh, if_neg (by decide), Outcome.bind_next] at hs
    obtain rfl := Outcome.next.inj hs
    rcases hf : t.cpu.flush with _ | _
    · rcases hma : t.cpu.stallMA inp.dmValid with _ | _
      · rcases hdh : t.cpu.stallDH with _ | _
        · have hi : t.cpu.issues inp.dmValid = true := issues_iff.mpr ⟨⟨hf, hma⟩, hh, hdh⟩
          simpa [State.stallFront, hf, hma, hh, hdh, hi] using h.issued hi
        · have hi : t.cpu.issues inp.dmValid = false := by simp [State.issues, hdh]
          simpa [State.stallFront, hf, hma, hh, hdh, hi] using h.held hf hma hdh
      · have hi : t.cpu.issues inp.dmValid = false := by simp [State.issues, hma]
        simpa [State.stallFront, hf, hma, hi] using h.waited hf hma
    · have hi : t.cpu.issues inp.dmValid = false := by simp [State.issues, hf]
      simpa [hf, hi] using h.flushed hf inp
  · rw [hh, if_pos rfl] at hs
    cases hs

end

theorem follows_start (memory : Addr → BitVec 8) : Follows memory Tracked.start where
  path := ⟨fun _ h => (nomatch h), List.isChain_nil, fun _ h => (nomatch h)⟩
  id h := nomatch h
  idBubble _ := rfl
  exe h := nomatch h
  exeBubble _ := ⟨rfl, rfl⟩

/-- **The architectural path.** Until `HCF` reaches WB, the fetched instructions that enter EXE start at 0, and each one is
where the one before goes on, whatever the memory holds and whenever the data memory answers. -/
theorem onPath (memory : Addr → BitVec 8) (inps : List Input) :
    Always (Tracked.step memory) (fun _ => False) (fun t => OnPath memory t.path) Tracked.start inps :=
  Always.of_inv (fun _ h => h.path) (fun _ _ _ h _ hs => Follows.step h hs) (fun _ _ e => e.elim)
    (follows_start memory) (Along.of_forall (fun _ _ => trivial) _ inps)

end SocModel.Chisel
