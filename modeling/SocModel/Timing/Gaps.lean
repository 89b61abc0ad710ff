import SocModel.Timing.Cycles
import SocModel.Timing.Encoding
import SocModel.Timing.Ticks

/-!
# The timing of the two pipelines

The 5-stage model against the Chisel pipeline that it models. IFStage looks for a taken transfer at the place where its
pointers have the packet in front of the last one it sent, so it delays the second packet behind the transfer by one
tick, where the Chisel CPU delays the first one by two cycles. And IFStage waits for a data hazard that IDStage has
already waited for: the packet behind the one that waited is delayed as well.

* `ExecutedByBoth` : one program of ALU, branch and jump instructions, run by both;
* `sameGaps_of_unhindered` : without taken transfers and data hazards the two agree.
-/

namespace SocModel.Timing

open Lib Stage5

/-- Both run the same ALU, branch and jump instructions: the words in the memory are the instructions', and those that
enter EXE are the ones the functional CPU executes. -/
structure ExecutedByBoth (memory : Chisel.Addr → BitVec 8) (executed : List InstPacket)
    (exeLog : List Chisel.Entry) : Prop where
  encoded : ∀ p ∈ executed, Encodes p.pc (Chisel.instMem memory (p.pc.setWidth 15)) p.inst
  same : ∀ x ∈ executed.zip exeLog, x.2.pc = x.1.pc.setWidth 15

instance (memory : Chisel.Addr → BitVec 8) (executed : List InstPacket) (exeLog : List Chisel.Entry) :
    Decidable (ExecutedByBoth memory executed exeLog) :=
  decidable_of_iff ((∀ p ∈ executed, Encodes p.pc (Chisel.instMem memory (p.pc.setWidth 15)) p.inst) ∧
      ∀ x ∈ executed.zip exeLog, x.2.pc = x.1.pc.setWidth 15)
    ⟨fun h => ⟨h.1, h.2⟩, fun h => ⟨h.encoded, h.same⟩⟩

section

variable {memory : Chisel.Addr → BitVec 8} {s : Pipeline} {exeLog : List Chisel.Entry}

theorem setWidth_address (k : Nat) : (BitVec.ofNat 32 (4 * k)).setWidth 15 = BitVec.ofNat 15 (4 * k) := by
  apply BitVec.eq_of_toNat_eq
  simp only [BitVec.toNat_setWidth, BitVec.toNat_ofNat]
  exact Nat.mod_mod_of_dvd _ (by decide)

/-- The memory holds what the functional CPU executes. -/
theorem decodes_entryAt (hq : Sequential s) (hb : ExecutedByBoth memory s.executed exeLog) {k : Nat} {p : InstPacket}
    (hp : s.executed[k]? = some p) : Decodes (Chisel.entryAt memory k).inst p.inst := by
  have he := (hb.encoded p (List.mem_of_getElem? hp)).decodes
  rw [hq.pc k p hp, setWidth_address] at he
  exact he

theorem straight_of_unhindered (hq : Sequential s) (hb : ExecutedByBoth memory s.executed exeLog)
    (hu : Unhindered s.executed) : Chisel.Straight memory s.executed.length where
  ne_zero k hk := (decodes_entryAt hq hb (List.getElem?_eq_getElem hk)).ne_zero
  not_mem k hk := (decodes_entryAt hq hb (List.getElem?_eq_getElem hk)).not_loadStore
  not_hcf k hk := by
    have hp := List.getElem?_eq_getElem (Nat.lt_of_succ_lt hk)
    rw [ne_eq, (decodes_entryAt hq hb hp).hcf]
    exact hq.hcf k _ hp hk
  no_overlap k hk j hj hd := by
    have hp := List.getElem?_eq_getElem hk
    have hp' := List.getElem?_eq_getElem (Nat.lt_trans hj hk)
    exact (decodes_entryAt hq hb hp).overlap_eq_false (decodes_entryAt hq hb hp')
      (hu.independent k j _ _ hp hp' hj hd)

theorem pc_of_exeLog (hq : Sequential s) (hb : ExecutedByBoth memory s.executed exeLog) {k : Nat}
    (hk : k < s.executed.length) {e : Chisel.Entry} (he : exeLog[k]? = some e) : e.pc = BitVec.ofNat 15 (4 * k) := by
  have hp := List.getElem?_eq_getElem hk
  have hx : (s.executed[k], e) ∈ s.executed.zip exeLog :=
    List.mem_of_getElem? (List.getElem?_zip_eq_some.mpr ⟨hp, he⟩)
  rw [hb.same _ hx, hq.pc k _ hp, setWidth_address]

end

/-- **The two pipelines agree** on instructions of which none is a taken transfer and none reads what one of the three
before it writes, when the stages of the 5-stage model step downstream first: each arrives at WB one tick, and one
cycle, after the one before it. -/
theorem sameGaps_of_unhindered {imem : Imem} {dmem : BaseMemory} {memory : Chisel.Addr → BitVec 8} {ks : List Tick}
    {inps : List Chisel.Input} {c : Timed Pipeline} {h : Timed Chisel.State}
    (hc : Reaches timedTick ⟨.init imem dmem, 0, []⟩ ks c)
    (hh : Reaches (Chisel.timedClock memory) ⟨Chisel.reset, 0, []⟩ inps h)
    (hb : ExecutedByBoth memory c.state.executed h.state.exeLog) (ho : ∀ k ∈ ks, k.order = downstreamFirst)
    (hu : Unhindered c.state.executed) : SameGaps c.arrivals h.arrivals := by
  have hq : Sequential c.state := sequential_of_ticks hc hu.notTaken
  have hm : ∀ p ∈ c.state.executed, p.inst.op.isMem = false := fun p hp => (hb.encoded p hp).decodes.mem
  have hx := arrivals_of_unhindered hc ho hu hm
  have hy := Chisel.arrivals_of_straight (straight_of_unhindered hq hb hu) hh
    (fun m hm e he => pc_of_exeLog hq hb hm he)
  exact sameGaps_of_range' hx (length_recycled_le hc) hy

/-! ## Two programs -/

/-- The bytes of a program that starts at address 0. -/
def program (ws : List Word) : Chisel.Addr → BitVec 8 := fun a =>
  (ws.getD (a.toNat / 4) 0).extractLsb' (8 * (a.toNat % 4)) 8

/-- Ticks in which the stages step downstream first, each packet in an object of its own. -/
def ticks (n : Nat) : List Tick := (List.range n).map fun k => ⟨downstreamFirst, k⟩

theorem order_of_mem_ticks {n : Nat} {k : Tick} (hk : k ∈ ticks n) : k.order = downstreamFirst := by
  obtain ⟨j, -, rfl⟩ := List.mem_map.mp hk
  rfl

/-- The words of `straightLine`. -/
def straightLineWords : List Word := [0x00100093, 0x00200113, 0x00300193, 0x0000000b]

theorem sameGaps_of_unhindered_straightLine : ∃ c h,
    Reaches timedTick ⟨.init straightLine ⟨0, fun _ => 0⟩, 0, []⟩ (ticks 8) c ∧
    Reaches (Chisel.timedClock (program straightLineWords)) ⟨Chisel.reset, 0, []⟩ (List.replicate 7 ⟨false, 0⟩) h ∧
    c.arrivals = [4, 5, 6, 7] ∧ h.arrivals = [3, 4, 5, 6] ∧ SameGaps c.arrivals h.arrivals := by
  have hrun : (run timedTick ⟨.init straightLine ⟨0, fun _ => 0⟩, 0, []⟩ (ticks 8)).holds (fun c =>
      (run (Chisel.timedClock (program straightLineWords)) ⟨Chisel.reset, 0, []⟩ (List.replicate 7 ⟨false, 0⟩)).holds
        fun h => decide (c.arrivals = [4, 5, 6, 7] ∧ h.arrivals = [3, 4, 5, 6] ∧ Unhindered c.state.executed ∧
          ExecutedByBoth (program straightLineWords) c.state.executed h.state.exeLog)) = true := by decide +kernel
  obtain ⟨c, hc, hrun⟩ := Outcome.exists_of_holds hrun
  obtain ⟨h, hh, hrun⟩ := Outcome.exists_of_holds hrun
  obtain ⟨hx, hy, hu, hb⟩ := of_decide_eq_true hrun
  exact ⟨c, h, hc, hh, hx, hy, sameGaps_of_unhindered hc hh hb (fun _ => order_of_mem_ticks) hu⟩

/-- The program `jal x0, 8; addi x9, x0, 1; addi x1, x0, 1; addi x2, x0, 2; hcf`, which jumps over the second. -/
def jumpOver : Imem := .ofList
  [{ op := .JAL, a1 := { reg := 0 }, a2 := { imm := 8 } },
    { op := .ADDI, a1 := { reg := 9 }, a2 := { reg := 0 }, a3 := { imm := 1 } },
    { op := .ADDI, a1 := { reg := 1 }, a2 := { reg := 0 }, a3 := { imm := 1 } },
    { op := .ADDI, a1 := { reg := 2 }, a2 := { reg := 0 }, a3 := { imm := 2 } }, { op := .HCF }]

def jumpOverWords : List Word := [0x0080006f, 0x00100493, 0x00100093, 0x00200113, 0x0000000b]

/-- The instruction the jump leads to arrives at WB one tick after the jump in the 5-stage model, and three cycles after
it in the Chisel CPU. -/
theorem not_sameGaps_jumpOver : ¬ ∀ (imem : Imem) (dmem : BaseMemory) (memory : Chisel.Addr → BitVec 8)
    (ks : List Tick) (inps : List Chisel.Input) (c : Timed Pipeline) (h : Timed Chisel.State),
    (∀ k ∈ ks, k.order.Perm [.IF, .ID, .EXE, .MEM, .WB]) →
    Reaches timedTick ⟨.init imem dmem, 0, []⟩ ks c →
    Reaches (Chisel.timedClock memory) ⟨Chisel.reset, 0, []⟩ inps h →
    ExecutedByBoth memory c.state.executed h.state.exeLog → SameGaps c.arrivals h.arrivals := by
  intro hall
  have hrun : (run timedTick ⟨.init jumpOver ⟨0, fun _ => 0⟩, 0, []⟩ (ticks 9)).holds (fun c =>
      (run (Chisel.timedClock (program jumpOverWords)) ⟨Chisel.reset, 0, []⟩ (List.replicate 9 ⟨false, 0⟩)).holds
        fun h => decide (c.arrivals = [4, 5, 7, 8] ∧ h.arrivals = [3, 6, 7, 8] ∧
          ExecutedByBoth (program jumpOverWords) c.state.executed h.state.exeLog)) = true := by decide +kernel
  obtain ⟨c, hc, hrun⟩ := Outcome.exists_of_holds hrun
  obtain ⟨h, hh, hrun⟩ := Outcome.exists_of_holds hrun
  obtain ⟨hx, hy, hb⟩ := of_decide_eq_true hrun
  have horder : ∀ k ∈ ticks 9, k.order.Perm [.IF, .ID, .EXE, .MEM, .WB] := by
    intro k hk
    rw [order_of_mem_ticks hk]
    decide
  have hgap := hall _ _ _ _ _ c h horder hc hh hb 0 4 5 3 6
  rw [hx, hy] at hgap
  exact absurd (hgap rfl rfl rfl rfl) (by decide)

end SocModel.Timing
