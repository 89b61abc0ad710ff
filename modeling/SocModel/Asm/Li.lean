import SocModel.Asm.Lines
import SocModel.Cpu.Model
import SocModel.Lib.Literal

/-!
# `li`

The pseudo-instruction splits its number into the upper twenty and the lower twelve bits; the lower part is not
sign-extended, neither by the assembler nor by the CPU.

* `liRange_clampLong` : a number of more than 64 bits stays out of range;
* `liSlots_eq` : what `li` emits for a number;
* `li_loads` : the two instructions, executed one after another.
-/

namespace SocModel.Asm

open Lib Cpu

/-- The numbers that `li` takes. -/
def LiRange (v : Int) : Prop := -2 ^ 31 ≤ v ∧ v ≤ 2 ^ 32 - 1

instance (v : Int) : Decidable (LiRange v) := by unfold LiRange; infer_instance

/-- Saturation keeps a number in the range, and out of it. -/
theorem liRange_clampLong (v : Int) : LiRange (clampLong v).1 ↔ LiRange v := by
  unfold clampLong LiRange
  split
  · simp only
    omega
  split
  · simp only
    omega
  · rfl

theorem clampLong_of_liRange {v : Int} (h : LiRange v) : (clampLong v).1 = v := by
  unfold LiRange at h
  rw [clampLong_of_mem (by omega) (by omega)]

theorem liSlots_eq {line : Nat} {o1 o2 : CStr} {rd : Nat} {v : Int} (hrd : parseReg line o1 = .ok rd)
    (hv : literal o2 = some v) : liSlots line o1 o2 =
      if LiRange v then
        .ok [luiSlot line rd (BitVec.ofInt 32 v >>> 12), addiSlot line rd rd (BitVec.ofInt 32 v &&& 0xFFF)]
      else .error (.exit 1) := by
  have hnn : ¬ (rd : Int) < 0 := by omega
  unfold liSlots
  rw [hrd, strtol_of_literal hv]
  simp only [bind, Except.bind, hnn, false_or]
  by_cases hr : LiRange v
  · rw [clampLong_of_liRange hr, if_pos hr, if_neg]
    · rfl
    · unfold LiRange at hr
      omega
  · rw [if_neg hr, if_pos]
    have hc := mt (liRange_clampLong v).mp hr
    unfold LiRange at hc
    omega

theorem parsePseudoinstructions_li {line : Nat} {m : Imem} {k : Nat} {o1 o2 : CStr} {o4 : Option CStr} :
    parsePseudoinstructions line "li".toList m k ⟨some o1, some o2, none, o4⟩ = rewrite m k (liSlots line o1 o2) :=
  parsePseudoinstructions_eq line "li".toList m k _

/-- An instruction without a request commits at once. -/
theorem processInstr_of_commit {i : Instr} {s : Cpu.State} {rf : Regfile} {pc' : Word} (port : Port)
    (hc : i.op.isCfu = false) (hm : i.op ≠ .MUL) (h : execBase i s.pc s.rf = .ok (.commit rf pc')) :
    ∃ t, processInstr port i s = .ok t ∧ t.rf = rf ∧ t.pc = pc' := by
  have he : execute i s.pc s.rf = .ok (.commit rf pc') := by
    unfold execute
    rw [if_neg (by simp [hc]), if_neg hm, h]
  unfold processInstr
  rw [he]
  exact ⟨_, rfl, rfl, rfl⟩

/-- **`li` loads its number.** Out of the range it is rejected; within it, with room for two slots, it is accepted,
and the two instructions leave the number in the register, whatever the state they start in. -/
theorem li_loads {line : Nat} {o1 o2 : CStr} {rd : Fin 32} {v : Int} (hrd : parseReg line o1 = .ok rd.val)
    (hv : literal o2 = some v) (m : Imem) (k : Nat) (o4 : Option CStr) :
    (¬ LiRange v → parsePseudoinstructions line "li".toList m k ⟨some o1, some o2, none, o4⟩ = .error (.exit 1)) ∧
      (LiRange v → k + 2 ≤ m.size → ∃ m', parsePseudoinstructions line "li".toList m k
        ⟨some o1, some o2, none, o4⟩ = .ok (m', 2)) ∧
      ∀ m' c, parsePseudoinstructions line "li".toList m k ⟨some o1, some o2, none, o4⟩ = .ok (m', c) →
        ∀ (port port' : Port) (s : Cpu.State), ∃ s1 s2, processInstr port (m'.code k) s = .ok s1 ∧
          processInstr port' (m'.code (k + 1)) s1 = .ok s2 ∧
          s2.rf = Function.update s.rf rd (BitVec.ofInt 32 v) ∧ s2.pc = s.pc + 8 := by
  rw [parsePseudoinstructions_li, liSlots_eq hrd hv]
  refine ⟨fun hr => ?_, fun hr hroom => ?_, fun m' c h port port' s => ?_⟩
  · rw [if_neg hr]
    rfl
  · rw [if_pos hr, rewrite]
    obtain ⟨m', hm'⟩ := @exists_writeSlots m k
      [luiSlot line rd (BitVec.ofInt 32 v >>> 12), addiSlot line rd rd (BitVec.ofInt 32 v &&& 0xFFF)] hroom
    refine ⟨m', ?_⟩
    simp only [bind, Except.bind, hm']
    rfl
  · obtain ⟨fs, hfs, hw, -⟩ := rewrite_eq_ok h
    split at hfs
    · obtain rfl := Except.ok.inj hfs
      have hlui : m'.code k = luiSlot line rd.val (BitVec.ofInt 32 v >>> 12) (m.code k) :=
        writeSlots_code hw (j := 0) Nat.two_pos
      have haddi : m'.code (k + 1) = addiSlot line rd.val rd.val (BitVec.ofInt 32 v &&& 0xFFF) (m.code (k + 1)) :=
        writeSlots_code hw (j := 1) Nat.one_lt_two
      rw [hlui, haddi]
      obtain ⟨rf1, he1, he2⟩ := @execBase_la (luiSlot line rd.val (BitVec.ofInt 32 v >>> 12) (m.code k))
        (addiSlot line rd.val rd.val (BitVec.ofInt 32 v &&& 0xFFF) (m.code (k + 1))) rd (BitVec.ofInt 32 v)
        rfl rfl rfl rfl rfl rfl rfl s.pc (s.pc + 4) s.rf
      obtain ⟨s1, hs1, hrf1, hpc1⟩ := processInstr_of_commit port rfl (by intro h; cases h) he1
      obtain ⟨s2, hs2, hrf2, hpc2⟩ := processInstr_of_commit port' rfl (by intro h; cases h) (hpc1 ▸ hrf1 ▸ he2)
      refine ⟨s1, s2, hs1, hs2, hrf2, ?_⟩
      rw [hpc2, hpc1, BitVec.add_assoc]
      rfl
    · cases hfs

theorem li_loads_minus_2049 : ∃ m', parsePseudoinstructions 1 "li".toList ⟨2, fun _ => {}⟩ 0
    ⟨some "x5".toList, some "-2049".toList, none, none⟩ = .ok (m', 2) ∧
      ∀ (port port' : Port) (s : Cpu.State), ∃ s1 s2, processInstr port (m'.code 0) s = .ok s1 ∧
        processInstr port' (m'.code 1) s1 = .ok s2 ∧
        s2.rf = Function.update s.rf 5 (BitVec.ofInt 32 (-2049)) ∧ s2.pc = s.pc + 8 := by
  have h := @li_loads 1 "x5".toList "-2049".toList 5 (-2049) (by decide) (by decide) ⟨2, fun _ => {}⟩ 0 none
  obtain ⟨m', hm'⟩ := h.2.1 (by decide) (by decide)
  exact ⟨m', hm', h.2.2 m' 2 hm'⟩

end SocModel.Asm
