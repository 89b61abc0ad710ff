import Mathlib.Tactic.NormNum
import SocModel.Asm.Resolve

/-!
# The range checks of branches and jumps

`normalize_labels` compares the distance to a target with a power of two, of a branch with twice the reach of its
immediate; of `JAL` it reads the third operand, which holds no target.

* `Encodable` : the distances that a branch and a jump can have;
* `normalizeInstr_isOk_iff` : when the instruction of a slot is accepted;
* `rangeExact_iff` : the slots where that is so exactly of the distances that can be encoded.
-/

namespace SocModel.Asm

open Lib

/-- The immediates of the B and the J format. -/
def Encodable (op : InstrType) (d : Int) : Prop :=
  if op = .JAL then -2 ^ 20 ≤ d ∧ d ≤ 2 ^ 20 - 2 ∧ d % 2 = 0 else -4096 ≤ d ∧ d ≤ 4094 ∧ d % 2 = 0

instance (op : InstrType) (d : Int) : Decidable (Encodable op d) := by unfold Encodable; infer_instance

/-- The distance from slot `k` to the target, as the checks compute it. -/
def distance (k : Nat) (v : Word) : Int := v.toInt - 4 * k

/-- `normalize_labels` accepts the instruction of slot `k`. -/
def NormalizeAccepts (labels : List LabelLoc) (k : Nat) (i : Instr) : Prop :=
  ∃ i', normalizeInstr labels k i = .ok i'

/-- A reference from slot `k` to the target `v` is accepted exactly when the distance can be encoded. -/
def RangeExact (labels : List LabelLoc) (k : Nat) (i : Instr) (v : Word) : Prop :=
  NormalizeAccepts labels k i ↔ Encodable i.op (distance k v)

/-- The label of an operand, if it has one, is in the table. -/
def Defined (labels : List LabelLoc) (i : Instr) (o : Operand) : Prop :=
  o.type = .label → ∃ v, labelAddr labels i.origLine o.label = .ok v

/-- Every label that the slot names is in the table. -/
def LabelsDefined (labels : List LabelLoc) (i : Instr) : Prop :=
  Defined labels i i.a1 ∧ Defined labels i i.a2 ∧ Defined labels i i.a3

theorem checkRange_isOk_iff (pc : Nat) (v : Word) (limit : Int) :
    (∃ u, checkRange pc v limit = .ok u) ↔ |(pc : Int) - v.toInt| < limit := by
  unfold checkRange
  split
  · next h => simp [Int.not_lt.mpr h]
  · next h => exact iff_of_true ⟨(), rfl⟩ (Int.not_le.mp h)

theorem bind_isOk_iff {α β : Type} {x : Except AsmError α} {f : α → Except AsmError β} :
    (∃ b, x >>= f = .ok b) ↔ ∃ a, x = .ok a ∧ ∃ b, f a = .ok b := by
  simp only [Except.bind_eq_ok]
  exact ⟨fun ⟨b, a, ha, hb⟩ => ⟨a, ha, b, hb⟩, fun ⟨a, ha, b, hb⟩ => ⟨b, a, ha, hb⟩⟩

/-! ## What is accepted -/

section Operands

variable {labels : List LabelLoc} {k : Nat} {i i' : Instr}

theorem resolveA1_isOk_iff : (∃ i', resolveA1 labels i = .ok i') ↔ Defined labels i i.a1 := by
  unfold resolveA1 Defined
  split
  · next h =>
    simp only [h, forall_const, bind_isOk_iff]
    exact exists_congr fun v => and_iff_left ⟨_, rfl⟩
  · next h => simp [h]

theorem resolveA1_keeps (h : resolveA1 labels i = .ok i') :
    i'.op = i.op ∧ i'.origLine = i.origLine ∧ i'.a2 = i.a2 ∧ i'.a3 = i.a3 := by
  obtain ⟨o, -, rfl⟩ := resolveA1_eq_ok h
  exact ⟨rfl, rfl, rfl, rfl⟩

/-- The second operand; the check of `JAL` reads the third one. -/
theorem resolveA2_isOk_iff : (∃ i', resolveA2 labels k i = .ok i') ↔
    Defined labels i i.a2 ∧ (i.a2.type = .label → i.op = .JAL → |((k * 4 : Nat) : Int) - i.a3.imm.toInt| < 2 ^ 21) := by
  unfold resolveA2 Defined
  split
  · next h =>
    simp only [bind_isOk_iff, h, forall_const]
    by_cases hj : i.op = .JAL
    · simp [hj, checkRange_isOk_iff]
    · simp [hj]
  · next h => simp [h]

theorem resolveA2_keeps (h : resolveA2 labels k i = .ok i') :
    i'.op = i.op ∧ i'.origLine = i.origLine ∧ i'.a3 = i.a3 := by
  obtain ⟨o, -, -, rfl⟩ := resolveA2_eq_ok h
  exact ⟨rfl, rfl, rfl⟩

/-- The third operand; the check of a branch reads its target. -/
theorem resolveA3_isOk_iff : (∃ i', resolveA3 labels k i = .ok i') ↔
    Defined labels i i.a3 ∧ (i.a3.type = .label → i.op ∈ branches →
      ∀ v, labelAddr labels i.origLine i.a3.label = .ok v → |((k * 4 : Nat) : Int) - v.toInt| < 2 ^ 13) := by
  unfold resolveA3 Defined
  split
  · next h =>
    simp only [bind_isOk_iff, h, forall_const]
    cases hv : labelAddr labels i.origLine i.a3.label with
    | error e => simp
    | ok v =>
      by_cases hb : i.op ∈ branches
      · simp [branches] at hb
        simp [hb, branches, checkRange_isOk_iff]
      · simp [branches] at hb
        simp [hb, branches]
  · next h => simp [h]

/-- **The second pass accepts a slot** when its labels are defined and the checks pass. -/
theorem normalizeInstr_isOk_iff : NormalizeAccepts labels k i ↔
    LabelsDefined labels i ∧
      (i.a2.type = .label → i.op = .JAL → |((k * 4 : Nat) : Int) - i.a3.imm.toInt| < 2 ^ 21) ∧
      (i.a3.type = .label → i.op ∈ branches →
        ∀ v, labelAddr labels i.origLine i.a3.label = .ok v → |((k * 4 : Nat) : Int) - v.toInt| < 2 ^ 13) := by
  have hrest {i1 : Instr} (h1 : resolveA1 labels i = .ok i1) :
      (∃ i', (resolveA2 labels k i1 >>= resolveA3 labels k) = .ok i') ↔
        (Defined labels i i.a2 ∧
          (i.a2.type = .label → i.op = .JAL → |((k * 4 : Nat) : Int) - i.a3.imm.toInt| < 2 ^ 21)) ∧
        (Defined labels i i.a3 ∧ (i.a3.type = .label → i.op ∈ branches →
          ∀ v, labelAddr labels i.origLine i.a3.label = .ok v → |((k * 4 : Nat) : Int) - v.toInt| < 2 ^ 13)) := by
    obtain ⟨hop, hline, ha2, ha3⟩ := resolveA1_keeps h1
    have h2iff := @resolveA2_isOk_iff labels k i1
    rw [Defined, hop, hline, ha2, ha3, ← Defined] at h2iff
    rw [bind_isOk_iff, ← h2iff]
    constructor
    · rintro ⟨i2, h2, h3⟩
      obtain ⟨hop', hline', ha3'⟩ := resolveA2_keeps h2
      rw [resolveA3_isOk_iff, Defined, hop', hline', ha3', hop, hline, ha3, ← Defined] at h3
      exact ⟨⟨i2, h2⟩, h3⟩
    · rintro ⟨⟨i2, h2⟩, h3⟩
      obtain ⟨hop', hline', ha3'⟩ := resolveA2_keeps h2
      refine ⟨i2, h2, ?_⟩
      rw [resolveA3_isOk_iff, Defined, hop', hline', ha3', hop, hline, ha3, ← Defined]
      exact h3
  unfold NormalizeAccepts LabelsDefined
  rw [normalizeInstr_eq, bind_isOk_iff, ← resolveA1_isOk_iff]
  constructor
  · rintro ⟨i1, h1, h2⟩
    obtain ⟨⟨hd2, hc2⟩, hd3, hc3⟩ := (hrest h1).mp h2
    exact ⟨⟨⟨i1, h1⟩, hd2, hd3⟩, hc2, hc3⟩
  · rintro ⟨⟨⟨i1, h1⟩, hd2, hd3⟩, hc2, hc3⟩
    exact ⟨i1, h1, (hrest h1).mpr ⟨⟨hd2, hc2⟩, hd3, hc3⟩⟩

end Operands

/-! ## Exactness -/

/-- The slots where the checks decide as the encodings do: a branch with a distance that can be encoded or is not
under twice the reach, a `JAL` whose third operand is in reach exactly when the distance can be encoded, and no label
that is missing beside a distance that can be encoded. -/
def RangeCondition (labels : List LabelLoc) (k : Nat) (i : Instr) (v : Word) : Prop :=
  (LabelsDefined labels i →
    if i.op = .JAL then |4 * (k : Int) - i.a3.imm.toInt| < 2 ^ 21 ↔ Encodable i.op (distance k v)
    else Encodable i.op (distance k v) ∨ 8192 ≤ |distance k v|) ∧
  (¬ LabelsDefined labels i → ¬ Encodable i.op (distance k v))

/-- **The range checks** decide by what can be encoded exactly in these slots. -/
theorem rangeExact_iff {labels : List LabelLoc} {k : Nat} {i : Instr} {name : CStr} {v : Word} (hr : Refers i name)
    (hv : labelAddr labels i.origLine (copyLabel name) = .ok v) :
    RangeExact labels k i v ↔ RangeCondition labels k i v := by
  have hk : ((k * 4 : Nat) : Int) = 4 * (k : Int) := by push_cast; ring
  unfold RangeExact RangeCondition
  rw [normalizeInstr_isOk_iff, hk]
  rcases hr with ⟨hb, ht, hl⟩ | ⟨hj, ht, hl⟩
  · have hnj : i.op ≠ .JAL := fun hj => absurd (hj ▸ hb) (by decide)
    rw [← hl] at hv
    have hdist : |4 * (k : Int) - v.toInt| < 2 ^ 13 ↔ |distance k v| < 8192 := by
      rw [distance, abs_sub_comm]
      norm_num
    have hreach : (∀ w, labelAddr labels i.origLine i.a3.label = .ok w → |4 * (k : Int) - w.toInt| < 2 ^ 13) ↔
        |distance k v| < 8192 := by
      rw [← hdist]
      constructor
      · exact fun h => h v hv
      · rintro h w hw
        rwa [← Except.ok.inj (hv.symm.trans hw)]
    have henc : Encodable i.op (distance k v) → |distance k v| < 8192 := by
      intro he
      rw [Encodable, if_neg hnj] at he
      rw [abs_lt]
      omega
    simp only [hnj, false_imp_iff, imp_true_iff, true_and, ht, hb, forall_const, hreach, if_false]
    by_cases hd : LabelsDefined labels i
    · simp only [hd, true_and, forall_const, not_true_eq_false, false_imp_iff, and_true]
      constructor
      · intro h
        by_cases hlt : |distance k v| < 8192
        · exact .inl (h.mp hlt)
        · exact .inr (Int.not_lt.mp hlt)
      · rintro (he | hge)
        · exact iff_of_true (henc he) he
        · exact iff_of_false (Int.not_lt.mpr hge) fun he => absurd (henc he) (Int.not_lt.mpr hge)
    · simp [hd]
  · have hnb : i.op ∉ branches := fun hb => absurd (hj ▸ hb) (by decide)
    rw [hj] at hnb
    simp only [hj, ht, forall_const, if_true]
    by_cases hd : LabelsDefined labels i
    · simp [hd, hnb]
    · simp [hd]

/-- A slot with a branch to `v`. -/
def branchSlot : Instr := { op := .BEQ, a3.type := .label, a3.label := "v".toList }

theorem rangeExact_branchSlot : RangeExact [⟨"v".toList, 4094⟩] 0 branchSlot 4094 := by
  have hd : LabelsDefined [⟨"v".toList, 4094⟩] branchSlot :=
    ⟨(by intro h; cases h), (by intro h; cases h), fun _ => ⟨4094, rfl⟩⟩
  have hr : Refers branchSlot "v".toList := .inl ⟨by decide, rfl, rfl⟩
  exact (rangeExact_iff hr rfl).mpr ⟨fun _ => .inl (by decide), fun h => absurd hd h⟩

/-- A branch over 8188 bytes. -/
def farBranch : List Char := "hcf\nbeq x0, x0, v\n.data\nv: .word 1\n".toList

theorem not_rangeExact_farBranch : ∃ s, parse {} farBranch = .ok s ∧ Refers (s.imem.code 1) "v".toList ∧
    labelAddr s.labels (s.imem.code 1).origLine (copyLabel "v".toList) = .ok 8192 ∧
    ¬ RangeExact s.labels 1 (s.imem.code 1) 8192 := by
  obtain ⟨s, hs⟩ := @exists_of_parse_isOk {} farBranch (by decide +kernel)
  have hval : (parse {} farBranch).toOption.map (fun s => (s.imem.code 1, s.labels)) =
      some ({ op := .BEQ, a3.type := .label, a3.label := "v".toList, origLine := 2 }, [⟨"v".toList, 8192⟩]) := by
    decide +kernel
  rw [hs] at hval
  obtain ⟨hcode, hlabels⟩ := Prod.mk.inj (Option.some.inj hval)
  refine ⟨s, hs, ?_, ?_, ?_⟩
  · rw [hcode]
    exact .inl ⟨by decide, rfl, rfl⟩
  · rw [hcode, hlabels]
    rfl
  · rw [hcode, hlabels]
    intro h
    exact absurd (h.mp ⟨_, rfl⟩) (by decide)

end SocModel.Asm
