import SocModel.Asm.Directives
import SocModel.Asm.Elements
import SocModel.Asm.Labels
import SocModel.Asm.Lines

/-!
# Where the assembler writes

The bound check of `parse_instr` looks at one slot of the instruction memory, and nothing looks at the end of the
data memory.

* `Fitting` : a statement has room for what it writes;
* `endsInFault_exec` : the statement writes out of bounds exactly when it has not;
* `writes_inBounds_iff` : the same of a whole source.
-/

namespace SocModel.Asm

open Lib

/-- A write outside the instruction memory or the data memory. -/
def WriteFault (e : AsmError) : Prop := e = .undefined .arrayIndex ∨ e = .undefined .memoryRange

/-- No write of the first pass is out of bounds. -/
def InBounds (cfg : Config) (file : List Char) : Prop := ∀ e, parse cfg file = .error e → ¬ WriteFault e

/-- The size of the elements of a data directive. -/
def Directive.size : Directive → Option Nat
  | .text | .data => none
  | .byte => some 1
  | .half => some 2
  | .word => some 4

/-- There is room for what a statement at `loc` writes before it is done or is refused. -/
def Fitting (cfg : Config) (loc : Nat) (p : Nat × Stmt) : Prop :=
  match p.2 with
  | .label _ => True
  | .directive tok rest => ∀ n ∈ (directiveOf tok).bind Directive.size, Room cfg n (elements rest) loc
  | .instr tok rest =>
    loc + 4 ≤ cfg.dataOffset → (∃ fs, lineSlots p.1 tok (Operands.read rest) = .ok fs) →
      loc / 4 + slots tok ≤ cfg.dataOffset / 4 ∧ loc + slots tok * 4 ≤ cfg.memorySize

/-! ## Errors of the text -/

/-- The computation fails with errors of the text only. -/
def TextErrors {α : Type} (x : Except AsmError α) : Prop := ∀ e, x = .error e → ¬ WriteFault e

theorem TextErrors.ok {α : Type} (a : α) : TextErrors (.ok a) := by
  intro e h
  cases h

theorem TextErrors.syntaxError {α : Type} (line : Nat) (msg : String) :
    TextErrors (.error (.syntaxError line msg) : Except AsmError α) := by
  rintro e h (rfl | rfl) <;> cases h

theorem TextErrors.exit {α : Type} (code : Nat) : TextErrors (.error (.exit code) : Except AsmError α) := by
  rintro e h (rfl | rfl) <;> cases h

theorem TextErrors.bind {α β : Type} {x : Except AsmError α} {f : α → Except AsmError β} (hx : TextErrors x)
    (hf : ∀ a, TextErrors (f a)) : TextErrors (x >>= f) := by
  intro e h
  cases x with
  | error e' => exact hx e (congrArg Except.error (Except.error.inj h))
  | ok a => exact hf a e h

theorem textErrors_parseReg (line : Nat) (tok : CStr) : TextErrors (parseReg line tok) := by
  unfold parseReg
  split
  · simp only
    split
    · exact .syntaxError _ _
    · exact .ok _
  · split
    all_goals first
      | exact .ok _
      | exact .syntaxError _ _

theorem textErrors_parseImm (line : Nat) (tok : CStr) (bits : Nat) : TextErrors (parseImm line tok bits) := by
  unfold parseImm
  simp only
  split
  · exact .syntaxError _ _
  split
  · exact .exit _
  · exact .ok _

theorem textErrors_parseMem (line : Nat) (tok : CStr) (bits : Nat) : TextErrors (parseMem line tok bits) := by
  have hnull : TextErrors (.error (.undefined .nullPointer) : Except AsmError (Int × Word)) := by
    rintro e h (rfl | rfl) <;> cases h
  unfold parseMem
  split
  · exact hnull
  refine (textErrors_parseImm _ _ _).bind fun imm => ?_
  split
  · exact hnull
  · exact (textErrors_parseReg _ _).bind fun _ => .ok _

theorem textErrors_parseOperands (line : Nat) (i : Instr) (os : Operands) : TextErrors (parseOperands line i os) := by
  have hr := textErrors_parseReg line
  rw [parseOperands_format]
  cases formatOf i.op with
  | none => exact .ok _
  | jal =>
    rw [Format.operands]
    unfold operandsJal
    split
    · exact (hr _).bind fun _ => .ok _
    · exact .ok _
    · exact .syntaxError _ _
  | mem =>
    rw [Format.operands]
    unfold operandsMem
    split
    · exact (hr _).bind fun _ => (textErrors_parseMem _ _ _).bind fun _ => .ok _
    · exact .syntaxError _ _
  | rri =>
    rw [Format.operands]
    unfold operandsRRI
    split
    · exact (hr _).bind fun _ => (hr _).bind fun _ => (textErrors_parseImm _ _ _).bind fun _ => .ok _
    · exact .syntaxError _ _
  | branch =>
    rw [Format.operands]
    unfold operandsBranch
    split
    · exact (hr _).bind fun _ => (hr _).bind fun _ => .ok _
    · exact .syntaxError _ _
  | upper =>
    rw [Format.operands]
    unfold operandsUpper
    split
    · exact (hr _).bind fun _ => (textErrors_parseImm _ _ _).bind fun _ => .ok _
    · exact .syntaxError _ _
  | rrr msg =>
    rw [Format.operands]
    unfold operandsRRR
    split
    · exact (hr _).bind fun _ => (hr _).bind fun _ => (hr _).bind fun _ => .ok _
    · exact .syntaxError _ _

theorem textErrors_pseudoSlots (line : Nat) (tok : CStr) (os : Operands) : TextErrors (pseudoSlots line tok os) := by
  have hr := textErrors_parseReg line
  unfold pseudoSlots
  split
  · split
    · refine (hr _).bind fun _ => ?_
      simp only
      split
      · exact .exit _
      · exact .ok _
    · exact .syntaxError _ _
  · split
    · exact (hr _).bind fun _ => .ok _
    · exact .syntaxError _ _
  · split
    · exact .syntaxError _ _
    · exact .ok _
  · split
    · exact .ok _
    · exact .syntaxError _ _
  · split
    · exact (hr _).bind fun _ => (hr _).bind fun _ => .ok _
    · exact .syntaxError _ _
  · split
    · exact (hr _).bind fun _ => .ok _
    · exact .syntaxError _ _
  · split
    · exact (hr _).bind fun _ => .ok _
    · exact .syntaxError _ _
  · exact .ok _

/-- The text of a line is read without a write. -/
theorem textErrors_lineSlots (line : Nat) (tok : CStr) (os : Operands) : TextErrors (lineSlots line tok os) := by
  refine (textErrors_pseudoSlots line tok os).bind fun fs => ?_
  split
  · exact .ok _
  · exact (textErrors_parseOperands line _ os).bind fun _ => .ok _

/-! ## One statement -/

/-- `x` ends in a write out of bounds. -/
def EndsInFault {α : Type} (x : Except AsmError α) : Prop := ∃ e, x = .error e ∧ WriteFault e

theorem not_endsInFault {α : Type} {x : Except AsmError α} (h : TextErrors x) : ¬ EndsInFault x := by
  rintro ⟨e, he, hf⟩
  exact h e he hf

theorem endsInFault_memoryRange {α : Type} : EndsInFault (.error (.undefined .memoryRange) : Except AsmError α) :=
  ⟨_, rfl, .inr rfl⟩

theorem endsInFault_bind {α β : Type} {x : Except AsmError α} {f : α → Except AsmError β} :
    EndsInFault (x >>= f) ↔ EndsInFault x ∨ ∃ a, x = .ok a ∧ EndsInFault (f a) := by
  cases x with
  | error e =>
    simp only [reduceCtorEq, false_and, exists_false, or_false]
    exact exists_congr fun e' => and_congr_left' ⟨fun h => congrArg _ (Except.error.inj h),
      fun h => congrArg _ (Except.error.inj h)⟩
  | ok a => simp [not_endsInFault (TextErrors.ok a), bind, Except.bind]

theorem markInstrs_endsInFault_iff (cfg : Config) (mem : Store) (loc count : Nat) :
    EndsInFault (markInstrs cfg mem loc count) ↔ ¬ (count = 0 ∨ loc + count * 4 ≤ cfg.memorySize) := by
  induction count generalizing mem loc with
  | zero => exact iff_of_false (not_endsInFault (TextErrors.ok mem)) (not_not.mpr (.inl rfl))
  | succ count ih =>
    rw [markInstrs, storeElement]
    by_cases hr : loc + 4 ≤ cfg.memorySize
    · rw [if_pos hr]
      simp only [bind, Except.bind]
      rw [ih]
      omega
    · rw [if_neg hr]
      simp only [bind, Except.bind, endsInFault_memoryRange, true_iff]
      omega

theorem writeSlots_endsInFault_iff (m : Imem) (k : Nat) (fs : List (Instr → Instr)) :
    EndsInFault (writeSlots m k fs) ↔ ¬ (fs = [] ∨ k + fs.length ≤ m.size) := by
  cases hw : writeSlots m k fs with
  | error e =>
    obtain ⟨rfl, hlt⟩ := writeSlots_eq_error hw
    refine iff_of_true ⟨_, rfl, .inl rfl⟩ ?_
    rintro (rfl | hle)
    · cases hw
    · omega
  | ok m' => exact iff_of_false (not_endsInFault (TextErrors.ok m')) (not_not.mpr (writeSlots_bound hw))

theorem fitting_instr {cfg : Config} {loc line : Nat} {tok rest : CStr} :
    Fitting cfg loc (line, .instr tok rest) ↔
      (loc + 4 ≤ cfg.dataOffset → (∃ fs, lineSlots line tok (Operands.read rest) = .ok fs) →
        loc / 4 + slots tok ≤ cfg.dataOffset / 4 ∧ loc + slots tok * 4 ≤ cfg.memorySize) := Iff.rfl

/-- An instruction line writes out of bounds exactly when it is well formed and its last slot does not fit. -/
theorem endsInFault_parseInstrLine {cfg : Config} {s : State} (hs : s.imem.size = cfg.dataOffset / 4) (line : Nat)
    (tok rest : CStr) : EndsInFault (parseInstrLine cfg line tok rest s) ↔
      ¬ Fitting cfg s.memoff (line, .instr tok rest) := by
  have hpos := slots_pos tok
  rw [fitting_instr, parseInstrLine, parseInstr_eq]
  by_cases hoff : s.memoff + 4 > cfg.dataOffset
  · rw [if_pos hoff]
    refine iff_of_false (not_endsInFault (TextErrors.exit 1)) (not_not.mpr fun h => ?_)
    omega
  have hok {α : Type} (a : α) : ¬ EndsInFault (.ok a : Except AsmError α) := not_endsInFault (TextErrors.ok a)
  rw [if_neg hoff, rewrite]
  cases hl : lineSlots line tok (Operands.read rest) with
  | error e =>
    refine iff_of_false ?_ (not_not.mpr ?_)
    · rintro ⟨e', he, hf⟩
      obtain rfl : e = e' := Except.error.inj he
      exact textErrors_lineSlots line tok _ e hl hf
    · rintro - ⟨fs, h⟩
      cases h
  | ok fs =>
    have hlen := length_lineSlots hl
    have hne : fs ≠ [] := List.ne_nil_of_length_pos (hlen ▸ hpos)
    simp only [bind_assoc, endsInFault_bind, hok, pure, Except.pure, Except.ok.injEq, exists_eq_left', false_or,
      and_false, exists_false, or_false, writeSlots_endsInFault_iff, markInstrs_endsInFault_iff, hlen, hs]
    constructor
    · rintro (h | ⟨m, hm, h⟩) hfit
      · have := hfit (by omega) ⟨fs, rfl⟩
        omega
      · have := hfit (by omega) ⟨fs, rfl⟩
        omega
    · intro h
      by_cases hw : s.memoff / 4 + slots tok ≤ cfg.dataOffset / 4
      · obtain ⟨m, hm⟩ := @exists_writeSlots s.imem (s.memoff / 4) fs (by omega)
        refine .inr ⟨m, hm, fun hor => h fun _ _ => ⟨hw, ?_⟩⟩
        omega
      · refine .inl ?_
        rintro (h' | h')
        · exact hne h'
        · exact hw h'

/-- A data directive writes out of bounds exactly when an element it stores does not fit. -/
theorem endsInFault_parseDataElement {size : Nat} (hs : size ≤ 8) (cfg : Config) (rest : CStr) (s : State) :
    EndsInFault (parseDataElement cfg size rest s) ↔ ¬ Room cfg size (elements rest) s.memoff := by
  have heq : parseDataElement cfg size rest s = _ := foldlM_parseElement_eq hs (elements rest) s
  rw [heq]
  by_cases hroom : Room cfg size (elements rest) s.memoff
  · rw [if_pos hroom]
    refine iff_of_false ?_ (not_not.mpr hroom)
    split
    · exact not_endsInFault (TextErrors.ok _)
    · exact not_endsInFault (TextErrors.exit _)
  · rw [if_neg hroom]
    exact iff_of_true endsInFault_memoryRange hroom

theorem endsInFault_run (cfg : Config) (line : Nat) (rest : CStr) (s : State) (d : Directive) :
    EndsInFault (d.run cfg line rest s) ↔ ¬ ∀ n ∈ d.size, Room cfg n (elements rest) s.memoff := by
  have hsize (n : Nat) (hn : n ≤ 8) : EndsInFault (parseDataElement cfg n rest s) ↔
      ¬ ∀ k ∈ some n, Room cfg k (elements rest) s.memoff := by
    rw [endsInFault_parseDataElement hn]
    simp
  cases d with
  | text =>
    refine iff_of_false ?_ (not_not.mpr fun n hn => by cases hn)
    rw [Directive.run]
    split
    · exact not_endsInFault (TextErrors.syntaxError _ _)
    · exact not_endsInFault (TextErrors.ok _)
  | data => exact iff_of_false (not_endsInFault (TextErrors.ok _)) (not_not.mpr fun n hn => by cases hn)
  | byte => exact hsize 1 (by decide)
  | half => exact hsize 2 (by decide)
  | word => exact hsize 4 (by decide)

/-- **One statement** writes out of bounds exactly when it has no room. -/
theorem endsInFault_exec {cfg : Config} {s : State} (hs : s.imem.size = cfg.dataOffset / 4) (p : Nat × Stmt) :
    EndsInFault (exec cfg s p) ↔ ¬ Fitting cfg s.memoff p := by
  obtain ⟨line, name | ⟨tok, rest⟩ | ⟨tok, rest⟩⟩ := p
  · refine iff_of_false ?_ (not_not.mpr trivial)
    unfold exec parseLabel
    simp only
    split
    · exact not_endsInFault (TextErrors.exit _)
    split
    · exact not_endsInFault (TextErrors.exit _)
    · exact not_endsInFault (TextErrors.ok _)
  · unfold exec Fitting
    simp only
    rw [parseAssemblerDirective_eq]
    cases directiveOf tok with
    | none =>
      refine iff_of_false (not_endsInFault (TextErrors.exit _)) (not_not.mpr fun n hn => ?_)
      cases hn
    | some d => exact endsInFault_run cfg line rest s d
  · exact endsInFault_parseInstrLine hs line tok rest

/-! ## A whole source -/

/-- A run that ends in an error does so in a statement behind statements that are accepted. -/
theorem foldlM_eq_error {σ α : Type} {f : σ → α → Except AsmError σ} {xs : List α} {s : σ} {e : AsmError} :
    xs.foldlM f s = .error e ↔
      ∃ ps p qs u, xs = ps ++ p :: qs ∧ ps.foldlM f s = .ok u ∧ f u p = .error e := by
  induction xs generalizing s with
  | nil =>
    refine iff_of_false (fun h => by cases h) ?_
    rintro ⟨ps, p, qs, u, h, -⟩
    exact absurd h.symm (List.append_ne_nil_of_right_ne_nil ps (List.cons_ne_nil p qs))
  | cons x xs ih =>
    rw [List.foldlM_cons]
    constructor
    · intro h
      cases hx : f s x with
      | error e' =>
        rw [hx] at h
        obtain rfl : e' = e := Except.error.inj h
        exact ⟨[], x, xs, s, rfl, rfl, hx⟩
      | ok t =>
        rw [hx] at h
        obtain ⟨ps, p, qs, u, rfl, hps, hp⟩ := ih.mp h
        exact ⟨x :: ps, p, qs, u, rfl, by rw [List.foldlM_cons, hx]; exact hps, hp⟩
    · rintro ⟨ps, p, qs, u, h, hps, hp⟩
      cases ps with
      | nil =>
        obtain ⟨rfl, rfl⟩ := List.cons.inj h
        obtain rfl : s = u := Except.ok.inj hps
        rw [hp]
        rfl
      | cons y ps =>
        obtain ⟨rfl, rfl⟩ := List.cons.inj h
        rw [List.foldlM_cons] at hps
        obtain ⟨t, ht, hps⟩ := Except.bind_eq_ok.mp hps
        rw [ht]
        exact ih.mpr ⟨ps, p, qs, u, rfl, hps, hp⟩

/-- The statements are accepted. -/
def Accepted (cfg : Config) (ps : List (Nat × Stmt)) : Prop := ∃ s, ps.foldlM (exec cfg) (State.init cfg) = .ok s

/-- **Writes stay in bounds** exactly when every statement behind accepted ones has room for what it writes. -/
theorem writes_inBounds_iff (cfg : Config) (file : List Char) :
    InBounds cfg file ↔ ∀ ps p qs, statements file = ps ++ p :: qs → Accepted cfg ps →
      Fitting cfg (locAfter 0 (stepsOf cfg ps)) p := by
  have hreach {ps : List (Nat × Stmt)} {p : Nat × Stmt} {s : State}
      (h : ps.foldlM (exec cfg) (State.init cfg) = .ok s) :
      EndsInFault (exec cfg s p) ↔ ¬ Fitting cfg (locAfter 0 (stepsOf cfg ps)) p := by
    rw [endsInFault_exec (size_run h), memoff_run h]
    rfl
  unfold InBounds
  rw [parse_eq]
  constructor
  · rintro h ps p qs hst ⟨s, hs⟩
    by_contra hfit
    obtain ⟨e, he, hf⟩ := (hreach hs).mpr hfit
    exact h e (foldlM_eq_error.mpr ⟨ps, p, qs, s, hst, hs, he⟩) hf
  · intro h e he hf
    obtain ⟨ps, p, qs, s, hst, hs, hp⟩ := foldlM_eq_error.mp he
    exact (hreach hs).mp ⟨e, hp, hf⟩ (h ps p qs hst ⟨s, hs⟩)

/-! ## `li` in the last slot -/

/-- Words up to the last slot of the instruction memory, and a line of two instructions. -/
def liInLastSlot : List Char :=
  (List.replicate 89 (".word".toList ++ (List.replicate 23 " 0".toList).flatten ++ ['\n'])).flatten ++
    "li x1, 1\n".toList

theorem not_inBounds_li : ¬ InBounds {} liInLastSlot := by
  intro h
  have hp : (match parse {} liInLastSlot with
      | .error e => decide (e = .undefined .arrayIndex)
      | .ok _ => false) = true := by decide +kernel
  cases hs : parse {} liInLastSlot with
  | error e =>
    rw [hs] at hp
    exact h e hs (.inl (of_decide_eq_true hp))
  | ok s =>
    rw [hs] at hp
    cases hp

end SocModel.Asm
