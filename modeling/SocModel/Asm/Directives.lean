import SocModel.Asm.Emulator

/-!
# The names of the directives

`parse_assembler_directive` compares a token with the names of the directives over the length of the token.

* `Directive`, `Directive.run` : the five directives and what each does;
* `directiveOf`, `parseAssemblerDirective_eq` : the directive that the comparisons find;
* `directive_exact_iff` : a token is recognised exactly when no name continues it.
-/

namespace SocModel.Asm

open Lib

/-- The directives, in the order of the comparisons. -/
inductive Directive where
  | text | data | byte | half | word
  deriving DecidableEq, Repr

namespace Directive

def name : Directive → CStr
  | text => ".text".toList
  | data => ".data".toList
  | byte => ".byte".toList
  | half => ".half".toList
  | word => ".word".toList

/-- What a directive does behind its name. -/
def run (cfg : Config) (line : Nat) (rest : CStr) (s : State) : Directive → Except AsmError State
  | text =>
    match strtok " \t\r\n".toList rest with
    | some _ => .error (.syntaxError line "Tokens after assembler directive")
    | none => .ok { s with memoff := cfg.textOffset }
  | data => .ok { s with memoff := cfg.dataOffset }
  | byte => parseDataElement cfg 1 rest s
  | half => parseDataElement cfg 2 rest s
  | word => parseDataElement cfg 4 rest s

theorem length_name (d : Directive) : d.name.length = 5 := by
  cases d <;> rfl

/-- Where the counter stands after the directive with one element behind it, from location 0 on. -/
def probe (d : Directive) : Option Nat := (d.run {} 0 ['1'] (State.init {})).toOption.map State.memoff

theorem probe_eq (d : Directive) : d.probe =
    match d with
    | text => none
    | data => some 8192
    | byte => some 1
    | half => some 2
    | word => some 4 := by
  cases d <;> rfl

/-- No two directives do the same. -/
theorem eq_of_run_eq {d d' : Directive} (h : ∀ cfg line rest s, d.run cfg line rest s = d'.run cfg line rest s) :
    d = d' := by
  have hp : d.probe = d'.probe := by
    unfold probe
    rw [h]
  rw [probe_eq, probe_eq] at hp
  cases d <;> cases d' <;> simp_all

/-- No directive is rejected whatever follows it. -/
theorem run_ne_exit (d : Directive) : ¬ ∀ cfg line rest s, d.run cfg line rest s = .error (.exit 3) := by
  intro h
  have hd : d.run {} 0 [] (State.init {}) ≠ .error (.exit 3) := by
    cases d <;> (intro hd; cases hd)
  exact hd (h _ _ _ _)

end Directive

/-! ## The comparisons -/

/-- The directive the comparisons find: the first one whose name starts with the token. -/
def directiveOf (tok : CStr) : Option Directive :=
  if tok.isPrefixOf Directive.text.name then some .text
  else if tok.isPrefixOf Directive.data.name then some .data
  else if tok.isPrefixOf Directive.byte.name then some .byte
  else if tok.isPrefixOf Directive.half.name then some .half
  else if tok.isPrefixOf Directive.word.name then some .word
  else none

theorem parseAssemblerDirective_eq (cfg : Config) (line : Nat) (tok rest : CStr) (s : State) :
    parseAssemblerDirective cfg line tok rest s =
      match directiveOf tok with
      | some d => d.run cfg line rest s
      | none => .error (.exit 3) := by
  unfold parseAssemblerDirective directiveOf Directive.name
  split_ifs <;> rfl

theorem directiveOf_eq_some {tok : CStr} {d : Directive} (h : directiveOf tok = some d) : tok <+: d.name := by
  unfold directiveOf at h
  split_ifs at h <;> (obtain rfl := Option.some.inj h; rwa [← List.isPrefixOf_iff_prefix])

theorem directiveOf_eq_none {tok : CStr} (h : directiveOf tok = none) (d : Directive) : ¬ tok <+: d.name := by
  rw [← List.isPrefixOf_iff_prefix]
  unfold directiveOf at h
  split_ifs at h with htext hdata hbyte hhalf hword
  cases d with
  | text => exact htext
  | data => exact hdata
  | byte => exact hbyte
  | half => exact hhalf
  | word => exact hword

theorem directiveOf_name (d : Directive) : directiveOf d.name = some d := by
  cases d <;> rfl

/-! ## Exactness -/

/-- The assembler takes the token for the directive, whatever follows it. -/
def TreatsAs (tok : CStr) (d : Directive) : Prop :=
  ∀ cfg line rest s, parseAssemblerDirective cfg line tok rest s = d.run cfg line rest s

/-- The assembler leaves the program at the token, whatever follows it. -/
def Rejected (tok : CStr) : Prop :=
  ∀ cfg line rest s, parseAssemblerDirective cfg line tok rest s = .error (.exit 3)

/-- A token is taken for a directive exactly when it is its name, and any other token is rejected. -/
def DirectiveExact (tok : CStr) : Prop :=
  (∀ d, TreatsAs tok d ↔ tok = d.name) ∧ ((∀ d : Directive, tok ≠ d.name) → Rejected tok)

theorem treatsAs_iff {tok : CStr} {d : Directive} : TreatsAs tok d ↔ directiveOf tok = some d := by
  unfold TreatsAs
  simp only [parseAssemblerDirective_eq]
  cases hd : directiveOf tok with
  | none =>
    simp only [reduceCtorEq, iff_false]
    exact fun h => d.run_ne_exit fun cfg line rest s => (h cfg line rest s).symm
  | some d' =>
    rw [Option.some.injEq]
    constructor
    · exact Directive.eq_of_run_eq
    · rintro rfl _ _ _ _
      rfl

theorem rejected_of_none {tok : CStr} (h : directiveOf tok = none) : Rejected tok := by
  intro cfg line rest s
  rw [parseAssemblerDirective_eq, h]

/-- **Directives are recognised exactly** by the tokens that no name of a directive continues. -/
theorem directive_exact_iff (cs : CStr) :
    DirectiveExact ('.' :: cs) ↔ ∀ d : Directive, '.' :: cs <+: d.name → '.' :: cs = d.name := by
  constructor
  · intro h d hd
    -- the comparisons find a directive, maybe an earlier one, and exactness names the token after it
    cases hf : directiveOf ('.' :: cs) with
    | none => exact absurd hd (directiveOf_eq_none hf d)
    | some d' =>
      have hlen : ('.' :: cs).length = d.name.length := by
        rw [(h.1 d').mp (treatsAs_iff.mpr hf), Directive.length_name, Directive.length_name]
      exact hd.eq_of_length hlen
  · intro h
    refine ⟨fun d => treatsAs_iff.trans ⟨fun hf => h d (directiveOf_eq_some hf), ?_⟩, fun hne => ?_⟩
    · intro hd
      rw [hd]
      exact directiveOf_name d
    · cases hf : directiveOf ('.' :: cs) with
      | none => exact rejected_of_none hf
      | some d => exact absurd (h d (directiveOf_eq_some hf)) (hne d)

/-- `.b` stores bytes. -/
theorem dot_b_not_exact : ¬ DirectiveExact ".b".toList := by
  intro h
  have hb : TreatsAs ".b".toList .byte := treatsAs_iff.mpr rfl
  exact absurd ((h.1 .byte).mp hb) (by decide)

end SocModel.Asm
