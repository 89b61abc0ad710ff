import Mathlib.Data.List.GetD
import Mathlib.Data.List.TakeWhile
import SocModel.Asm.Registers
import SocModel.Lib.Logged
import SocModel.Lib.Machine

/-!
# The texts kept for messages

`append_source` formats the text of an instruction into `tbuf` and copies it into one buffer for all texts; `psrc`
points at it. The parsers call it on the way, before they parse the operands of an instruction.

* `SourceText` : the two passes with their calls of `append_source`, `result_assemble` : without them they are the
  passes of the assembler;
* `appendSource` : the call, on buffers of fixed size;
* `SourceTextsSafe` : no call overflows a buffer, and every text handed out ends in its slot;
* `lineSource` : what a line of the file has formatted, `Short` : it fits into `tbuf`;
* `sourceTexts_iff` : the texts are safe exactly when every line reached is short and `malloc` happened to leave a
  zero behind every text.
-/

namespace SocModel.Asm

open Lib

/-- The strings that a call formats; a null pointer is `none`. -/
structure SourceLine where
  op : CStr
  a1 : Option CStr
  a2 : Option CStr := none
  a3 : Option CStr := none
  deriving DecidableEq, Repr

/-- What `sprintf` writes into `tbuf`, `none` when `append_source` returns at once. -/
def SourceLine.text (l : SourceLine) : Option CStr :=
  match l.a1, l.a2, l.a3 with
  | some a1, none, none => some (l.op ++ " ".toList ++ a1)
  | some a1, some a2, none => some (l.op ++ " ".toList ++ a1 ++ ", ".toList ++ a2)
  | some a1, some a2, some a3 => some (l.op ++ " ".toList ++ a1 ++ ", ".toList ++ a2 ++ ", ".toList ++ a3)
  | _, _, _ => none

/-- A call for the instruction in a slot. -/
abbrev SourceCall := Nat × SourceLine

/-! ## The calls -/

namespace SourceText

abbrev Emit := Logged SourceCall AsmError

/-- `areg` -/
def regText (r : Int) : CStr := 'x' :: printf02d r

/-- `immu` and `immd` -/
def immText (w : Word) : CStr := "0x".toList ++ printf08x w

def luiText (rd : Int) (v : Word) : SourceLine := ⟨"lui".toList, some (regText rd), some (immText v), none⟩

def addiText (rd rs : Int) (v : Word) : SourceLine :=
  ⟨"addi".toList, some (regText rd), some (regText rs), some (immText v)⟩

def parseLi (line : Nat) (m : Imem) (ioff : Nat) (o1 o2 : CStr) : Emit (Imem × Nat) := do
  let reg ← .lift (parseReg line o1)
  let imml := (strtol 0 o2).1
  if reg < 0 ∨ imml > 2 ^ 32 - 1 ∨ imml < -2 ^ 31 then .lift (.error (.exit 1))
  else
    let hv := BitVec.ofInt 32 imml
    let m ← .lift (setInstr m ioff (luiSlot line reg (hv >>> 12) (m.code ioff)))
    .log [(ioff, luiText reg (hv >>> 12))]
    let m ← .lift (setInstr m (ioff + 1) (addiSlot line reg reg (hv &&& 0xFFF) (m.code (ioff + 1))))
    .log [(ioff + 1, addiText reg reg (hv &&& 0xFFF))]
    return (m, 2)

/-- The last call of a pseudo-instruction of one slot; those of `la` are left to the second pass. -/
def pseudoText (ftok : CStr) (os : Operands) : Option SourceLine :=
  match String.ofList ftok with
  | "ret" => some ⟨"jalr".toList, some "x0".toList, some "x1".toList, some "x0".toList⟩
  | "j" => some ⟨"j".toList, some "x0".toList, os.o1, none⟩
  | "mv" => some ⟨"addi".toList, os.o1, os.o2, none⟩
  | "bnez" => some ⟨"bne".toList, some "x0".toList, os.o1, os.o2⟩
  | "beqz" => some ⟨"beq".toList, some "x0".toList, os.o1, os.o2⟩
  | _ => none

def parsePseudoinstructions (line : Nat) (ftok : CStr) (m : Imem) (ioff : Nat) (os : Operands) :
    Emit (Imem × Nat) :=
  match String.ofList ftok, os.o1, os.o2, os.o3 with
  | "li", some o1, some o2, none => parseLi line m ioff o1 o2
  | _, _, _, _ => do
    let r ← .lift (Asm.parsePseudoinstructions line ftok m ioff os)
    .log ((pseudoText ftok os).toList.map (ioff, ·))
    return r

/-- A line that is no pseudo-instruction is kept before its operands are parsed. -/
def parsePlain (line : Nat) (ftok : CStr) (os : Operands) (m : Imem) (ioff : Nat) : Emit (Imem × Nat) := do
  .log [(ioff, ⟨ftok, os.o1, os.o2, os.o3⟩)]
  let i ← .lift (parseOperands line { m.code ioff with op := parseOp ftok, origLine := line } os)
  let m ← .lift (setInstr m ioff i)
  return (m, 1)

def parseInstr (cfg : Config) (line : Nat) (ftok rest : CStr) (m : Imem) (memoff : Nat) : Emit (Imem × Nat) :=
  if memoff + 4 > cfg.dataOffset then .lift (.error (.exit 1))
  else do
    let os := Operands.read rest
    let ioff := memoff / 4
    let (m, pscnt) ← parsePseudoinstructions line ftok m ioff os
    if pscnt > 0 then return (m, pscnt) else parsePlain line ftok os m ioff

def exec (cfg : Config) (s : State) (p : Nat × Stmt) : Emit State :=
  match p.2 with
  | .label name => .lift (parseLabel cfg name s)
  | .directive tok rest => .lift (parseAssemblerDirective cfg p.1 tok rest s)
  | .instr tok rest => do
    let (imem, count) ← parseInstr cfg p.1 tok rest s.imem s.memoff
    let mem ← .lift (markInstrs cfg s.mem s.memoff count)
    return { s with imem, mem, memoff := s.memoff + count * 4 }

def parse (cfg : Config) (file : List Char) : Emit State := (statements file).foldlM (exec cfg) (State.init cfg)

/-- `normalize_labels` keeps the text of a `lui` or `addi` whose label it resolves. -/
def normalizeInstr (labels : List LabelLoc) (k : Nat) (i : Instr) : Emit Instr := do
  let i ← .lift (resolveA1 labels i)
  let i2 ← .lift (resolveA2 labels k i)
  .log (if i.a2.type = .label ∧ i.op = .LUI then [(k, luiText i2.a1.reg i2.a2.imm)] else [])
  let i3 ← .lift (resolveA3 labels k i2)
  .log (if i2.a3.type = .label ∧ i2.op = .ADDI then [(k, addiText i3.a1.reg i3.a2.reg i3.a3.imm)] else [])
  return i3

def normalizeFrom (labels : List LabelLoc) : Nat → Nat → Imem → Emit Imem
  | _, 0, m => pure m
  | k, n + 1, m =>
    if (m.code k).op = .UNIMPL then normalizeFrom labels (k + 1) n m
    else do
      let i ← normalizeInstr labels k (m.code k)
      normalizeFrom labels (k + 1) n { m with code := Function.update m.code k i }

def assemble (cfg : Config) (file : List Char) : Emit (Imem × Store) := do
  let s ← parse cfg file
  let imem ← normalizeFrom s.labels 0 s.imem.size s.imem
  return (imem, s.mem)

/-! ### Without the calls -/

theorem result_parseLi (line : Nat) (m : Imem) (k : Nat) (o1 o2 : CStr) :
    (parseLi line m k o1 o2).result = Asm.parseLi line m k o1 o2 := by
  unfold parseLi
  rw [Logged.result_bind]
  simp only [Logged.result_lift, Logged.result_ite, Logged.result_bind, Logged.result_log, Logged.result_pure]
  rfl

/-- Only `li` with two operands is parsed by itself. -/
theorem result_parsePseudoinstructions (line : Nat) (ftok : CStr) (m : Imem) (k : Nat) (os : Operands) :
    (parsePseudoinstructions line ftok m k os).result = Asm.parsePseudoinstructions line ftok m k os := by
  unfold parsePseudoinstructions
  split
  · next o1 o2 htok h1 h2 h3 =>
    rw [result_parseLi, Asm.parsePseudoinstructions, htok]
    simp only [h1, h2, h3]
  · rw [Logged.result_bind]
    cases Asm.parsePseudoinstructions line ftok m k os <;> rfl

theorem result_parseInstr (cfg : Config) (line : Nat) (ftok rest : CStr) (m : Imem) (memoff : Nat) :
    (parseInstr cfg line ftok rest m memoff).result = Asm.parseInstr cfg line ftok rest m memoff := by
  unfold parseInstr Asm.parseInstr
  rw [Logged.result_ite]
  split
  · rfl
  rw [Logged.result_bind, result_parsePseudoinstructions]
  congr 1
  funext ⟨m, pscnt⟩
  simp only [Logged.result_ite, parsePlain, Logged.result_bind, Logged.result_log, Logged.result_lift,
    Logged.result_pure]
  rfl

theorem result_exec (cfg : Config) (s : State) (p : Nat × Stmt) : (exec cfg s p).result = Asm.exec cfg s p := by
  obtain ⟨line, name | ⟨tok, rest⟩ | ⟨tok, rest⟩⟩ := p
  · rfl
  · rfl
  · unfold exec
    rw [Logged.result_bind, result_parseInstr]
    simp only [Logged.result_bind, Logged.result_lift, Logged.result_pure]
    rfl

theorem result_parse (cfg : Config) (file : List Char) : (parse cfg file).result = Asm.parse cfg file := by
  rw [parse, Logged.result_foldlM, parse_eq]
  congr 1
  funext s p
  exact result_exec cfg s p

theorem result_normalizeInstr (labels : List LabelLoc) (k : Nat) (i : Instr) :
    (normalizeInstr labels k i).result = Asm.normalizeInstr labels k i := by
  rw [normalizeInstr_eq]
  unfold normalizeInstr
  simp only [Logged.result_bind, Logged.result_lift, Logged.result_log, Logged.result_pure]
  congr 1
  funext i
  congr 1
  funext i2
  exact bind_pure (resolveA3 labels k i2)

theorem result_normalizeFrom (labels : List LabelLoc) (k n : Nat) (m : Imem) :
    (normalizeFrom labels k n m).result = Asm.normalizeFrom labels k n m := by
  induction n generalizing k m with
  | zero => rfl
  | succ n ih =>
    rw [normalizeFrom, Asm.normalizeFrom, Logged.result_ite]
    split
    · exact ih (k + 1) m
    · rw [Logged.result_bind, result_normalizeInstr]
      congr 1
      funext i
      exact ih (k + 1) _

/-- **Without the calls** the passes are those of the assembler. -/
theorem result_assemble (cfg : Config) (file : List Char) : (assemble cfg file).result = Asm.assemble cfg file := by
  unfold assemble Asm.assemble normalizeLabels
  simp only [Logged.result_bind, result_parse, result_normalizeFrom, Logged.result_pure]
  rfl

end SourceText

/-! ## The buffers -/

/-- The size of `tbuf`. -/
def TBUF_LEN : Nat := 128

inductive BufferFault where
  /-- `sprintf` writes past the end of `tbuf`. -/
  | tbuf
  /-- `strncpy` writes past the end of the source buffer. -/
  | src
  deriving DecidableEq, Repr

/-- A text that was handed out to the `psrc` of a slot. -/
structure Handed where
  instr : Nat
  start : Nat
  length : Nat
  deriving DecidableEq, Repr

/-- `source`, and the texts handed out so far. -/
structure SourceBuffer where
  src : Nat → Char
  offset : Nat
  handed : List Handed

/-- The buffer holds what `malloc` found there. -/
def SourceBuffer.init (malloc : Nat → Char) : SourceBuffer := ⟨malloc, 0, []⟩

/-- `strncpy(src + offset, text, strlen(text))`, which copies no terminator. -/
def copyText (src : Nat → Char) (offset : Nat) (text : CStr) : Nat → Char := fun k =>
  if offset ≤ k then text.getD (k - offset) (src k) else src k

def appendSource (maxSrcLen : Nat) (s : SourceBuffer) (c : SourceCall) : Outcome BufferFault SourceBuffer :=
  match c.2.text with
  | none => .next s
  | some tbuf =>
    if TBUF_LEN < tbuf.length + 1 then .fault .tbuf
    else
      let text := terminated tbuf
      if text.length + s.offset < maxSrcLen then
        if maxSrcLen < s.offset + text.length then .fault .src
        else .next {
          src := copyText s.src s.offset text
          offset := s.offset + (text.length + 1)
          handed := s.handed ++ [⟨c.1, s.offset, text.length⟩] }
      else .next s

/-- There is a terminator in the slot of the text. -/
def Handed.Terminated (src : Nat → Char) (h : Handed) : Prop := ∃ i ≤ h.length, src (h.start + i) = '\x00'

def SourceBuffer.Terminated (s : SourceBuffer) : Prop := ∀ h ∈ s.handed, h.Terminated s.src

/-- No call overflows a buffer, and every text handed out is a string at every time. -/
def SourceTextsSafe (cfg : Config) (maxSrcLen : Nat) (malloc : Nat → Char) (file : List Char) : Prop :=
  Always (appendSource maxSrcLen) (fun _ => True) SourceBuffer.Terminated (SourceBuffer.init malloc)
    (SourceText.assemble cfg file).calls

/-- The place and the length of the texts that find room, one behind another. -/
def textSlots (maxSrcLen : Nat) : Nat → List CStr → List (Nat × Nat)
  | _, [] => []
  | offset, t :: ts =>
    let len := (terminated t).length
    if len + offset < maxSrcLen then (offset, len) :: textSlots maxSrcLen (offset + (len + 1)) ts
    else textSlots maxSrcLen offset ts

/-- The text fits into `tbuf` with its terminator. -/
def SourceLine.Fits (l : SourceLine) : Prop := ∀ t, l.text = some t → t.length < TBUF_LEN

section

variable {maxSrcLen : Nat} {malloc : Nat → Char} {s t : SourceBuffer} {c : SourceCall}

/-- What was copied is text, and what follows it is as `malloc` left it. -/
structure SourceBuffer.Inv (malloc : Nat → Char) (s : SourceBuffer) : Prop where
  fresh : ∀ k, s.offset ≤ k → s.src k = malloc k
  below : ∀ h ∈ s.handed, h.start + h.length < s.offset
  text : ∀ h ∈ s.handed, ∀ i < h.length, s.src (h.start + i) ≠ '\x00'
  behind : ∀ h ∈ s.handed, s.src (h.start + h.length) = malloc (h.start + h.length)

theorem SourceBuffer.Inv.terminated_iff (hs : s.Inv malloc) {h : Handed} (hh : h ∈ s.handed) :
    h.Terminated s.src ↔ malloc (h.start + h.length) = '\x00' := by
  rw [← hs.behind h hh]
  constructor
  · rintro ⟨i, hi, h0⟩
    rcases hi.eq_or_lt with rfl | hlt
    · exact h0
    · exact absurd h0 (hs.text h hh i hlt)
  · exact fun h0 => ⟨h.length, le_rfl, h0⟩

theorem copyText_below {src : Nat → Char} {offset k : Nat} (text : CStr) (hk : k < offset) :
    copyText src offset text k = src k := if_neg (by omega)

theorem copyText_behind {src : Nat → Char} {offset k : Nat} (text : CStr) (hk : offset + text.length ≤ k) :
    copyText src offset text k = src k :=
  (if_pos (by omega)).trans (List.getD_eq_default _ _ (by omega))

theorem terminated_getD_ne (tbuf : List Char) {i : Nat} (hi : i < (terminated tbuf).length) (d : Char) :
    (terminated tbuf).getD i d ≠ '\x00' := by
  rw [List.getD_eq_getElem _ _ hi]
  simpa using List.mem_takeWhile_imp (List.getElem_mem hi)

/-- One text more. -/
theorem SourceBuffer.Inv.append (hs : s.Inv malloc) (tbuf : List Char) (instr : Nat) :
    SourceBuffer.Inv malloc {
      src := copyText s.src s.offset (terminated tbuf)
      offset := s.offset + ((terminated tbuf).length + 1)
      handed := s.handed ++ [⟨instr, s.offset, (terminated tbuf).length⟩] } where
  fresh k hk := by
    simp only at hk ⊢
    rw [copyText_behind _ (by omega)]
    exact hs.fresh k (by omega)
  below h hh := by
    simp only at hh ⊢
    rcases List.mem_append.mp hh with hh | hh
    · have := hs.below h hh
      omega
    · rw [List.mem_singleton.mp hh]
      simp only
      omega
  text h hh i hi := by
    simp only at hh ⊢
    rcases List.mem_append.mp hh with hh | hh
    · have := hs.below h hh
      rw [copyText_below _ (by omega)]
      exact hs.text h hh i hi
    · rw [List.mem_singleton.mp hh] at hi ⊢
      simp only at hi ⊢
      rw [copyText, if_pos (by omega), Nat.add_sub_cancel_left]
      exact terminated_getD_ne tbuf hi _
  behind h hh := by
    simp only at hh ⊢
    rcases List.mem_append.mp hh with hh | hh
    · rw [copyText_below _ (hs.below h hh)]
      exact hs.behind h hh
    · rw [List.mem_singleton.mp hh]
      simp only
      rw [copyText_behind _ le_rfl]
      exact hs.fresh _ (by omega)

/-- What a call may format: it fits, and a zero happens to stand behind the text. -/
def Allowed (maxSrcLen : Nat) (malloc : Nat → Char) (s : SourceBuffer) (c : SourceCall) : Prop :=
  ∀ t, c.2.text = some t → t.length < TBUF_LEN ∧
    ((terminated t).length + s.offset < maxSrcLen → malloc (s.offset + (terminated t).length) = '\x00')

theorem appendSource_none (h : c.2.text = none) : appendSource maxSrcLen s c = .next s := by
  rw [appendSource, h]

theorem appendSource_long {text : CStr} (h : c.2.text = some text) (hlen : ¬ text.length < TBUF_LEN) :
    appendSource maxSrcLen s c = .fault .tbuf := by
  rw [appendSource, h]
  exact if_pos (by omega)

theorem appendSource_full {text : CStr} (h : c.2.text = some text) (hlen : text.length < TBUF_LEN)
    (hfull : ¬ (terminated text).length + s.offset < maxSrcLen) : appendSource maxSrcLen s c = .next s := by
  rw [appendSource, h]
  exact (if_neg (by omega)).trans (if_neg hfull)

/-- The guard keeps the copy within the buffer. -/
theorem appendSource_room {text : CStr} (h : c.2.text = some text) (hlen : text.length < TBUF_LEN)
    (hroom : (terminated text).length + s.offset < maxSrcLen) :
    appendSource maxSrcLen s c = .next {
      src := copyText s.src s.offset (terminated text)
      offset := s.offset + ((terminated text).length + 1)
      handed := s.handed ++ [⟨c.1, s.offset, (terminated text).length⟩] } := by
  rw [appendSource, h]
  exact (if_neg (by omega)).trans ((if_pos hroom).trans (if_neg (by omega)))

/-- Every case of a call. -/
theorem appendSource_cases (maxSrcLen : Nat) (s : SourceBuffer) (c : SourceCall) :
    c.2.text = none ∨ ∃ text, c.2.text = some text ∧ (¬ text.length < TBUF_LEN ∨ text.length < TBUF_LEN ∧
      (¬ (terminated text).length + s.offset < maxSrcLen ∨ (terminated text).length + s.offset < maxSrcLen)) := by
  cases h : c.2.text with
  | none => exact .inl rfl
  | some text => exact .inr ⟨text, rfl, by tauto⟩

/-- **The runs that keep every text** are those whose calls are all allowed. -/
theorem always_terminated_iff (calls : List SourceCall) :
    Always (appendSource maxSrcLen) (fun _ => True) SourceBuffer.Terminated (SourceBuffer.init malloc) calls ↔
      Along (appendSource maxSrcLen) (Allowed maxSrcLen malloc) (SourceBuffer.init malloc) calls := by
  refine always_iff_along (I := fun s => s.Inv malloc ∧ ∀ h ∈ s.handed, malloc (h.start + h.length) = '\x00')
    ?_ ?_ ?_ ?_ calls ⟨⟨fun _ _ => rfl, ?_, ?_, ?_⟩, ?_⟩
  · rintro s ⟨hs, h0⟩ h hh
    exact (hs.terminated_iff hh).mpr (h0 h hh)
  · rintro s c t ⟨hs, h0⟩ hc ht
    rcases appendSource_cases maxSrcLen s c with h | ⟨text, h, hlong | ⟨hlen, hfull | hroom⟩⟩
    · rw [appendSource_none h] at ht
      cases ht
      exact ⟨hs, h0⟩
    · rw [appendSource_long h hlong] at ht
      cases ht
    · rw [appendSource_full h hlen hfull] at ht
      cases ht
      exact ⟨hs, h0⟩
    · rw [appendSource_room h hlen hroom] at ht
      cases ht
      refine ⟨hs.append text c.1, fun h' hh => ?_⟩
      rcases List.mem_append.mp hh with hh | hh
      · exact h0 h' hh
      · rw [List.mem_singleton.mp hh]
        exact (hc text h).2 hroom
  · rintro s c e ⟨hs, h0⟩ he
    rcases appendSource_cases maxSrcLen s c with h | ⟨text, h, hlong | ⟨hlen, hfull | hroom⟩⟩
    · rw [appendSource_none h] at he
      cases he
    · exact iff_of_false (fun hc => hlong (hc text h).1) (not_not.mpr trivial)
    · rw [appendSource_full h hlen hfull] at he
      cases he
    · rw [appendSource_room h hlen hroom] at he
      cases he
  · rintro s c t ⟨hs, h0⟩ hc ht hterm
    refine hc fun text h => ?_
    by_cases hlen : text.length < TBUF_LEN
    · refine ⟨hlen, fun hroom => ?_⟩
      rw [appendSource_room h hlen hroom] at ht
      cases ht
      have hmem := List.mem_append_right s.handed
        (List.mem_singleton_self (Handed.mk c.1 s.offset (terminated text).length))
      exact ((hs.append text c.1).terminated_iff hmem).mp (hterm _ hmem)
    · rw [appendSource_long h hlen] at ht
      cases ht
  all_goals exact fun h hh => absurd hh List.not_mem_nil

/-- Which calls are allowed, told by the lengths of their texts. -/
theorem along_allowed_iff (calls : List SourceCall) (s : SourceBuffer) :
    Along (appendSource maxSrcLen) (Allowed maxSrcLen malloc) s calls ↔ (∀ c ∈ calls, c.2.Fits) ∧
      ∀ p ∈ textSlots maxSrcLen s.offset (calls.filterMap (·.2.text)), malloc (p.1 + p.2) = '\x00' := by
  induction calls generalizing s with
  | nil => simp [Along, textSlots]
  | cons c calls ih =>
    rw [List.forall_mem_cons]
    unfold Along
    rcases appendSource_cases maxSrcLen s c with h | ⟨text, h, hlong | ⟨hlen, hfull | hroom⟩⟩
    · have hc : Allowed maxSrcLen malloc s c := fun t ht => by rw [h] at ht; cases ht
      have hfits : c.2.Fits := fun t ht => by rw [h] at ht; cases ht
      rw [appendSource_none h, List.filterMap_cons_none (f := fun x : SourceCall => x.2.text) h]
      simp only [hc, hfits, true_and]
      exact ih s
    · have hfits : ¬ c.2.Fits := fun hf => hlong (hf text h)
      rw [appendSource_long h hlong]
      exact iff_of_false (fun hc => hlong (hc text h).1) fun hall => hfits hall.1.1
    · have hc : Allowed maxSrcLen malloc s c := fun t ht => by
        cases h.symm.trans ht
        exact ⟨hlen, fun hroom => absurd hroom hfull⟩
      have hfits : c.2.Fits := fun t ht => by
        cases h.symm.trans ht
        exact hlen
      rw [appendSource_full h hlen hfull, List.filterMap_cons_some (f := fun x : SourceCall => x.2.text) h,
        textSlots, if_neg hfull]
      simp only [hc, hfits, true_and]
      exact ih s
    · have hc : Allowed maxSrcLen malloc s c ↔ malloc (s.offset + (terminated text).length) = '\x00' := by
        refine ⟨fun hc => (hc text h).2 hroom, fun h0 t ht => ?_⟩
        cases h.symm.trans ht
        exact ⟨hlen, fun _ => h0⟩
      have hfits : c.2.Fits := fun t ht => by
        cases h.symm.trans ht
        exact hlen
      rw [appendSource_room h hlen hroom, List.filterMap_cons_some (f := fun x : SourceCall => x.2.text) h,
        textSlots, if_pos hroom, List.forall_mem_cons]
      simp only [hc, hfits, true_and, ih]
      tauto

end

/-! ## What is formatted -/

/-- A register that `parse_reg` returns. -/
def Readable (r : Int) : Prop := 0 ≤ r ∧ r ≤ 32

theorem readable_parseReg {line : Nat} {tok : CStr} {r : Int} (h : parseReg line tok = .ok r) : Readable r := by
  by_cases h32 : ReadsAs32 tok
  · obtain ⟨ds, rfl, hds⟩ := h32
    rw [parseReg_x, hds] at h
    obtain rfl : (32 : Int) = r := Except.ok.inj h
    exact ⟨by decide, le_rfl⟩
  · obtain ⟨h0, h31⟩ := (inFile_iff h).mpr h32
    exact ⟨h0, by omega⟩

namespace SourceText

/-- `areg[4]` holds the text of every register. -/
theorem length_regText {r : Int} (h : Readable r) : (regText r).length = 3 := by
  obtain ⟨n, rfl⟩ := Int.eq_ofNat_of_zero_le h.1
  have hn : n < 33 := by have := h.2; omega
  have hall : ∀ n < 33, (regText (n : Nat)).length = 3 := by decide
  exact hall n hn

/-- `immu[12]` and `immd[12]` hold the text of every word. -/
theorem length_immText (w : Word) : (immText w).length = 10 := by simp [immText, printf08x]

theorem luiText_fits {rd : Int} (h : Readable rd) (v : Word) : (luiText rd v).Fits := by
  intro t ht
  cases ht
  simp only [List.length_append, length_regText h, length_immText]
  exact (by decide : 3 + 1 + 3 + 2 + 10 < 128)

theorem addiText_fits {rd rs : Int} (h : Readable rd) (h' : Readable rs) (v : Word) : (addiText rd rs v).Fits := by
  intro t ht
  cases ht
  simp only [List.length_append, length_regText h, length_regText h', length_immText]
  exact (by decide : 4 + 1 + 3 + 2 + 3 + 2 + 10 < 128)

/-- Every call so far fits. -/
abbrev AllFit {α : Type} (m : Emit α) : Prop := m.Logs fun c => c.2.Fits

theorem parseLi_fits (line : Nat) (m : Imem) (k : Nat) (o1 o2 : CStr) : AllFit (parseLi line m k o1 o2) := by
  unfold parseLi
  rw [AllFit, Logged.logs_bind]
  refine ⟨(Logged.logs_lift _).mpr trivial, fun reg hreg => ?_⟩
  have hr := readable_parseReg hreg
  dsimp only
  split
  · exact (Logged.logs_lift _).mpr trivial
  simp only [Logged.logs_bind, Logged.logs_lift, Logged.logs_log, Logged.logs_pure, List.forall_mem_singleton, true_and]
  exact fun _ _ => ⟨luiText_fits hr _, fun _ _ => fun _ _ => ⟨addiText_fits hr hr _, fun _ _ => trivial⟩⟩

theorem length_mvSlots {line : Nat} {o1 o2 : CStr} {fs : List (Instr → Instr)} (h : mvSlots line o1 o2 = .ok fs) :
    fs.length = 1 := by
  obtain ⟨rd, -, h⟩ := Except.bind_eq_ok.mp h
  obtain ⟨rs, -, h⟩ := Except.bind_eq_ok.mp h
  cases h
  rfl

theorem length_branchZeroSlots {op : InstrType} {line : Nat} {o1 o2 : CStr} {fs : List (Instr → Instr)}
    (h : branchZeroSlots op line o1 o2 = .ok fs) : fs.length = 1 := by
  obtain ⟨reg, -, h⟩ := Except.bind_eq_ok.mp h
  cases h
  rfl

/-- A pseudo-instruction that keeps its own text has one slot. -/
theorem length_pseudoSlots {line : Nat} {tok : CStr} {os : Operands} {l : SourceLine} {fs : List (Instr → Instr)}
    (hl : pseudoText tok os = some l) (h : pseudoSlots line tok os = .ok fs) : fs.length = 1 := by
  obtain ⟨o1, o2, o3, o4⟩ := os
  unfold pseudoText at hl
  split at hl
  · next htok =>
    rw [pseudoSlots, htok] at h
    rcases o1 with _ | o1 <;> cases h
    rfl
  · next htok =>
    rw [pseudoSlots, htok] at h
    rcases o1 with _ | o1 <;> rcases o2 with _ | o2 <;> cases h
    rfl
  · next htok =>
    rw [pseudoSlots, htok] at h
    rcases o1 with _ | o1 <;> rcases o2 with _ | o2 <;> rcases o3 with _ | o3
    all_goals first | exact length_mvSlots h | cases h
  · next htok =>
    rw [pseudoSlots, htok] at h
    rcases o1 with _ | o1 <;> rcases o2 with _ | o2 <;> rcases o3 with _ | o3
    all_goals first | exact length_branchZeroSlots h | cases h
  · next htok =>
    rw [pseudoSlots, htok] at h
    rcases o1 with _ | o1 <;> rcases o2 with _ | o2 <;> rcases o3 with _ | o3
    all_goals first | exact length_branchZeroSlots h | cases h
  · cases hl

theorem parsePseudoinstructions_fits_iff (line : Nat) (tok : CStr) (m : Imem) (k : Nat) (os : Operands) :
    AllFit (parsePseudoinstructions line tok m k os) ↔
      ∀ r, Asm.parsePseudoinstructions line tok m k os = .ok r → ∀ l, pseudoText tok os = some l → l.Fits := by
  unfold parsePseudoinstructions
  split
  · next o1 o2 htok h1 h2 h3 =>
    have hnone : pseudoText tok os = none := by
      rw [pseudoText, htok]
      rfl
    refine iff_of_true (parseLi_fits line m k o1 o2) fun _ _ l hl => ?_
    rw [hnone] at hl
    cases hl
  · simp only [AllFit, Logged.logs_bind, Logged.logs_lift, Logged.logs_log, Logged.logs_pure, Logged.result_lift,
      List.mem_map, Option.mem_toList]
    constructor
    · rintro ⟨-, h⟩ r hr l hl
      exact (h r hr).1 (k, l) ⟨l, hl, rfl⟩
    · refine fun h => ⟨trivial, fun r hr => ⟨?_, fun _ _ => trivial⟩⟩
      rintro _ ⟨l, hl, rfl⟩
      exact h r hr l hl

end SourceText

/-- The call that formats the operands of a line; `li` and `la` have numbers formatted instead. -/
def lineSource (line : Nat) (tok : CStr) (os : Operands) : Option SourceLine :=
  match pseudoSlots line tok os with
  | .error _ => none
  | .ok [] => some ⟨tok, os.o1, os.o2, os.o3⟩
  | .ok _ => SourceText.pseudoText tok os

namespace SourceText

theorem parsePlain_fits_iff (line : Nat) (tok : CStr) (os : Operands) (m : Imem) (k : Nat) :
    AllFit (parsePlain line tok os m k) ↔ (⟨tok, os.o1, os.o2, os.o3⟩ : SourceLine).Fits := by
  simp [parsePlain, AllFit, Logged.logs_bind]

theorem parseInstr_fits_iff {cfg : Config} {m : Imem} (hm : m.size = cfg.dataOffset / 4) (line : Nat)
    (tok rest : CStr) (loc : Nat) : AllFit (parseInstr cfg line tok rest m loc) ↔
      (loc + 4 ≤ cfg.dataOffset → ∀ l, lineSource line tok (Operands.read rest) = some l → l.Fits) := by
  unfold parseInstr
  by_cases hroom : loc + 4 > cfg.dataOffset
  · rw [if_pos hroom]
    exact iff_of_true ((Logged.logs_lift _).mpr trivial) fun h => absurd hroom (by omega)
  rw [if_neg hroom, AllFit, Logged.logs_bind, result_parsePseudoinstructions]
  have hpseudo := parsePseudoinstructions_fits_iff line tok m (loc / 4) (Operands.read rest)
  rw [parsePseudoinstructions_eq] at hpseudo ⊢
  unfold lineSource
  generalize Operands.read rest = os at hpseudo ⊢
  cases hfs : pseudoSlots line tok os with
  | error e =>
    rw [hfs] at hpseudo
    refine iff_of_true ⟨hpseudo.mpr fun r hr => ?_, fun r hr => ?_⟩ fun _ l hl => by cases hl
    · cases hr
    · cases hr
  | ok fs =>
    rw [hfs] at hpseudo
    cases fs with
    | nil =>
      have hnone : ∀ l, pseudoText tok os ≠ some l := fun l hl => by cases length_pseudoSlots hl hfs
      have hplain := parsePlain_fits_iff line tok os m (loc / 4)
      constructor
      · rintro ⟨-, h⟩ - l hl
        cases hl
        exact hplain.mp (h (m, 0) rfl)
      · refine fun h => ⟨hpseudo.mpr fun _ _ l hl => absurd hl (hnone l), fun r hr => ?_⟩
        cases hr
        exact hplain.mpr (h (by omega) _ rfl)
    | cons f fs =>
      have hdone : ∀ r, rewrite m (loc / 4) (.ok (f :: fs)) = .ok r → AllFit
          (if r.2 > 0 then pure (r.1, r.2) else parsePlain line tok os r.1 (loc / 4)) := by
        rintro ⟨m', c⟩ hr
        obtain ⟨fs', hfs', -, rfl⟩ := rewrite_eq_ok hr
        cases hfs'
        have hpos : (m', (f :: fs).length).2 > 0 := Nat.succ_pos _
        rw [if_pos hpos]
        exact (Logged.logs_pure _).mpr trivial
      constructor
      · rintro ⟨h, -⟩ - l hl
        have hlen := length_pseudoSlots hl hfs
        obtain ⟨m', hm'⟩ := @exists_writeSlots m (loc / 4) (f :: fs) (by omega)
        refine hpseudo.mp h (m', (f :: fs).length) ?_ l hl
        simp only [rewrite, bind, Except.bind, hm']
        rfl
      · exact fun h => ⟨hpseudo.mpr fun _ _ l hl => h (by omega) l hl, hdone⟩

end SourceText

/-- The line fits into `tbuf`, if there is room for its instruction. -/
def Short (cfg : Config) (loc : Nat) (p : Nat × Stmt) : Prop :=
  match p.2 with
  | .instr tok rest =>
    loc + 4 ≤ cfg.dataOffset → ∀ l, lineSource p.1 tok (Operands.read rest) = some l → l.Fits
  | _ => True

namespace SourceText

theorem exec_fits_iff {cfg : Config} {s : State} (hs : s.imem.size = cfg.dataOffset / 4) (p : Nat × Stmt) :
    AllFit (exec cfg s p) ↔ Short cfg s.memoff p := by
  obtain ⟨line, name | ⟨tok, rest⟩ | ⟨tok, rest⟩⟩ := p
  · exact Logged.logs_lift _
  · exact Logged.logs_lift _
  · refine Iff.trans ?_ (parseInstr_fits_iff hs line tok rest s.memoff)
    simp [exec, AllFit, Logged.logs_bind]

/-- **The first pass** formats what the lines that it reaches ask for. -/
theorem parse_fits_iff (cfg : Config) (file : List Char) : AllFit (parse cfg file) ↔
    ∀ ps p qs, statements file = ps ++ p :: qs → Accepted cfg ps → Short cfg (locAfter 0 (stepsOf cfg ps)) p := by
  have hshort {ps : List (Nat × Stmt)} {s : State} (h : ps.foldlM (Asm.exec cfg) (State.init cfg) = .ok s)
      (p : Nat × Stmt) : AllFit (exec cfg s p) ↔ Short cfg (locAfter 0 (stepsOf cfg ps)) p := by
    rw [exec_fits_iff (size_run h), memoff_run h]
    rfl
  unfold parse
  rw [AllFit, Logged.logs_foldlM]
  simp only [result_exec]
  constructor
  · rintro h ps p qs hst ⟨s, hs⟩
    exact (hshort hs p).mp (h ps p qs s hst hs)
  · intro h ps p qs s hst hs
    exact (hshort hs p).mpr (h ps p qs hst ⟨s, hs⟩)

theorem normalizeInstr_fits (labels : List LabelLoc) (k : Nat) {i : Instr} (hi : ∀ r ∈ regsOf i, Readable r) :
    AllFit (normalizeInstr labels k i) := by
  have hregs : Readable i.a1.reg ∧ Readable i.a2.reg ∧ Readable i.a3.reg := by simpa [regsOf] using hi
  unfold normalizeInstr
  simp only [AllFit, Logged.logs_bind, Logged.logs_lift, Logged.logs_log, Logged.logs_pure, Logged.result_lift,
    true_and]
  intro i1 h1
  obtain ⟨o1, ho1, rfl⟩ := resolveA1_eq_ok h1
  intro i2 h2
  obtain ⟨o2, ho2, -, rfl⟩ := resolveA2_eq_ok h2
  rw [← ho1, ← ho2] at hregs
  refine ⟨fun c hc => ?_, fun _ _ i3 h3 => ⟨fun c hc => ?_, fun _ _ => trivial⟩⟩
  · split at hc
    · rw [List.mem_singleton.mp hc]
      exact luiText_fits hregs.1 _
    · cases hc
  · obtain ⟨o3, -, -, rfl⟩ := resolveA3_eq_ok h3
    split at hc
    · rw [List.mem_singleton.mp hc]
      exact addiText_fits hregs.1 hregs.2.1 _
    · cases hc

/-- **The second pass** formats registers and words. -/
theorem normalizeFrom_fits (labels : List LabelLoc) (k n : Nat) {m : Imem}
    (hm : ∀ j, ∀ r ∈ regsOf (m.code j), Readable r) : AllFit (normalizeFrom labels k n m) := by
  induction n generalizing k m with
  | zero => exact (Logged.logs_pure _).mpr trivial
  | succ n ih =>
    unfold normalizeFrom
    split
    · exact ih (k + 1) hm
    · refine (Logged.logs_bind _ _).mpr ⟨normalizeInstr_fits labels k (hm k), fun i hi => ih (k + 1) fun j r hr => ?_⟩
      rw [result_normalizeInstr] at hi
      dsimp only at hr
      by_cases hj : j = k
      · subst hj
        rw [Function.update_self, normalizeInstr_regs hi] at hr
        exact hm j r hr
      · rw [Function.update_of_ne hj] at hr
        exact hm j r hr

/-- Every register in the slots was read by `parse_reg`, or is 0 or 1. -/
theorem readable_run {cfg : Config} {ps : List (Nat × Stmt)} {s t : State} (h : ps.foldlM (Asm.exec cfg) s = .ok t)
    (hs : ∀ k, ∀ r ∈ regsOf (s.imem.code k), Readable r) : ∀ k, ∀ r ∈ regsOf (t.imem.code k), Readable r :=
  forall_code_run h (fun _ _ => keepsCode_regs ⟨by decide, by decide⟩ ⟨by decide, by decide⟩
    fun _ _ _ hr => readable_parseReg hr) hs

theorem assemble_fits_iff (cfg : Config) (file : List Char) : AllFit (assemble cfg file) ↔
    ∀ ps p qs, statements file = ps ++ p :: qs → Accepted cfg ps → Short cfg (locAfter 0 (stepsOf cfg ps)) p := by
  rw [← parse_fits_iff]
  unfold assemble
  rw [AllFit, Logged.logs_bind, result_parse, parse_eq]
  refine and_iff_left fun s hs => (Logged.logs_bind _ _).mpr ⟨normalizeFrom_fits _ _ _ ?_, fun _ _ => ?_⟩
  · refine readable_run hs fun k r hr => ?_
    have h0 : r = 0 := by simpa [State.init, regsOf] using hr
    rw [h0]
    exact ⟨le_rfl, by decide⟩
  · exact (Logged.logs_pure _).mpr trivial

end SourceText

/-- **Main result.** The buffers hold every text, and every text handed out is a string, exactly when every line that
the first pass reaches is short, and `malloc` left a zero behind every text that finds room. -/
theorem sourceTexts_iff (cfg : Config) (maxSrcLen : Nat) (malloc : Nat → Char) (file : List Char) :
    SourceTextsSafe cfg maxSrcLen malloc file ↔
      (∀ ps p qs, statements file = ps ++ p :: qs → Accepted cfg ps → Short cfg (locAfter 0 (stepsOf cfg ps)) p) ∧
        ∀ q ∈ textSlots maxSrcLen 0 ((SourceText.assemble cfg file).calls.filterMap (·.2.text)),
          malloc (q.1 + q.2) = '\x00' := by
  rw [← SourceText.assemble_fits_iff]
  exact (always_terminated_iff _).trans (along_allowed_iff _ _)

/-! ## Two programs -/

/-- What the first call of the first pass shows. -/
theorem allowed_of_safe {cfg : Config} {maxSrcLen : Nat} {malloc : Nat → Char} {file : List Char} {c : SourceCall}
    {cs : List SourceCall} (hc : (SourceText.parse cfg file).calls = c :: cs)
    (h : SourceTextsSafe cfg maxSrcLen malloc file) : Allowed maxSrcLen malloc (SourceBuffer.init malloc) c := by
  obtain ⟨ds, hds⟩ : (SourceText.parse cfg file).calls <+: (SourceText.assemble cfg file).calls :=
    Logged.calls_bind _ _
  have halong := (always_terminated_iff _).mp h
  rw [← hds, hc, List.cons_append] at halong
  refine halong.head ?_
  rcases appendSource_cases maxSrcLen (SourceBuffer.init malloc) c with h | ⟨text, h, hlong | ⟨hlen, hfull | hroom⟩⟩
  · simp [appendSource_none h]
  · simp [appendSource_long h hlong]
  · simp [appendSource_full h hlen hfull]
  · simp [appendSource_room h hlen hroom]

/-- An immediate of 150 digits. -/
def longImmediate : CStr := List.replicate 149 '0' ++ ['1']

theorem not_sourceTextsSafe :
    ¬ SourceTextsSafe {} 1048576 (fun _ => '\x00') ("addi x1, x1, ".toList ++ longImmediate ++ ['\n']) ∧
      ¬ SourceTextsSafe {} 1048576 (fun _ => 'a') "ret\n".toList := by
  constructor
  · have hcall : (SourceText.parse {} ("addi x1, x1, ".toList ++ longImmediate ++ ['\n'])).calls =
        [(0, ⟨"addi".toList, some "x1".toList, some "x1".toList, some longImmediate⟩)] := by decide +kernel
    refine mt (allowed_of_safe hcall) fun hall => ?_
    exact absurd (hall _ rfl).1 (by decide +kernel)
  · have hcall : (SourceText.parse {} "ret\n".toList).calls =
        [(0, ⟨"jalr".toList, some "x0".toList, some "x1".toList, some "x0".toList⟩)] := by decide +kernel
    refine mt (allowed_of_safe hcall) fun hall => ?_
    exact absurd ((hall _ rfl).2 (by decide)) (by decide)

end SocModel.Asm
