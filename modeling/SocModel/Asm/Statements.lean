import SocModel.Asm.Emulator
import SocModel.Isa.Exec
import SocModel.Lib.Layout

/-!
# The statements of a source

A line holds a label, a directive or an instruction, or a label and one of these behind it. What a statement does to
the location counter depends on its text alone.

* `lineStmts`, `numbered` : the statements of a line and of the lines of a file, `parse_eq` : the first pass runs
  them one after another with `exec`;
* `Stmt.steps` : the steps of the location counter, `Item`, `itemsOf` : what a statement emits;
* `executes` : an accepted statement moves the counter by its steps and writes its items, and nothing else.
-/

namespace SocModel.Asm

open Lib

inductive Stmt where
  | label (name : CStr)
  | directive (tok rest : CStr)
  | instr (tok rest : CStr)
  deriving DecidableEq, Repr

/-- The statements of one line. -/
def lineStmts (text : List Char) : List Stmt :=
  match strtok " \t\r\n".toList ((terminated text).map Char.toLower) with
  | none => []
  | some (ftok, rest) =>
    if ftok.head? = some '#' then []
    else if ftok.head? = some '.' then [.directive ftok rest]
    else if ftok.getLast? = some ':' then
      match strtok " \t\r\n".toList rest with
      | none => [.label ftok.dropLast]
      | some (ntok, rest) =>
        [.label ftok.dropLast, if ntok.head? = some '.' then .directive ntok rest else .instr ntok rest]
    else [.instr ftok rest]

/-- The statements of the lines from `line` on, each with its line. -/
def numbered : Nat → List CStr → List (Nat × Stmt)
  | _, [] => []
  | line, t :: ts => (lineStmts t).map (line, ·) ++ numbered (line + 1) ts

/-- One statement of the first pass. -/
def exec (cfg : Config) (s : State) (p : Nat × Stmt) : Except AsmError State :=
  match p.2 with
  | .label name => parseLabel cfg name s
  | .directive tok rest => parseAssemblerDirective cfg p.1 tok rest s
  | .instr tok rest => parseInstrLine cfg p.1 tok rest s

theorem parseLine_eq (cfg : Config) (line : Nat) (text : List Char) (s : State) :
    parseLine cfg line text s = ((lineStmts text).map (line, ·)).foldlM (exec cfg) s := by
  unfold parseLine lineStmts
  rcases strtok " \t\r\n".toList ((terminated text).map Char.toLower) with _ | ⟨ftok, rest⟩
  · rfl
  · simp only
    split
    · rfl
    split
    · simp [exec]
    split
    · rcases strtok " \t\r\n".toList rest with _ | ⟨ntok, rest⟩
      · simp [exec]
      · simp only [List.map_cons, List.map_nil, List.foldlM_cons, List.foldlM_nil, exec, bind_pure]
        congr 1
        funext u
        split <;> rfl
    · simp [exec]

theorem parseLines_eq (cfg : Config) (line : Nat) (ts : List CStr) (s : State) :
    parseLines cfg line ts s = (numbered line ts).foldlM (exec cfg) s := by
  induction ts generalizing line s with
  | nil => rfl
  | cons t ts ih =>
    rw [parseLines, numbered, List.foldlM_append, parseLine_eq]
    congr 1
    funext u
    exact ih (line + 1) u

/-- The statements of a file, in the lines that `fgets` reads. -/
def statements (file : List Char) : List (Nat × Stmt) := numbered 1 (fgets 1023 [] file)

theorem parse_eq (cfg : Config) (file : List Char) :
    parse cfg file = (statements file).foldlM (exec cfg) (State.init cfg) :=
  parseLines_eq cfg 1 _ _

/-! ## The location counter -/

/-- The size of the elements of a data directive, in the order of the comparisons. -/
def elementSize (tok : CStr) : Nat :=
  if tok.isPrefixOf ".byte".toList then 1 else if tok.isPrefixOf ".half".toList then 2 else 4

/-- The elements behind a data directive. -/
def elements (rest : CStr) : List CStr := tokens " \t\r\n".toList rest.length rest

/-- The slots an instruction takes: `li` and `la` stand for two. -/
def slots (tok : CStr) : Nat := if tok = "li".toList ∨ tok = "la".toList then 2 else 1

def Stmt.steps (cfg : Config) : Stmt → List LayStep
  | .label _ => []
  | .directive tok rest =>
    if tok.isPrefixOf ".text".toList then [.org cfg.textOffset]
    else if tok.isPrefixOf ".data".toList then [.org cfg.dataOffset]
    else List.replicate (elements rest).length (.item (elementSize tok))
  | .instr tok _ => List.replicate (slots tok) (.item 4)

/-! ## What a statement emits -/

/-- An instruction or a data element: its line, its place, and the number or the instruction it puts there. -/
structure Item where
  line : Nat
  loc : Nat
  size : Nat
  value : Nat
  code : Option Instr

/-- `0xcccccccc`, which marks an instruction in the data memory. -/
def instrMark : Nat := (BitVec.ofInt 64 0xcccccccc).toNat

/-- The elements of a data directive from `loc` on. -/
def dataItems (line size : Nat) : Nat → List CStr → List Item
  | _, [] => []
  | loc, t :: ts =>
    { line, loc, size, value := (BitVec.ofInt 64 (strtol 0 t).1).toNat, code := none } ::
      dataItems line size (loc + size) ts

/-- The instructions of a line of `count` slots, as the memory `m` holds them after it. -/
def codeItems (line loc : Nat) (m : Imem) (count : Nat) : List Item :=
  (List.range count).map fun k =>
    { line, loc := loc + k * 4, size := 4, value := instrMark, code := some (m.code (loc / 4 + k)) }

/-- What a statement emits that leads from `s` to `t`. -/
def itemsOf (line : Nat) (s t : State) : Stmt → List Item
  | .label _ => []
  | .directive tok rest =>
    if tok.isPrefixOf ".text".toList ∨ tok.isPrefixOf ".data".toList then []
    else dataItems line (elementSize tok) s.memoff (elements rest)
  | .instr tok _ => codeItems line s.memoff t.imem (slots tok)

/-- The items of a data memory. -/
def writeItems (m : Store) (its : List Item) : Store := its.foldl (fun m x => store m x.loc x.size x.value) m

/-- The instructions of an instruction memory. -/
def writeCode (f : Nat → Instr) (its : List Item) : Nat → Instr :=
  (its.filterMap fun x => x.code.map (x.loc / 4, ·)).foldl (fun f x => Function.update f x.1 x.2) f

theorem writeItems_append (m : Store) (xs ys : List Item) :
    writeItems m (xs ++ ys) = writeItems (writeItems m xs) ys := List.foldl_append

theorem writeCode_append (f : Nat → Instr) (xs ys : List Item) :
    writeCode f (xs ++ ys) = writeCode (writeCode f xs) ys := by
  unfold writeCode
  rw [List.filterMap_append, List.foldl_append]

/-- The labels a statement defines at `loc`. -/
def Stmt.labels (loc : Nat) : Stmt → List LabelLoc
  | .label name => [⟨name, loc⟩]
  | _ => []

/-- What a statement does to the state. -/
structure Executes (cfg : Config) (s t : State) (line : Nat) (st : Stmt) : Prop where
  memoff : t.memoff = locAfter s.memoff (st.steps cfg)
  places : (itemsOf line s t st).map (fun x => (x.loc, x.size)) = placed s.memoff (st.steps cfg)
  mem : t.mem = writeItems s.mem (itemsOf line s t st)
  code : t.imem.code = writeCode s.imem.code (itemsOf line s t st)
  size : t.imem.size = s.imem.size
  labels : t.labels = s.labels ++ st.labels s.memoff

/-! ### Directives -/

theorem storeElement_eq_ok {cfg : Config} {m m' : Store} {a n : Nat} {v : Int}
    (h : storeElement cfg m a n v = .ok m') : m' = store m a n (BitVec.ofInt 64 v).toNat := by
  unfold storeElement at h
  split at h
  · exact (Except.ok.inj h).symm
  · cases h

theorem parseElement_eq_ok {cfg : Config} {size : Nat} {s t : State} {tok : CStr}
    (h : parseElement cfg size s tok = .ok t) :
    t = { s with
      mem := store s.mem s.memoff size (BitVec.ofInt 64 (strtol 0 tok).1).toNat
      memoff := s.memoff + size } := by
  unfold parseElement at h
  simp only at h
  split at h
  · cases h
  · obtain ⟨m, hm, ht⟩ := Except.bind_eq_ok.mp h
    rw [← storeElement_eq_ok hm]
    exact (Except.ok.inj ht).symm

theorem foldlM_parseElement {cfg : Config} {size : Nat} {toks : List CStr} {s t : State} (line : Nat)
    (h : toks.foldlM (parseElement cfg size) s = .ok t) :
    t = { s with
      mem := writeItems s.mem (dataItems line size s.memoff toks)
      memoff := s.memoff + toks.length * size } := by
  induction toks generalizing s with
  | nil =>
    obtain rfl := Except.ok.inj h
    simp [writeItems, dataItems]
  | cons tok toks ih =>
    rw [List.foldlM_cons] at h
    obtain ⟨u, hu, ht⟩ := Except.bind_eq_ok.mp h
    rw [ih ht, parseElement_eq_ok hu]
    simp only [dataItems, writeItems, List.foldl_cons, List.length_cons, Nat.succ_mul]
    rw [Nat.add_assoc, Nat.add_comm size]

theorem places_dataItems (line size loc : Nat) (toks : List CStr) :
    (dataItems line size loc toks).map (fun x => (x.loc, x.size)) =
      placed loc (List.replicate toks.length (.item size)) := by
  induction toks generalizing loc with
  | nil => rfl
  | cons tok toks ih => exact congrArg ((loc, size) :: ·) (ih (loc + size))

theorem writeCode_dataItems (f : Nat → Instr) (line size loc : Nat) (toks : List CStr) :
    writeCode f (dataItems line size loc toks) = f := by
  have hnil : (dataItems line size loc toks).filterMap (fun x => x.code.map (x.loc / 4, ·)) = [] := by
    induction toks generalizing loc with
    | nil => rfl
    | cons tok toks ih => exact ih (loc + size)
  rw [writeCode, hnil]
  rfl

/-- A directive that is recognised is a section or the elements of a size. -/
theorem parseAssemblerDirective_cases {cfg : Config} {line : Nat} {tok rest : CStr} {s t : State}
    (h : parseAssemblerDirective cfg line tok rest s = .ok t) :
    (tok.isPrefixOf ".text".toList ∧ t = { s with memoff := cfg.textOffset }) ∨
      (¬ tok.isPrefixOf ".text".toList ∧ tok.isPrefixOf ".data".toList ∧ t = { s with memoff := cfg.dataOffset }) ∨
      (¬ tok.isPrefixOf ".text".toList ∧ ¬ tok.isPrefixOf ".data".toList ∧
        parseDataElement cfg (elementSize tok) rest s = .ok t) := by
  unfold parseAssemblerDirective at h
  split at h
  · next htext =>
    split at h
    · cases h
    · exact .inl ⟨htext, (Except.ok.inj h).symm⟩
  next htext =>
  split at h
  · next hdata => exact .inr (.inl ⟨htext, hdata, (Except.ok.inj h).symm⟩)
  next hdata =>
  refine .inr (.inr ⟨htext, hdata, ?_⟩)
  unfold elementSize
  split at h
  · next hbyte => rwa [if_pos hbyte]
  next hbyte =>
  split at h
  · next hhalf => rwa [if_neg hbyte, if_pos hhalf]
  next hhalf =>
  split at h
  · rwa [if_neg hbyte, if_neg hhalf]
  · cases h

theorem executes_directive {cfg : Config} {line : Nat} {tok rest : CStr} {s t : State}
    (h : parseAssemblerDirective cfg line tok rest s = .ok t) : Executes cfg s t line (.directive tok rest) := by
  rcases parseAssemblerDirective_cases h with ⟨htext, rfl⟩ | ⟨htext, hdata, rfl⟩ | ⟨htext, hdata, hp⟩
  · have hs : (Stmt.directive tok rest).steps cfg = [.org cfg.textOffset] := if_pos htext
    have hi : ∀ u, itemsOf line s u (.directive tok rest) = [] := fun u => if_pos (.inl htext)
    refine ⟨?_, ?_, ?_, ?_, rfl, (List.append_nil _).symm⟩ <;> simp [hs, hi, locAfter, placed, writeItems, writeCode]
  · have hs : (Stmt.directive tok rest).steps cfg = [.org cfg.dataOffset] := by
      rw [Stmt.steps, if_neg htext, if_pos hdata]
    have hi : ∀ u, itemsOf line s u (.directive tok rest) = [] := fun u => if_pos (.inr hdata)
    refine ⟨?_, ?_, ?_, ?_, rfl, (List.append_nil _).symm⟩ <;> simp [hs, hi, locAfter, placed, writeItems, writeCode]
  · have hs : (Stmt.directive tok rest).steps cfg =
        List.replicate (elements rest).length (.item (elementSize tok)) := by
      rw [Stmt.steps, if_neg htext, if_neg hdata]
    have hi : ∀ u, itemsOf line s u (.directive tok rest) =
        dataItems line (elementSize tok) s.memoff (elements rest) := fun u => if_neg (by tauto)
    obtain rfl := foldlM_parseElement line hp
    refine ⟨?_, ?_, ?_, ?_, rfl, (List.append_nil _).symm⟩
    · rw [hs, locAfter_replicate]
      rfl
    · rw [hs, hi, places_dataItems]
    · rw [hi]
      rfl
    · rw [hi, writeCode_dataItems]

/-! ### Instructions -/

theorem setInstr_eq_ok {m m' : Imem} {k : Nat} {i : Instr} (h : setInstr m k i = .ok m') :
    k < m.size ∧ m' = { m with code := Function.update m.code k i } := by
  unfold setInstr at h
  split at h
  · next hk => exact ⟨hk, (Except.ok.inj h).symm⟩
  · cases h

/-- `m'` differs from `m` in the `c` slots from `k` on at most, and has these. -/
structure Writes (m m' : Imem) (k c : Nat) : Prop where
  size : m'.size = m.size
  bound : k + c ≤ m.size
  frame : ∀ j, j < k ∨ k + c ≤ j → m'.code j = m.code j

theorem Writes.of_set {m m' : Imem} {k : Nat} {i : Instr} (h : setInstr m k i = .ok m') : Writes m m' k 1 := by
  obtain ⟨hk, rfl⟩ := setInstr_eq_ok h
  exact ⟨rfl, hk, fun j hj => Function.update_of_ne (by omega) _ _⟩

theorem Writes.of_set_set {m u m' : Imem} {k : Nat} {i i' : Instr} (h : setInstr m k i = .ok u)
    (h' : setInstr u (k + 1) i' = .ok m') : Writes m m' k 2 := by
  have h1 := Writes.of_set h
  have h2 := Writes.of_set h'
  refine ⟨h2.size.trans h1.size, h1.size ▸ h2.bound, fun j hj => ?_⟩
  rw [h2.frame j (by omega), h1.frame j (by omega)]

theorem parseLi_writes {line k c : Nat} {m m' : Imem} {o1 o2 : CStr} (h : parseLi line m k o1 o2 = .ok (m', c)) :
    c = 2 ∧ Writes m m' k 2 := by
  unfold parseLi at h
  obtain ⟨reg, -, h⟩ := Except.bind_eq_ok.mp h
  simp only at h
  split at h
  · cases h
  · obtain ⟨u, hu, h⟩ := Except.bind_eq_ok.mp h
    obtain ⟨v, hv, h⟩ := Except.bind_eq_ok.mp h
    obtain ⟨rfl, rfl⟩ := Prod.mk.inj (Except.ok.inj h)
    exact ⟨rfl, .of_set_set hu hv⟩

theorem parseLa_writes {line k c : Nat} {m m' : Imem} {o1 o2 : CStr} (h : parseLa line m k o1 o2 = .ok (m', c)) :
    c = 2 ∧ Writes m m' k 2 := by
  unfold parseLa at h
  obtain ⟨reg, -, h⟩ := Except.bind_eq_ok.mp h
  obtain ⟨u, hu, h⟩ := Except.bind_eq_ok.mp h
  obtain ⟨v, hv, h⟩ := Except.bind_eq_ok.mp h
  obtain ⟨rfl, rfl⟩ := Prod.mk.inj (Except.ok.inj h)
  exact ⟨rfl, .of_set_set hu hv⟩

theorem parseBranchZero_writes {op : InstrType} {line k c : Nat} {m m' : Imem} {o1 o2 : CStr}
    (h : parseBranchZero op line m k o1 o2 = .ok (m', c)) : c = 1 ∧ Writes m m' k 1 := by
  unfold parseBranchZero at h
  obtain ⟨reg, -, h⟩ := Except.bind_eq_ok.mp h
  obtain ⟨u, hu, h⟩ := Except.bind_eq_ok.mp h
  obtain ⟨rfl, rfl⟩ := Prod.mk.inj (Except.ok.inj h)
  exact ⟨rfl, .of_set hu⟩

/-- A pseudo-instruction writes the slots of its mnemonic; another mnemonic is left alone. -/
theorem parsePseudoinstructions_writes {line k c : Nat} {tok : CStr} {m m' : Imem} {os : Operands}
    (h : parsePseudoinstructions line tok m k os = .ok (m', c)) :
    (c = slots tok ∧ Writes m m' k (slots tok)) ∨ (c = 0 ∧ m' = m ∧ slots tok = 1) := by
  unfold parsePseudoinstructions at h
  split at h
  · next heq =>
    obtain rfl : tok = "li".toList := by rw [← heq, String.toList_ofList]
    split at h
    · exact .inl (parseLi_writes h)
    · cases h
  · next heq =>
    obtain rfl : tok = "la".toList := by rw [← heq, String.toList_ofList]
    split at h
    · exact .inl (parseLa_writes h)
    · cases h
  · next heq =>
    obtain rfl : tok = "ret".toList := by rw [← heq, String.toList_ofList]
    split at h
    · cases h
    · obtain ⟨u, hu, h⟩ := Except.bind_eq_ok.mp h
      obtain ⟨rfl, rfl⟩ := Prod.mk.inj (Except.ok.inj h)
      exact .inl ⟨rfl, .of_set hu⟩
  · next heq =>
    obtain rfl : tok = "j".toList := by rw [← heq, String.toList_ofList]
    split at h
    · obtain ⟨u, hu, h⟩ := Except.bind_eq_ok.mp h
      obtain ⟨rfl, rfl⟩ := Prod.mk.inj (Except.ok.inj h)
      exact .inl ⟨rfl, .of_set hu⟩
    · cases h
  · next heq =>
    obtain rfl : tok = "mv".toList := by rw [← heq, String.toList_ofList]
    split at h
    · obtain ⟨rd, -, h⟩ := Except.bind_eq_ok.mp h
      obtain ⟨rs, -, h⟩ := Except.bind_eq_ok.mp h
      obtain ⟨u, hu, h⟩ := Except.bind_eq_ok.mp h
      obtain ⟨rfl, rfl⟩ := Prod.mk.inj (Except.ok.inj h)
      exact .inl ⟨rfl, .of_set hu⟩
    · cases h
  · next heq =>
    obtain rfl : tok = "bnez".toList := by rw [← heq, String.toList_ofList]
    split at h
    · exact .inl (parseBranchZero_writes h)
    · cases h
  · next heq =>
    obtain rfl : tok = "beqz".toList := by rw [← heq, String.toList_ofList]
    split at h
    · exact .inl (parseBranchZero_writes h)
    · cases h
  · next hli hla _ _ _ _ _ =>
    obtain ⟨rfl, rfl⟩ := Prod.mk.inj (Except.ok.inj h)
    refine .inr ⟨rfl, rfl, if_neg ?_⟩
    rintro (rfl | rfl)
    · exact hli rfl
    · exact hla rfl

theorem parseInstr_writes {cfg : Config} {line loc c : Nat} {tok rest : CStr} {m m' : Imem}
    (h : parseInstr cfg line tok rest m loc = .ok (m', c)) : c = slots tok ∧ Writes m m' (loc / 4) (slots tok) := by
  unfold parseInstr at h
  split at h
  · cases h
  obtain ⟨⟨u, n⟩, hu, hn⟩ := Except.bind_eq_ok.mp h
  simp only at hn
  rcases parsePseudoinstructions_writes hu with ⟨rfl, hw⟩ | ⟨rfl, rfl, hs⟩
  · have hpos : 0 < slots tok := by
      unfold slots
      split <;> omega
    rw [if_pos hpos] at hn
    obtain ⟨rfl, rfl⟩ := Prod.mk.inj (Except.ok.inj hn)
    exact ⟨rfl, hw⟩
  · rw [if_neg (show ¬ 0 > 0 from Nat.lt_irrefl 0)] at hn
    obtain ⟨i, -, hn⟩ := Except.bind_eq_ok.mp hn
    obtain ⟨v, hv, hn⟩ := Except.bind_eq_ok.mp hn
    obtain ⟨rfl, rfl⟩ := Prod.mk.inj (Except.ok.inj hn)
    rw [hs]
    exact ⟨rfl, .of_set hv⟩

theorem places_codeItems (line loc : Nat) (m : Imem) (count : Nat) :
    (codeItems line loc m count).map (fun x => (x.loc, x.size)) = placed loc (List.replicate count (.item 4)) := by
  rw [placed_replicate, codeItems, List.map_map]
  rfl

theorem markInstrs_eq_ok {cfg : Config} {mem mem' : Store} {loc count : Nat} (line : Nat) (m : Imem)
    (h : markInstrs cfg mem loc count = .ok mem') : mem' = writeItems mem (codeItems line loc m count) := by
  induction count generalizing mem loc with
  | zero => exact (Except.ok.inj h).symm
  | succ count ih =>
    rw [markInstrs] at h
    obtain ⟨u, hu, h⟩ := Except.bind_eq_ok.mp h
    rw [ih h, storeElement_eq_ok hu]
    unfold writeItems codeItems
    rw [List.range_succ_eq_map]
    simp only [List.map_cons, List.map_map, List.foldl_cons, List.foldl_map, Function.comp_apply, Nat.zero_mul,
      Nat.add_zero, Nat.succ_mul, instrMark]
    congr 1
    funext u k
    rw [Nat.add_assoc, Nat.add_comm 4]

theorem writeCode_codeItems {line loc count : Nat} {m m' : Imem} (h : Writes m m' (loc / 4) count) :
    writeCode m.code (codeItems line loc m' count) = m'.code := by
  have hf : (codeItems line loc m' count).filterMap (fun x => x.code.map (x.loc / 4, ·)) =
      (List.range count).map fun k => (loc / 4 + k, m'.code (loc / 4 + k)) := by
    unfold codeItems
    rw [List.filterMap_map, ← List.filterMap_eq_map]
    congr 1
    funext k
    simp only [Function.comp_apply, Option.map_some, Option.some.injEq, Prod.mk.injEq, and_true]
    omega
  unfold writeCode
  rw [hf, List.foldl_map]
  funext j
  by_cases hj : j < loc / 4 ∨ loc / 4 + count ≤ j
  · rw [foldl_update_frame _ _ _ _ fun k hk => ?_, h.frame j hj]
    have := List.mem_range.mp hk
    omega
  · obtain ⟨k, hk, rfl⟩ : ∃ k < count, j = loc / 4 + k := ⟨j - loc / 4, by omega, by omega⟩
    refine foldl_update_apply (fun k => loc / 4 + k) (fun k => m'.code (loc / 4 + k)) m.code ?_ (List.mem_range.mpr hk)
    exact List.pairwise_lt_range.imp fun hlt => by omega

theorem executes_instr {cfg : Config} {line : Nat} {tok rest : CStr} {s t : State}
    (h : parseInstrLine cfg line tok rest s = .ok t) : Executes cfg s t line (.instr tok rest) := by
  unfold parseInstrLine at h
  obtain ⟨⟨m, c⟩, hm, h⟩ := Except.bind_eq_ok.mp h
  obtain ⟨mem, hmem, h⟩ := Except.bind_eq_ok.mp h
  obtain ⟨rfl, hw⟩ := parseInstr_writes hm
  obtain rfl := Except.ok.inj h
  refine ⟨?_, ?_, ?_, ?_, hw.size, (List.append_nil _).symm⟩
  · exact (locAfter_replicate _ _ _).symm
  · exact places_codeItems line _ _ _
  · exact markInstrs_eq_ok line m hmem
  · exact (writeCode_codeItems hw).symm

/-- **One statement** does to the counter, the memories and the labels what its items and its label say. -/
theorem executes {cfg : Config} {s t : State} {p : Nat × Stmt} (h : exec cfg s p = .ok t) :
    Executes cfg s t p.1 p.2 := by
  obtain ⟨line, name | ⟨tok, rest⟩ | ⟨tok, rest⟩⟩ := p
  · unfold exec parseLabel at h
    simp only at h
    split at h
    · cases h
    split at h
    · cases h
    obtain rfl := Except.ok.inj h
    exact ⟨rfl, rfl, rfl, rfl, rfl, rfl⟩
  · exact executes_directive h
  · exact executes_instr h

end SocModel.Asm
