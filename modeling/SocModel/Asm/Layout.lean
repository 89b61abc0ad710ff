import SocModel.Asm.Statements

/-!
# What the assembler overwrites

`.text` and `.data` set the location counter to the start of their section, whatever lies there, and the data
directives do not look where the other section starts.

* `emitted` : the instructions and the data elements of a source, `emitted_places` : where they lie;
* `Intact` : they lie apart, and each of them is still there after the pass;
* `intact_iff` : that is so exactly when the sections of the source fit beside each other.
-/

namespace SocModel.Asm

open Lib

/-- What the statements from `s` on emit. -/
def emitted (cfg : Config) : State → List (Nat × Stmt) → List Item
  | _, [] => []
  | s, p :: ps =>
    match exec cfg s p with
    | .ok t => itemsOf p.1 s t p.2 ++ emitted cfg t ps
    | .error _ => []

/-- The items of a file. -/
def items (cfg : Config) (file : List Char) : List Item := emitted cfg (State.init cfg) (statements file)

/-- The steps of the location counter. -/
def stepsOf (cfg : Config) (ps : List (Nat × Stmt)) : List LayStep := ps.flatMap fun p => p.2.steps cfg

/-- The sections of a source: where each starts and how many bytes it holds. What comes before the first directive
starts at 0. -/
def sourceSections (cfg : Config) (file : List Char) : List (Nat × Nat) :=
  sections 0 0 (stepsOf cfg (statements file))

def Item.place (x : Item) : Nat × Nat := (x.loc, x.size)

/-! ## Runs of the first pass -/

section Runs

variable {cfg : Config} {ps : List (Nat × Stmt)} {s t : State}

theorem stepsOf_cons (p : Nat × Stmt) (ps : List (Nat × Stmt)) :
    stepsOf cfg (p :: ps) = p.2.steps cfg ++ stepsOf cfg ps := List.flatMap_cons

theorem emitted_cons {p : Nat × Stmt} (h : exec cfg s p = .ok t) :
    emitted cfg s (p :: ps) = itemsOf p.1 s t p.2 ++ emitted cfg t ps := by
  rw [emitted, h]

theorem memoff_run (h : ps.foldlM (exec cfg) s = .ok t) : t.memoff = locAfter s.memoff (stepsOf cfg ps) := by
  induction ps generalizing s with
  | nil => rw [← Except.ok.inj h]; rfl
  | cons p ps ih =>
    obtain ⟨u, hu, h⟩ := Except.bind_eq_ok.mp h
    rw [ih h, (executes hu).memoff, stepsOf_cons, locAfter_append]

theorem emitted_places (h : ps.foldlM (exec cfg) s = .ok t) :
    (emitted cfg s ps).map Item.place = placed s.memoff (stepsOf cfg ps) := by
  induction ps generalizing s with
  | nil => rfl
  | cons p ps ih =>
    obtain ⟨u, hu, h⟩ := Except.bind_eq_ok.mp h
    have he := executes hu
    rw [emitted_cons hu, List.map_append, ih h, he.memoff, stepsOf_cons, placed_append, ← he.places]
    rfl

theorem mem_run (h : ps.foldlM (exec cfg) s = .ok t) : t.mem = writeItems s.mem (emitted cfg s ps) := by
  induction ps generalizing s with
  | nil => rw [← Except.ok.inj h]; rfl
  | cons p ps ih =>
    obtain ⟨u, hu, h⟩ := Except.bind_eq_ok.mp h
    rw [emitted_cons hu, writeItems_append, ← (executes hu).mem, ih h]

theorem code_run (h : ps.foldlM (exec cfg) s = .ok t) :
    t.imem.code = writeCode s.imem.code (emitted cfg s ps) := by
  induction ps generalizing s with
  | nil => rw [← Except.ok.inj h]; rfl
  | cons p ps ih =>
    obtain ⟨u, hu, h⟩ := Except.bind_eq_ok.mp h
    rw [emitted_cons hu, writeCode_append, ← (executes hu).code, ih h]

theorem code_dataItems {line size loc : Nat} {toks : List CStr} {x : Item}
    (h : x ∈ dataItems line size loc toks) : x.code = none := by
  induction toks generalizing loc with
  | nil => cases h
  | cons tok toks ih =>
    rcases List.mem_cons.mp h with rfl | h
    · rfl
    · exact ih h

/-- An item with an instruction has four bytes. -/
theorem size_of_code {line : Nat} {st : Stmt} {x : Item} (h : x ∈ itemsOf line s t st) (hc : x.code.isSome) :
    x.size = 4 := by
  rcases st with name | ⟨tok, rest⟩ | ⟨tok, rest⟩
  · cases h
  · simp only [itemsOf] at h
    split at h
    · cases h
    · rw [code_dataItems h] at hc
      cases hc
  · obtain ⟨k, -, rfl⟩ := List.mem_map.mp h
    rfl

theorem size_of_emitted {x : Item} (h : x ∈ emitted cfg s ps) (hc : x.code.isSome) : x.size = 4 := by
  induction ps generalizing s with
  | nil => cases h
  | cons p ps ih =>
    unfold emitted at h
    split at h
    · rcases List.mem_append.mp h with h | h
      · exact size_of_code h hc
      · exact ih h
    · cases h

end Runs

/-! ## What is still there -/

/-- No two items share a byte or a slot, and the memories hold every one of them. -/
structure Intact (s : State) (its : List Item) : Prop where
  bytes : its.Pairwise fun x y => Disjoint (range x.loc x.size) (range y.loc y.size)
  slots : its.Pairwise fun x y => x.code.isSome → y.code.isSome → x.loc / 4 ≠ y.loc / 4
  kept : ∀ x ∈ its, load s.mem x.loc x.size = x.value % 256 ^ x.size
  keptCode : ∀ x ∈ its, ∀ i, x.code = some i → s.imem.code (x.loc / 4) = i

/-- Instructions at places apart are in different slots. -/
theorem slots_of_bytes {its : List Item} (h4 : ∀ x ∈ its, x.code.isSome → x.size = 4)
    (hb : its.Pairwise fun x y => Disjoint (range x.loc x.size) (range y.loc y.size)) :
    its.Pairwise fun x y => x.code.isSome → y.code.isSome → x.loc / 4 ≠ y.loc / 4 := by
  refine hb.imp_of_mem fun {x y} hx hy hd hcx hcy => ?_
  have ha : x.size = 0 ∨ y.size = 0 ∨ x.loc + x.size ≤ y.loc ∨ y.loc + y.size ≤ x.loc := apart_iff.mp hd
  rw [h4 x hx hcx, h4 y hy hcy] at ha
  omega

theorem writeCode_apply {its : List Item} (f : Nat → Instr)
    (hs : its.Pairwise fun x y => x.code.isSome → y.code.isSome → x.loc / 4 ≠ y.loc / 4) {x : Item} (hx : x ∈ its)
    {i : Instr} (hi : x.code = some i) : writeCode f its (x.loc / 4) = i := by
  have hp : (its.filterMap fun x => x.code.map (x.loc / 4, ·)).Pairwise fun a b => a.1 ≠ b.1 := by
    apply List.Pairwise.filterMap _ _ hs
    intro a b hne c hc d hd
    obtain ⟨j, hj, rfl⟩ := Option.map_eq_some_iff.mp hc
    obtain ⟨k, hk, rfl⟩ := Option.map_eq_some_iff.mp hd
    exact hne (by rw [hj]; rfl) (by rw [hk]; rfl)
  have hm : (x.loc / 4, i) ∈ its.filterMap fun x => x.code.map (x.loc / 4, ·) :=
    List.mem_filterMap.mpr ⟨x, hx, by rw [hi]; rfl⟩
  exact foldl_update_apply Prod.fst Prod.snd f hp hm

section File

variable {cfg : Config} {file : List Char} {s : State}

/-- The bytes of the items are apart exactly when the sections fit. -/
theorem bytes_iff (h : parse cfg file = .ok s) :
    ((items cfg file).Pairwise fun x y => Disjoint (range x.loc x.size) (range y.loc y.size)) ↔
      (sourceSections cfg file).Pairwise Fits := by
  rw [parse_eq] at h
  have hp : (items cfg file).map Item.place = placed 0 (stepsOf cfg (statements file)) := emitted_places h
  have hf : Fits = Apart := by
    funext x y
    exact propext (apart_iff_fits x y).symm
  rw [hf, sourceSections, ← pairwise_apart_placed, ← hp, List.pairwise_map]
  rfl

theorem intact_of_bytes (h : parse cfg file = .ok s)
    (hb : (items cfg file).Pairwise fun x y => Disjoint (range x.loc x.size) (range y.loc y.size)) :
    Intact s (items cfg file) := by
  rw [parse_eq] at h
  have hs := slots_of_bytes (fun x hx => size_of_emitted hx) hb
  refine ⟨hb, hs, fun x hx => ?_, fun x hx i hi => ?_⟩
  · rw [mem_run h]
    exact foldl_store_load Item.loc Item.size Item.value _ hb hx
  · rw [code_run h]
    exact writeCode_apply _ hs hx hi

/-- **Main result.** For every source that is accepted: everything it emits is apart and still there after the pass
exactly when its sections fit beside each other. -/
theorem intact_iff (h : parse cfg file = .ok s) :
    Intact s (items cfg file) ↔ (sourceSections cfg file).Pairwise Fits := by
  constructor
  · exact fun hi => (bytes_iff h).mp hi.bytes
  · exact fun hf => intact_of_bytes h ((bytes_iff h).mpr hf)

end File

/-! ## Two sections at one place -/

/-- One section of each kind, code before data. -/
def twoSections : List Char := ".text\nla x1, v\nhcf\n.data\nv: .word 7 8\n".toList

theorem exists_of_parse_isOk {cfg : Config} {file : List Char} (h : (parse cfg file).toOption.isSome = true) :
    ∃ s, parse cfg file = .ok s := by
  rcases hp : parse cfg file with e | s
  · rw [hp] at h
    cases h
  · exact ⟨s, rfl⟩

theorem intact_iff_twoSections : ∃ s, parse {} twoSections = .ok s ∧
    (Intact s (items {} twoSections) ↔ (sourceSections {} twoSections).Pairwise Fits) ∧
    (sourceSections {} twoSections).Pairwise Fits := by
  obtain ⟨s, hs⟩ := @exists_of_parse_isOk {} twoSections (by decide +kernel)
  exact ⟨s, hs, intact_iff hs, by decide +kernel⟩

/-- The second `.text` goes back to the place of the first instruction. -/
def textTwice : List Char := ".text\nadd x1, x2, x3\n.text\nsub x1, x2, x3\n".toList

theorem not_intact_textTwice : ¬ ∀ (cfg : Config) (file : List Char) (s : State), parse cfg file = .ok s →
    Intact s (items cfg file) := by
  intro h
  obtain ⟨s, hs⟩ := @exists_of_parse_isOk {} textTwice (by decide +kernel)
  exact absurd ((bytes_iff hs).mp (h _ _ s hs).bytes) (by decide +kernel)

end SocModel.Asm
