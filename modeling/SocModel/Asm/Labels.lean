import SocModel.Asm.Resolve

/-!
# Labels

A label gets the value of the location counter where it stands, so it names what comes next in its section. All
instructions of a source in one section get slots of their own, and what the first pass leaves in them is what the
second one finds.

* `OneText`, `Source` : the sources the results are about;
* `NextOf` : the statement a label is followed by, `FirstOf` : the first instruction of a statement;
* `Correct` : branches and jumps reach that instruction, `la` loads that address;
* `labels_correct` : so it is when no section begins in between.
-/

namespace SocModel.Asm

open Lib

/-! ## Sources -/

namespace Stmt

def IsInstr : Stmt → Prop
  | .instr _ _ => True
  | _ => False

def IsDirective : Stmt → Prop
  | .directive _ _ => True
  | _ => False

def name? : Stmt → Option CStr
  | .label name => some name
  | _ => none

instance (st : Stmt) : Decidable st.IsInstr := by cases st <;> unfold IsInstr <;> infer_instance

instance (st : Stmt) : Decidable st.IsDirective := by cases st <;> unfold IsDirective <;> infer_instance

/-- The statement emits something; its first item has `n` bytes. -/
def Emits (cfg : Config) (st : Stmt) : Prop := ∃ n ss, st.steps cfg = .item n :: ss

instance (cfg : Config) (st : Stmt) : Decidable (st.Emits cfg) :=
  match h : st.steps cfg with
  | [] => isFalse fun ⟨n, ss, hs⟩ => by rw [h] at hs; cases hs
  | .org a :: ss => isFalse fun ⟨n, ss, hs⟩ => by rw [h] at hs; cases hs
  | .item n :: ss => isTrue ⟨n, ss, h⟩

end Stmt

/-- The names of the labels. -/
def labelNames (ps : List (Nat × Stmt)) : List CStr := ps.filterMap (·.2.name?)

/-- The instructions stand together, with nothing but labels between them. -/
def OneText (ps : List (Nat × Stmt)) : Prop :=
  ∃ before text after, ps = before ++ (text ++ after) ∧ (∀ p ∈ before, ¬ p.2.IsInstr) ∧
    (∀ p ∈ text, ¬ p.2.IsDirective) ∧ ∀ p ∈ after, ¬ p.2.IsInstr

/-- The statements of the lines of a file. -/
def sourceStmts (file : List Char) : List (Nat × Stmt) := numbered 1 (sourceLines [] file)

/-- A source with short lines, one section of instructions and a name for each label, accepted by both passes. -/
structure Source (cfg : Config) (file : List Char) (s : State) (imem : Imem) : Prop where
  /-- The parameter is an `int`. -/
  int : cfg.memorySize < 2 ^ 31
  short : ∀ l ∈ sourceLines [] file, l.length < 1024
  distinct : (labelNames (sourceStmts file)).Nodup
  oneText : OneText (sourceStmts file)
  parsed : parse cfg file = .ok s
  normalized : normalizeLabels s.labels s.imem = .ok imem

/-- The value of the location counter behind the statements `ps`. -/
def location (cfg : Config) (ps : List (Nat × Stmt)) : Nat := locAfter 0 (stepsOf cfg ps)

/-- `p` is the first statement behind the label `name` that is not quiet; `pre` is all that stands before it. -/
def NextOf (quiet : Stmt → Prop) (ps : List (Nat × Stmt)) (name : CStr) (pre : List (Nat × Stmt)) (p : Nat × Stmt) :
    Prop :=
  ∃ before line mid post, ps = pre ++ p :: post ∧ pre = before ++ (line, .label name) :: mid ∧ ∀ q ∈ mid, quiet q.2

/-- `i` is the first instruction the statement `p` emits behind `pre`. -/
def FirstOf (cfg : Config) (pre : List (Nat × Stmt)) (p : Nat × Stmt) (i : Instr) : Prop :=
  ∃ u v, pre.foldlM (exec cfg) (State.init cfg) = .ok u ∧ exec cfg u p = .ok v ∧ i = v.imem.code (u.memoff / 4)

/-- Every branch and jump to a label goes to the slot of the first instruction behind the label, and every `la` loads
the address of the first item behind it; `quietCode` and `quietData` say what may stand in between. -/
structure Correct (quietCode quietData : Stmt → Prop) (cfg : Config) (ps : List (Nat × Stmt))
    (labels : List LabelLoc) (imem : Imem) : Prop where
  branch : ∀ pre line tok rest post name, ps = pre ++ (line, .instr tok rest) :: post →
    labelOperand tok (Operands.read rest) = some name → ∀ pre' p, NextOf quietCode ps name pre' p → p.2.IsInstr →
    ∃ i t, target (imem.code (location cfg pre / 4)) = t ∧ t.toNat = location cfg pre' ∧ FirstOf cfg pre' p i ∧
      Resolved labels (t.toNat / 4) i (imem.code (t.toNat / 4))
  la : ∀ pre line rest post o name, ∀ rd : Fin 32, ps = pre ++ (line, .instr "la".toList rest) :: post →
    (Operands.read rest).o1 = some o → (Operands.read rest).o2 = some name → parseReg line o = .ok rd.val →
    ∀ pre' p, NextOf quietData ps name pre' p → p.2.Emits cfg → ∀ pc rf, ∃ rf1 rf2,
      execBase (imem.code (location cfg pre / 4)) pc rf = .ok (.commit rf1 (pc + 4)) ∧
      execBase (imem.code (location cfg pre / 4 + 1)) (pc + 4) rf1 = .ok (.commit rf2 (pc + 4 + 4)) ∧
      (rf2 rd).toNat = location cfg pre'

/-! ## Runs of the first pass, split -/

section Runs

variable {cfg : Config} {ps qs : List (Nat × Stmt)} {p : Nat × Stmt} {s t : State}

theorem run_split (h : (ps ++ p :: qs).foldlM (exec cfg) s = .ok t) :
    ∃ u v, ps.foldlM (exec cfg) s = .ok u ∧ exec cfg u p = .ok v ∧ qs.foldlM (exec cfg) v = .ok t := by
  rw [List.foldlM_append] at h
  obtain ⟨u, hu, h⟩ := Except.bind_eq_ok.mp h
  obtain ⟨v, hv, h⟩ := Except.bind_eq_ok.mp h
  exact ⟨u, v, hu, hv, h⟩

theorem size_run (h : ps.foldlM (exec cfg) s = .ok t) : t.imem.size = s.imem.size := by
  induction ps generalizing s with
  | nil => rw [← Except.ok.inj h]
  | cons p ps ih =>
    obtain ⟨u, hu, h⟩ := Except.bind_eq_ok.mp h
    rw [ih h, (executes hu).size]

theorem writeCode_frame {its : List Item} (f : Nat → Instr) {j : Nat}
    (h : ∀ x ∈ its, x.code.isSome → x.loc / 4 ≠ j) : writeCode f its j = f j := by
  refine foldl_update_frame Prod.fst Prod.snd _ f fun x hx => ?_
  obtain ⟨y, hy, hc⟩ := List.mem_filterMap.mp hx
  obtain ⟨i, hi, rfl⟩ := Option.map_eq_some_iff.mp hc
  exact h y hy (by rw [hi]; rfl)

/-- A statement that is no instruction leaves the instructions alone. -/
theorem code_of_not_instr (h : exec cfg s p = .ok t) (hp : ¬ p.2.IsInstr) : t.imem.code = s.imem.code := by
  rw [(executes h).code]
  funext j
  refine writeCode_frame _ fun x hx hc => ?_
  obtain ⟨line, name | ⟨tok, rest⟩ | ⟨tok, rest⟩⟩ := p
  · cases hx
  · simp only [itemsOf] at hx
    split at hx
    · cases hx
    · rw [code_dataItems hx] at hc
      cases hc
  · exact absurd trivial hp

/-- A statement that is no directive writes no slot below the counter and does not take it back. -/
theorem code_of_not_directive (h : exec cfg s p = .ok t) (hp : ¬ p.2.IsDirective) :
    s.memoff ≤ t.memoff ∧ ∀ j < s.memoff / 4, t.imem.code j = s.imem.code j := by
  have he := executes h
  obtain ⟨line, name | ⟨tok, rest⟩ | ⟨tok, rest⟩⟩ := p
  · exact ⟨he.memoff.ge, fun j _ => by rw [he.code]; rfl⟩
  · exact absurd trivial hp
  · refine ⟨?_, fun j hj => ?_⟩
    · rw [he.memoff, Stmt.steps, locAfter_replicate]
      exact Nat.le_add_right _ _
    · rw [he.code]
      refine writeCode_frame _ fun x hx _ => ?_
      obtain ⟨k, -, rfl⟩ := List.mem_map.mp hx
      simp only
      omega

theorem code_run_of_not_instr (h : ps.foldlM (exec cfg) s = .ok t) (ha : ∀ p ∈ ps, ¬ p.2.IsInstr) :
    t.imem.code = s.imem.code := by
  induction ps generalizing s with
  | nil => rw [← Except.ok.inj h]
  | cons p ps ih =>
    obtain ⟨u, hu, h⟩ := Except.bind_eq_ok.mp h
    rw [List.forall_mem_cons] at ha
    rw [ih h ha.2, code_of_not_instr hu ha.1]

/-- What stands below the counter stays, as long as the instructions of one section go on. -/
theorem code_frame {text after : List (Nat × Stmt)} (h : (text ++ after).foldlM (exec cfg) s = .ok t)
    (ht : ∀ p ∈ text, ¬ p.2.IsDirective) (ha : ∀ p ∈ after, ¬ p.2.IsInstr) :
    ∀ j < s.memoff / 4, t.imem.code j = s.imem.code j := by
  induction text generalizing s with
  | nil =>
    intro j _
    exact congrFun (code_run_of_not_instr h ha) j
  | cons p ps ih =>
    intro j hj
    obtain ⟨u, hu, h⟩ := Except.bind_eq_ok.mp h
    rw [List.forall_mem_cons] at ht
    obtain ⟨hle, hc⟩ := code_of_not_directive hu ht.1
    rw [ih h ht.2 j (hj.trans_le (Nat.div_le_div_right hle)), hc j hj]

/-- Behind an instruction of the one section, the run only adds to what stands below the counter. -/
theorem OneText.tail {p : Nat × Stmt} (h : OneText (ps ++ p :: qs)) (hp : p.2.IsInstr) :
    ∃ text after, qs = text ++ after ∧ (∀ p ∈ text, ¬ p.2.IsDirective) ∧ ∀ p ∈ after, ¬ p.2.IsInstr := by
  obtain ⟨before, text, after, heq, hb, ht, ha⟩ := h
  obtain ⟨t₁, -, h₁⟩ : ∃ t₁, ps = before ++ t₁ ∧ text ++ after = t₁ ++ p :: qs := by
    rcases List.append_eq_append_iff.mp heq with ⟨c, hc, h⟩ | ⟨c, hc, h⟩
    · rcases c with _ | ⟨d, c⟩
      · exact ⟨[], by simpa using hc.symm, by simpa using h.symm⟩
      · obtain ⟨rfl, -⟩ := List.cons.inj h
        exact absurd hp (hb p (by simp [hc]))
    · exact ⟨c, hc, h⟩
  rcases List.append_eq_append_iff.mp h₁ with ⟨c, hc, h⟩ | ⟨c, hc, h⟩
  · exact absurd hp (ha p (by simp [h]))
  · rcases c with _ | ⟨d, c⟩
    · exact absurd hp (ha p (by rw [← show p :: qs = after by simpa using h]; exact List.mem_cons_self))
    · obtain ⟨rfl, rfl⟩ := List.cons.inj h
      exact ⟨c, after, rfl, fun q hq => ht q (by simp [hc, hq]), ha⟩

/-- The instructions of a statement are still in their slots after the pass. -/
theorem slots_kept {line : Nat} {tok rest : CStr} (hone : OneText (ps ++ (line, .instr tok rest) :: qs))
    (h : (ps ++ (line, .instr tok rest) :: qs).foldlM (exec cfg) s = .ok t) :
    ∃ u v, ps.foldlM (exec cfg) s = .ok u ∧ exec cfg u (line, .instr tok rest) = .ok v ∧
      u.memoff = locAfter s.memoff (stepsOf cfg ps) ∧
      ∀ k < slots tok, t.imem.code (u.memoff / 4 + k) = v.imem.code (u.memoff / 4 + k) ∧
        u.memoff / 4 + k < t.imem.size := by
  obtain ⟨u, v, hu, hv, hrun⟩ := run_split h
  obtain ⟨text, after, rfl, ht, ha⟩ := hone.tail trivial
  refine ⟨u, v, hu, hv, memoff_run hu, fun k hk => ⟨?_, ?_⟩⟩
  · apply code_frame hrun ht ha
    rw [(executes hv).memoff, Stmt.steps, locAfter_replicate]
    omega
  · obtain ⟨⟨m, c⟩, hm, -⟩ := Except.bind_eq_ok.mp hv
    have hb := (parseInstr_writes hm).2.bound
    rw [size_run hrun, (executes hv).size]
    omega

/-! ## The table of labels -/

/-- The labels the statements define from `loc` on. -/
def labelsFrom (cfg : Config) : Nat → List (Nat × Stmt) → List LabelLoc
  | _, [] => []
  | loc, p :: ps => p.2.labels loc ++ labelsFrom cfg (locAfter loc (p.2.steps cfg)) ps

theorem labels_run (h : ps.foldlM (exec cfg) s = .ok t) : t.labels = s.labels ++ labelsFrom cfg s.memoff ps := by
  induction ps generalizing s with
  | nil =>
    rw [← Except.ok.inj h]
    exact (List.append_nil _).symm
  | cons p ps ih =>
    obtain ⟨u, hu, h⟩ := Except.bind_eq_ok.mp h
    have he := executes hu
    rw [ih h, he.labels, he.memoff, List.append_assoc]
    rfl

theorem labelsFrom_append (loc : Nat) : labelsFrom cfg loc (ps ++ qs) =
    labelsFrom cfg loc ps ++ labelsFrom cfg (locAfter loc (stepsOf cfg ps)) qs := by
  induction ps generalizing loc with
  | nil => rfl
  | cons p ps ih =>
    rw [List.cons_append, labelsFrom, labelsFrom, ih, List.append_assoc, stepsOf_cons, locAfter_append]

theorem names_labelsFrom (loc : Nat) : (labelsFrom cfg loc ps).map LabelLoc.label = labelNames ps := by
  induction ps generalizing loc with
  | nil => rfl
  | cons p ps ih =>
    rw [labelsFrom, List.map_append, ih]
    obtain ⟨line, name | ⟨tok, rest⟩ | ⟨tok, rest⟩⟩ := p <;> rfl

/-- A label with a name of its own is found where it was defined. -/
theorem labelAddr_of_nodup {line : Nat} {name : CStr} (hd : (labelNames (ps ++ (line, .label name) :: qs)).Nodup)
    (l : Int) : labelAddr (labelsFrom cfg 0 (ps ++ (line, .label name) :: qs)) l name =
      .ok (BitVec.ofNat 32 (location cfg ps)) := by
  have hnot : name ∉ labelNames ps := by
    unfold labelNames at hd
    rw [List.filterMap_append, List.nodup_append] at hd
    exact fun hmem => hd.2.2 name hmem name (by simp [Stmt.name?]) rfl
  have hnone : (labelsFrom cfg 0 ps).find? (·.label = name) = none := by
    rw [List.find?_eq_none]
    intro x hx hname
    rw [← @names_labelsFrom cfg ps 0] at hnot
    exact hnot (List.mem_map.mpr ⟨x, hx, by simpa using hname⟩)
  have hcons : labelsFrom cfg (location cfg ps) ((line, .label name) :: qs) =
      ⟨name, location cfg ps⟩ :: labelsFrom cfg (location cfg ps) qs := rfl
  unfold labelAddr
  rw [labelsFrom_append, List.find?_append, hnone, Option.none_or]
  rw [show locAfter 0 (stepsOf cfg ps) = location cfg ps from rfl, hcons, List.find?_cons_of_pos (by simp)]

theorem length_of_label {line : Nat} {name : CStr} (h : exec cfg s (line, .label name) = .ok t) :
    name.length < MAX_LABEL_LEN := by
  unfold exec parseLabel at h
  simp only at h
  split at h
  · cases h
  · omega

/-- What is emitted lies in the memory. -/
theorem memoff_lt_of_emits (h : exec cfg s p = .ok t) (hp : p.2.Emits cfg) : s.memoff ≤ cfg.memorySize := by
  obtain ⟨n, ss, hn⟩ := hp
  have hstore {m m' : Store} {a k : Nat} {v : Int} (h : storeElement cfg m a k v = .ok m') :
      a ≤ cfg.memorySize := by
    unfold storeElement at h
    split at h
    · omega
    · cases h
  obtain ⟨line, name | ⟨tok, rest⟩ | ⟨tok, rest⟩⟩ := p
  · cases hn
  · rcases parseAssemblerDirective_cases h with ⟨htext, -⟩ | ⟨htext, hdata, -⟩ | ⟨htext, hdata, hd⟩
    · rw [Stmt.steps, if_pos htext] at hn
      cases hn
    · rw [Stmt.steps, if_neg htext, if_pos hdata] at hn
      cases hn
    · rw [Stmt.steps, if_neg htext, if_neg hdata] at hn
      unfold parseDataElement at hd
      rw [show tokens " \t\r\n".toList rest.length rest = elements rest from rfl] at hd
      rcases he : elements rest with _ | ⟨tok', toks⟩
      · rw [he] at hn
        cases hn
      · rw [he] at hd
        obtain ⟨u, hu, -⟩ := Except.bind_eq_ok.mp hd
        unfold parseElement at hu
        simp only at hu
        split at hu
        · cases hu
        · obtain ⟨m, hm, -⟩ := Except.bind_eq_ok.mp hu
          exact hstore hm
  · obtain ⟨⟨m, c⟩, hm, h⟩ := Except.bind_eq_ok.mp h
    obtain ⟨mem, hmem, -⟩ := Except.bind_eq_ok.mp h
    obtain ⟨rfl, -⟩ := parseInstr_writes hm
    obtain ⟨k, hk⟩ : ∃ k, slots tok = k + 1 := ⟨slots tok - 1, by unfold slots; split <;> rfl⟩
    simp only [hk, markInstrs] at hmem
    obtain ⟨m', hm', -⟩ := Except.bind_eq_ok.mp hmem
    exact hstore hm'

end Runs

/-! ## Labels are correct -/

section Source

variable {cfg : Config} {file : List Char} {s : State} {imem : Imem}

theorem Source.run (h : Source cfg file s imem) :
    (sourceStmts file).foldlM (exec cfg) (State.init cfg) = .ok s := by
  have hl : statements file = sourceStmts file := by
    unfold statements sourceStmts
    rw [fgets_eq_sourceLines fun l hl => Nat.le_of_lt_succ (h.short l hl)]
  rw [← hl, ← parse_eq]
  exact h.parsed

/-- The location of the statement a label is followed by is what the label stands for. -/
theorem Source.labelAddr (h : Source cfg file s imem) {name : CStr} {pre : List (Nat × Stmt)} {p : Nat × Stmt}
    (hn : NextOf (fun st => st.steps cfg = []) (sourceStmts file) name pre p) (l : Int) :
    labelAddr s.labels l (copyLabel name) = .ok (BitVec.ofNat 32 (location cfg pre)) := by
  obtain ⟨before, line, mid, post, heq, rfl, hq⟩ := hn
  have hrun := h.run
  have hd := h.distinct
  have hs : sourceStmts file = before ++ (line, .label name) :: (mid ++ p :: post) := by simpa using heq
  have hloc : location cfg (before ++ (line, .label name) :: mid) = location cfg before := by
    have hmid : stepsOf cfg ((line, .label name) :: mid) = [] := by
      rw [stepsOf_cons]
      exact List.flatMap_eq_nil_iff.mpr hq
    unfold location
    rw [show stepsOf cfg (before ++ (line, .label name) :: mid) = stepsOf cfg before ++
      stepsOf cfg ((line, .label name) :: mid) from List.flatMap_append, hmid, List.append_nil]
  rw [hs] at hrun hd
  obtain ⟨u, v, -, hv, -⟩ := run_split hrun
  have hlen : copyLabel name = name := List.take_of_length_le (length_of_label hv).le
  rw [hlen, hloc, labels_run hrun]
  exact labelAddr_of_nodup hd l

theorem Source.resolved (h : Source cfg file s imem) {k : Nat} (hk : k < s.imem.size) :
    Resolved s.labels k (s.imem.code k) (imem.code k) := normalizeLabels_resolved h.normalized hk

theorem Source.location_lt (h : Source cfg file s imem) {pre post : List (Nat × Stmt)} {p : Nat × Stmt}
    (hs : sourceStmts file = pre ++ p :: post) (hp : p.2.Emits cfg) : location cfg pre < 2 ^ 32 := by
  have hrun := h.run
  rw [hs] at hrun
  obtain ⟨u, v, hu, hv, -⟩ := run_split hrun
  have hle := memoff_lt_of_emits hv hp
  have := h.int
  rw [memoff_run hu] at hle
  exact Nat.lt_of_le_of_lt hle (by omega)

theorem slots_pos (tok : CStr) : 0 < slots tok := by
  unfold slots
  split <;> omega

theorem Stmt.IsInstr.emits {st : Stmt} (h : st.IsInstr) : st.Emits cfg := by
  rcases st with name | ⟨tok, rest⟩ | ⟨tok, rest⟩
  · exact h.elim
  · exact h.elim
  · obtain ⟨k, hk⟩ : ∃ k, slots tok = k + 1 := ⟨slots tok - 1, by have := slots_pos tok; omega⟩
    exact ⟨4, List.replicate k (.item 4), by rw [Stmt.steps, hk]; rfl⟩

/-- **Main result.** Where no section begins between a label and what it is followed by, the branches and jumps to it
reach that instruction, and `la` loads that address. -/
theorem labels_correct (h : Source cfg file s imem) :
    Correct (fun st => st.steps cfg = []) (fun st => st.steps cfg = []) cfg (sourceStmts file) s.labels imem where
  branch := by
    intro pre line tok rest post name hs hl pre' p hn hp
    have haddr := h.labelAddr hn
    obtain ⟨before, line', mid, post', hs', -, -⟩ := hn
    have hlt := h.location_lt hs' hp.emits
    -- the slot of the reference
    have hrun := h.run
    rw [hs] at hrun
    obtain ⟨u, v, -, hv, hloc, hslot⟩ := slots_kept (hs ▸ h.oneText) hrun
    obtain ⟨hkeep, hk⟩ := hslot 0 (slots_pos tok)
    obtain ⟨⟨m, c⟩, hm, hv⟩ := Except.bind_eq_ok.mp hv
    obtain ⟨mem, -, hv⟩ := Except.bind_eq_ok.mp hv
    obtain rfl := Except.ok.inj hv
    have href : Refers (s.imem.code (u.memoff / 4)) name := by
      rw [show s.imem.code (u.memoff / 4) = m.code (u.memoff / 4) from hkeep]
      exact parseInstr_refers hl hm
    obtain ⟨w, hw, ht⟩ := target_resolved href (h.resolved hk)
    obtain rfl := Except.ok.inj ((haddr _).symm.trans hw)
    -- the slot of the instruction
    have hrun' := h.run
    rw [hs'] at hrun'
    obtain ⟨line'', name' | ⟨tok', rest'⟩ | ⟨tok', rest'⟩⟩ := p
    · exact hp.elim
    · exact hp.elim
    obtain ⟨u', v', hu', hv', hloc', hslot'⟩ := slots_kept (hs' ▸ h.oneText) hrun'
    obtain ⟨hkeep', hk'⟩ := hslot' 0 (slots_pos tok')
    have hmem : u'.memoff = location cfg pre' := hloc'
    have hnat : (BitVec.ofNat 32 (location cfg pre')).toNat = location cfg pre' := by
      rw [BitVec.toNat_ofNat]
      exact Nat.mod_eq_of_lt hlt
    refine ⟨v'.imem.code (u'.memoff / 4), _, ?_, hnat, ⟨u', v', hu', hv', rfl⟩, ?_⟩
    · rw [← ht, show u.memoff = location cfg pre from hloc]
    · rw [hnat, ← hmem, ← show s.imem.code (u'.memoff / 4) = v'.imem.code (u'.memoff / 4) from hkeep']
      exact h.resolved hk'
  la := by
    intro pre line rest post o name rd hs h1 h2 hr pre' p hn hp pc rf
    have haddr := h.labelAddr hn
    obtain ⟨before, line', mid, post', hs', -, -⟩ := hn
    have hlt := h.location_lt hs' hp
    have hrun := h.run
    rw [hs] at hrun
    obtain ⟨u, v, -, hv, hloc, hslot⟩ := slots_kept (hs ▸ h.oneText) hrun
    obtain ⟨hkeep, hk⟩ := hslot 0 (by decide)
    obtain ⟨hkeep2, hk2⟩ := hslot 1 (by decide)
    obtain ⟨⟨m, c⟩, hm, hv⟩ := Except.bind_eq_ok.mp hv
    obtain ⟨mem, -, hv⟩ := Except.bind_eq_ok.mp hv
    obtain rfl := Except.ok.inj hv
    have hpair : LaPair (s.imem.code (u.memoff / 4)) (s.imem.code (u.memoff / 4 + 1)) rd.val name := by
      rw [show s.imem.code (u.memoff / 4) = m.code (u.memoff / 4) from hkeep, hkeep2]
      exact parseInstr_la hm h1 h2 hr
    have hres := h.resolved hk
    have hres2 := h.resolved hk2
    rw [Nat.add_zero, Resolved, if_neg (by rw [hpair.lui]; decide)] at hres
    rw [Resolved, if_neg (by rw [hpair.addi]; decide)] at hres2
    have hlui := normalizeInstr_resolve hres
    have haddi := normalizeInstr_resolve hres2
    obtain ⟨w, hw, himm⟩ := hlui.a2 hpair.luiLabel.1
    obtain ⟨w2, hw2, himm2⟩ := haddi.a3 hpair.addiLabel.1
    rw [hpair.luiLabel.2, haddr] at hw
    rw [hpair.addiLabel.2, haddr] at hw2
    obtain rfl := Except.ok.inj hw
    obtain rfl := Except.ok.inj hw2
    rw [if_pos hpair.lui] at himm
    rw [if_pos hpair.addi] at himm2
    have hmem : u.memoff = location cfg pre := hloc
    obtain ⟨rf1, he1, he2⟩ := execBase_la (hlui.op.trans hpair.lui) (hlui.rd.trans hpair.luiRd) himm
      (haddi.op.trans hpair.addi) (haddi.rd.trans hpair.addiRd) (haddi.rs.trans hpair.addiRs) himm2 pc (pc + 4) rf
    rw [hmem] at he1 he2
    refine ⟨rf1, _, he1, he2, ?_⟩
    rw [Function.update_self, BitVec.toNat_ofNat]
    exact Nat.mod_eq_of_lt hlt

end Source

/-! ## Two sources -/

/-- Both passes accept the file, and `ok` holds of the instruction memory. -/
def acceptedWith (file : List Char) (ok : Imem → Bool) : Bool :=
  (parse {} file).toOption.any fun s => (normalizeLabels s.labels s.imem).toOption.any ok

theorem exists_of_acceptedWith {file : List Char} {ok : Imem → Bool} (h : acceptedWith file ok = true) :
    ∃ s imem, parse {} file = .ok s ∧ normalizeLabels s.labels s.imem = .ok imem ∧ ok imem = true := by
  unfold acceptedWith at h
  rcases hp : parse {} file with e | s
  · rw [hp] at h
    cases h
  · rw [hp] at h
    rcases hn : normalizeLabels s.labels s.imem with e | imem
    · simp [hn, Except.toOption] at h
    · exact ⟨s, imem, rfl, hn, by simpa [hn, Except.toOption] using h⟩

/-- References forward and back, over instructions of one and of two slots. -/
def countdown : List Char :=
  ".text\nj test\nback: la x1, v\ntest: bnez x2, back\nhcf\n.data\nv: .word 7\n".toList

theorem labels_correct_countdown : ∃ s imem, Source {} countdown s imem ∧
    Correct (fun st => st.steps {} = []) (fun st => st.steps {} = []) {} (sourceStmts countdown) s.labels imem := by
  obtain ⟨s, imem, hp, hn, -⟩ := @exists_of_acceptedWith countdown (fun _ => true) (by decide +kernel)
  have hstmts : sourceStmts countdown = [(1, .directive ".text".toList [])] ++ ([(2, .instr "j".toList "test\n".toList),
      (3, .label "back".toList), (3, .instr "la".toList "x1, v\n".toList), (4, .label "test".toList),
      (4, .instr "bnez".toList "x2, back\n".toList), (5, .instr "hcf".toList [])] ++
      [(6, .directive ".data".toList []), (7, .label "v".toList), (7, .directive ".word".toList "7\n".toList)]) := by
    decide +kernel
  have hone : OneText (sourceStmts countdown) := ⟨_, _, _, hstmts, by decide +kernel, by decide +kernel, by decide +kernel⟩
  have hs : Source {} countdown s imem := ⟨by decide, by decide +kernel, by rw [hstmts]; decide +kernel, hone, hp, hn⟩
  exact ⟨s, imem, hs, labels_correct hs⟩

/-- A label behind the last instruction, and what follows it in the next section. -/
def labelAtEnd : List Char := ".text\nla x1, l\nhcf\nl: .data\n.word 5\n".toList

/-- The label stands for 12, the word lies at 8192. -/
theorem not_labels_correct_labelAtEnd : ¬ ∀ (cfg : Config) (file : List Char) (s : State) (imem : Imem),
    Source cfg file s imem →
    Correct (fun st => ¬ st.IsInstr) (fun st => ¬ st.Emits cfg) cfg (sourceStmts file) s.labels imem := by
  intro h
  obtain ⟨s, imem, hp, hn, hi⟩ := @exists_of_acceptedWith labelAtEnd
    (fun m => (m.code 0).op = .LUI ∧ (m.code 0).a1.reg = 1 ∧ (m.code 0).a2.imm = (12 : Word) >>> 12 ∧
      (m.code 1).op = .ADDI ∧ (m.code 1).a1.reg = 1 ∧ (m.code 1).a2.reg = 1 ∧
      (m.code 1).a3.imm = (12 : Word) &&& 0xFFF) (by decide +kernel)
  have hstmts : sourceStmts labelAtEnd = [(1, .directive ".text".toList [])] ++
      ([(2, .instr "la".toList "x1, l\n".toList), (3, .instr "hcf".toList [])] ++
      [(4, .label "l".toList), (4, .directive ".data".toList []), (5, .directive ".word".toList "5\n".toList)]) := by
    decide +kernel
  have hone : OneText (sourceStmts labelAtEnd) := ⟨_, _, _, hstmts, by decide +kernel, by decide +kernel, by decide +kernel⟩
  have hs : Source {} labelAtEnd s imem := ⟨by decide, by decide +kernel, by rw [hstmts]; decide +kernel, hone, hp, hn⟩
  have hnext : NextOf (fun st => ¬ st.Emits {}) (sourceStmts labelAtEnd) "l".toList
      [(1, .directive ".text".toList []), (2, .instr "la".toList "x1, l\n".toList), (3, .instr "hcf".toList []),
        (4, .label "l".toList), (4, .directive ".data".toList [])] (5, .directive ".word".toList "5\n".toList) :=
    ⟨[(1, .directive ".text".toList []), (2, .instr "la".toList "x1, l\n".toList), (3, .instr "hcf".toList [])], 4,
      [(4, .directive ".data".toList [])], [], hstmts, rfl, by decide⟩
  obtain ⟨rf1, rf2, he1, he2, hval⟩ := (h {} labelAtEnd s imem hs).la [(1, .directive ".text".toList [])] 2
    "x1, l\n".toList _ "x1".toList "l".toList 1 hstmts (by decide +kernel) (by decide +kernel) (by decide +kernel)
    _ _ hnext (by decide +kernel) 0 fun _ => 0
  simp only [decide_eq_true_eq] at hi
  obtain ⟨h1, h2, h3, h4, h5, h6, h7⟩ := hi
  obtain ⟨rf1', he1', he2'⟩ := @execBase_la _ _ 1 _ h1 h2 h3 h4 h5 h6 h7 0 4 fun _ => 0
  obtain ⟨rfl, -⟩ := Effect.commit.inj (Except.ok.inj (he1.symm.trans he1'))
  obtain ⟨rfl, -⟩ := Effect.commit.inj (Except.ok.inj (he2.symm.trans he2'))
  rw [Function.update_self] at hval
  exact absurd hval (by decide)

end SocModel.Asm
