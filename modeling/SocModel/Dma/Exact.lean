import SocModel.Dma.Completion
import SocModel.Dma.Copy

/-!
# The widths a DMA transfer copies exactly

* `exact_of_whole` : a width that is a multiple of 4 is copied exactly, in every run;
* `Tracks.exists_issued` : a transfer whose pushes are all refused at first issues every word, or faults;
* `copies_iff` : so a configuration copies its rectangle exactly when the width is a multiple of 4;
* `copies_oneByte` : a row of one byte, written as a word.
-/

namespace SocModel.Dma

open Lib Bus

variable {s : State} {size : Nat}

/-! ## Valid configurations -/

theorem Valid.addressable (hv : Valid s size) : Addressable (srcRect s) (dstRect s) := fun _ hg =>
  ⟨(hv.src_lt _ (Rect.word_mem (by rwa [hv.fits.words]))).2, (hv.dst_lt _ (Rect.word_mem hg)).2⟩

theorem shape_started (s : State) : Shape (srcRect s) (dstRect s) (started s) where
  src_base := rfl
  src_stride := rfl
  dst_base := rfl
  dst_stride := rfl
  src_row := rfl
  dst_row := rfl
  words := by
    simp only [started, decode, Rect.words, Rect.wordsPerRow, dstRect]
    congr 1
    split <;> omega

theorem height_le (s : State) : (dstRect s).height ≤ BUFFER_CAPACITY :=
  Nat.succ_le_of_lt (Nat.mod_lt _ (by decide))

/-- The words of both rectangles are in the memory. -/
def InRange (src dst : Rect) (size : Nat) : Prop :=
  ∀ g < dst.words, src.word g + 4 ≤ size ∧ dst.word g + 4 ≤ size

theorem Valid.inRange (hv : Valid s size) (hw : (dstRect s).width % 4 = 0) :
    InRange (srcRect s) (dstRect s) size := by
  intro g hg
  have h1 := hv.src_lt _ (Rect.word_add_mem (b := 3) (by rw [hv.fits.width, hw]) (by rwa [hv.fits.words]) (by decide))
  have h2 := hv.dst_lt _ (Rect.word_add_mem (b := 3) hw hg (by decide))
  omega

/-! ## Steps without faults -/

section Faults

variable {src dst : Rect} {m₀ : BaseMemory}

theorem readBurst_inRange {d : State} {tid : Nat} (hd : Shape src dst d) (hA : Addressable src dst)
    (hle : InRange src dst size) (hb : d.wordsToBuffer = d.wordsTransferred + d.bufferIndex) :
    ∀ q ∈ (readBurst d tid).payloads, q.addr.toNat + q.op.readWidth ≤ size := by
  intro q hq
  have hc := (nextChunk_le d).2
  have hw := hd.words
  unfold readBurst readRequests at hq
  simp only [List.map_map, List.mem_map, List.mem_range, Function.comp_def] at hq
  obtain ⟨i, hi, rfl⟩ := hq
  have hg : d.wordsTransferred + d.bufferIndex + i < dst.words := by omega
  simp only [hd.read_addr hA hg]
  exact (hle _ hg).1

/-- With every word in range no step faults. -/
theorem Tracks.ne_fault {s : Sys} {ph : Phase} {a : SysAct} {e : Fault} (h : Tracks src dst m₀ ph s)
    (hA : Addressable src dst) (hle : InRange src dst m₀.size) : sysStep s a ≠ .fault e := by
  unfold sysStep
  obtain hb | ⟨d, ph', hd, hm, hat⟩ := h.phase.busStep (s.busAct a)
  · simp [hb]
  suffices hf : ∃ t, follow s d = .ok t by
    obtain ⟨t, hf⟩ := hf
    simp [hd, hf]
  have hi := hm.issued
  have hwords := h.phase.words
  rw [← h.size] at hle
  generalize s.busAct a = a' at hm hi
  cases hm with
  | trySend ph req resp => exact ⟨_, follow_same (by rw [trySendPacket_eq])⟩
  | answer ph k ports hk hp => exact ⟨_, follow_same (d := answered s.dma k) rfl⟩
  | complete k ports hk hp hw => exact ⟨_, follow_same (d := transactionComplete (windowDone s.dma k)) rfl⟩
  | fill tid data ph hr hph =>
    exact ⟨_, follow_same (d := afterRead (buffered { s.dma with outReads := [] } (nextChunk s.dma)
      (answer s.dma tid data))) (by unfold afterRead; split <;> rfl)⟩
  | read ports =>
    exact follow_read_of_le hi (readBurst_inRange (h.shape.withEvents []) hA hle hwords.2.1)
  | next k ports hk hp hw =>
    have hsh := (Move.next k ports hk hp hw).shape h.shape
    refine follow_read_of_le hi (readBurst_inRange (d := { windowDone s.dma k with currentState := .reading })
      ⟨hsh.1, hsh.2, hsh.3, hsh.4, hsh.5, hsh.6, hsh.7⟩ hA hle hwords.2.1)
  | window ports =>
    obtain ⟨-, heq, hlt⟩ := hwords
    have hw := h.shape.words
    exact follow_window_of_le (h.shape.withEvents []) hA hi
      (show s.dma.wordsTransferred + s.dma.bufferIndex ≤ dst.words by omega) fun g hg => (hle g hg).2

end Faults

/-! ## The start -/

theorem starts_enable (hr : AtRest s) (ports : Nat → Port) : Starts s ports (readIssued ports (started s)) :=
  ⟨hr, 1, rfl, writeRegister_enable ports s rfl⟩

theorem sysStart_eq (ports : Nat → Port) (s : State) (m : BaseMemory) :
    sysStart ports s m = follow ⟨s, m, fun _ => m⟩ (readIssued ports (started s)) := by
  unfold sysStart
  rw [writeRegister_enable ports s rfl]
  rfl

theorem tracks_start (hr : AtRest s) {m : BaseMemory} {ports : Nat → Port} {t : Sys}
    (h : sysStart ports s m = .ok t) :
    Tracks (srcRect s) (dstRect s) m .reading t ∧ t.dma = readIssued ports (started s) := by
  rw [sysStart_eq] at h
  obtain ⟨rfl, hin⟩ := follow_read (b := readBurst (started s) s.nextTid) rfl h
  have hread : readBursts (started s) = [] := by
    show s.outReads ++ s.reqQ.filterMap Packet.readReq? = []
    simp [hr.outReads, hr.reqQ]
  have hsh := shape_started s
  refine ⟨⟨at_start (starts_enable hr ports), ⟨hsh.1, hsh.2, hsh.3, hsh.4, hsh.5, hsh.6, hsh.7⟩, rfl,
    Windows.start, fun _ _ j hj => absurd hj (Nat.not_lt_zero j), fun h => (nomatch h), fun _ tid ht => ?_⟩, rfl⟩
  exact seen_issued (s := ⟨s, m, fun _ => m⟩) hread hin tid ht

/-! ## Widths of whole words -/

/-- Every run of a transfer of whole words copies the rectangle, and no step of it faults. -/
theorem exact_of_whole (hr : AtRest s) (hv : Valid s size) (hw : (dstRect s).width % 4 = 0) (m : BaseMemory)
    (ports : Nat → Port) (as : List SysAct) (hm : m.size = size) : Copies s m ports as := by
  subst hm
  have hle := hv.inRange hw
  have hA := hv.addressable
  have hstart : ∃ t, sysStart ports s m = .ok t := by
    rw [sysStart_eq]
    exact follow_read_of_le (b := readBurst (started s) s.nextTid) rfl
      (readBurst_inRange (shape_started s) hA hle rfl)
  obtain ⟨t, ht⟩ := hstart
  unfold Copies
  rw [ht]
  refine Always.of_inv (I := fun u => ∃ ph, Tracks (srcRect s) (dstRect s) m ph u) (C := fun _ _ => True) ?_ ?_ ?_
    ⟨_, (tracks_start hr ht).1⟩ (Along.of_forall (fun _ _ => trivial) _ _)
  · rintro u ⟨ph, hu⟩ hall
    have hwin := hu.windows
    rw [hall, hu.shape.words] at hwin
    exact isCopy_of_windows hv.fits hw hwin
  · rintro u a v ⟨ph, hu⟩ - huv
    obtain ⟨ph', -, hv⟩ := hu.step hA huv
    exact ⟨ph', hv⟩
  · rintro u a e ⟨ph, hu⟩ - hf
    exact absurd hf (hu.ne_fault hA hle)

/-! ## A run that issues every word -/

/-- The next action of a run in which windows are queued whole and answered whole. -/
def nextAct (s : State) : Phase → SysAct
  | .readEvent | .writeEvent => .event 0 (fun _ => stalled)
  | .reading => if s.outReads = [] then .trySend free free else .readResp 0
  | .writing => if s.outWrites = [] then .trySend free free else .writeResp 0 (fun _ => stalled)
  | .complete => .trySend free free

/-- In a window every burst without an answer is counted, elsewhere there is none. -/
structure Polite (ph : Phase) (s : State) : Prop where
  counted : ph = .writing →
    s.pendingBusWriteResponses = (writeBursts s).length ∧ 0 < s.pendingBusWriteResponses
  settled : ph ≠ .writing → writeBursts s = []

def Phase.rank : Phase → Nat
  | writeEvent => 3
  | writing => 2
  | readEvent => 1
  | _ => 0

/-- What decreases along such a run: words to read, then phases, then hand-overs and answers. -/
def effort (ph : Phase) (s : State) : Nat × Nat × Nat :=
  (s.totalWords - s.wordsToBuffer, ph.rank, 2 * s.reqQ.length + s.outReads.length + s.outWrites.length)

def Less (p q : Nat × Nat × Nat) : Prop := Prod.Lex (· < ·) (Prod.Lex (· < ·) (· < ·)) p q

theorem less_words {p q : Nat × Nat × Nat} (h : p.1 < q.1) : Less p q := Prod.Lex.left _ _ h

theorem less_rank {a b b' c c' : Nat} (h : b < b') : Less (a, b, c) (a, b', c') :=
  Prod.Lex.right _ (Prod.Lex.left _ _ h)

theorem less_queue {a b c c' : Nat} (h : c < c') : Less (a, b, c) (a, b, c') :=
  Prod.Lex.right _ (Prod.Lex.right _ h)

theorem ofExcept_ne_blocked {ε σ : Type} (x : Except ε σ) : Outcome.ofExcept x ≠ .blocked := by
  cases x <;> simp

/-- A hand-over shortens the queue. -/
theorem effort_trySend {ph : Phase} {s : State} (hq : s.reqQ ≠ []) :
    Less (effort ph (trySendPacket free free s)) (effort ph s) := by
  obtain ⟨p, ps, hp⟩ := List.exists_cons_of_ne_nil hq
  rw [trySendPacket_eq]
  unfold effort
  apply less_queue
  simp only [hp, drain, free, Port.transfers, Bool.not_false, Bool.and_self, if_true, List.length_append,
    List.length_cons]
  cases p <;> simp [List.filterMap_cons, Packet.readReq?, Packet.writeReq?] <;> omega

theorem Polite.trySend {ph : Phase} {s : State} (h : Polite ph s) (req resp : Port) :
    Polite ph (trySendPacket req resp s) := by
  refine ⟨fun hph => ?_, fun hph => ?_⟩
  · rw [writeBursts_trySend, trySendPacket_eq]
    exact h.counted hph
  · rw [writeBursts_trySend]
    exact h.settled hph

section Advance

variable {src dst : Rect} {m₀ : BaseMemory} {ph : Phase} {s : Sys}

/-- The next action is enabled. -/
theorem nextAct_ne_blocked (h : At ph s.dma) : busStep s.dma (s.busAct (nextAct s.dma ph)) ≠ .blocked := by
  have hev := h.events
  cases ph with
  | readEvent | writeEvent =>
    simp only [nextAct, Sys.busAct, busStep, hev, Phase.events, List.getElem?_cons_zero]
    exact ofExcept_ne_blocked _
  | complete => exact fun h => by cases h
  | reading | writing =>
    simp only [nextAct]
    split
    · exact fun h => by cases h
    · next hne =>
      obtain ⟨p, ps, hp⟩ := List.exists_cons_of_ne_nil hne
      simp only [Sys.busAct, busStep, hp, List.getElem?_cons_zero]
      exact ofExcept_ne_blocked _

theorem Tracks.nextAct_enabled (h : Tracks src dst m₀ ph s) :
    sysStep s (nextAct s.dma ph) ≠ .blocked := by
  have hb := nextAct_ne_blocked h.phase
  unfold sysStep
  cases hd : busStep s.dma (s.busAct (nextAct s.dma ph)) with
  | blocked => exact absurd hd hb
  | fault e => simp
  | next d => exact ofExcept_ne_blocked _

/-- The next action brings the transfer forward. -/
theorem Polite.advance {d : State} {s : State} (hp : Polite ph s) (ha : At ph s)
    (hw : s.wordsTransferred < s.totalWords) {f : Nat → BaseMemory} {b : BaseMemory} {ph' : Phase}
    (hm : Move s ph (Sys.busAct ⟨s, b, f⟩ (nextAct s ph)) d ph') :
    Polite ph' d ∧ Less (effort ph' d) (effort ph s) := by
  cases ph with
  | complete => exact absurd ha.words.2 hw.ne
  | readEvent =>
    cases hm
    refine ⟨⟨fun h => (nomatch h), fun _ => ?_⟩, less_rank (by decide)⟩
    rw [writeBursts_readIssued]
    exact hp.settled nofun
  | writeEvent =>
    cases hm
    refine ⟨⟨fun _ => ?_, fun h => absurd rfl h⟩, less_rank (by decide)⟩
    have hpos := burstCount_pos ha.words.1.1
    have hl := length_writeBursts_windowIssued (fun _ => stalled) { s with events := [] }
    have hlen := length_accepted_add_refused (fun _ => stalled) 0 (windowBursts { s with events := [] })
    have hnil : accepted (fun _ => stalled) 0 (windowBursts { s with events := [] }) = [] :=
      (accepted_eq_nil_iff _ _ _).mpr fun _ _ => rfl
    have h0 : writeBursts { s with events := [] } = [] := hp.settled nofun
    rw [length_windowBursts, hnil] at hlen
    rw [hl, h0]
    simp only [windowIssued, List.length_nil] at hlen ⊢
    omega
  | reading =>
    simp only [nextAct] at hm
    split at hm
    · next ho =>
      cases hm
      refine ⟨hp.trySend _ _, effort_trySend fun hq => ?_⟩
      obtain ⟨tid, hr⟩ := ha.reads
      simp [readBursts, ho, hq] at hr
    · cases hm with
      | fill tid data ph hr hph =>
        have hpos := nextChunk_pos ha.words.1 ha.words.2.2
        refine ⟨⟨fun h => ?_, fun _ => ?_⟩, less_words ?_⟩
        · subst h
          simp at hph
        · have h0 := hp.settled nofun
          unfold afterRead
          split <;> exact h0
        · have := ha.words.2.2
          unfold effort afterRead
          split <;> simp only [State.schedule, buffered] <;> omega
  | writing =>
    simp only [nextAct] at hm
    obtain ⟨hcount, hpos⟩ := hp.counted rfl
    split at hm
    · next ho =>
      cases hm
      refine ⟨hp.trySend _ _, effort_trySend fun hq => ?_⟩
      simp [writeBursts, ho, hq] at hcount
      omega
    · cases hm with
      | answer ph k ports hk hne =>
        have hl := length_writeBursts_answered hk
        refine ⟨⟨fun _ => ?_, fun h => absurd rfl h⟩, less_queue ?_⟩
        · have := hne rfl
          simp only [answered] at hl ⊢
          omega
        · simp only [answered, List.length_eraseIdx_of_lt hk]
          omega
      | complete k ports hk hp' hw' => omega
      | next k ports hk hp' hw' =>
        have hl := length_writeBursts_answered hk
        refine ⟨⟨fun h => (nomatch h), fun _ => ?_⟩, less_rank (by decide)⟩
        rw [writeBursts_readIssued]
        exact List.length_eq_zero_iff.mp (show (writeBursts (answered s 0)).length = 0 by omega)

/-- If no run from `s` faults, one of them issues every word. -/
theorem Tracks.exists_issued {ph : Phase} {s : Sys} (hA : Addressable src dst) (h : Tracks src dst m₀ ph s)
    (hp : Polite ph s.dma) {P : Sys → Prop} (hall : ∀ as, Always sysStep (fun _ => True) P s as) :
    ∃ u ph', Tracks src dst m₀ ph' u ∧ u.dma.wordsTransferred = u.dma.totalWords ∧ P u := by
  by_cases hw : s.dma.wordsTransferred < s.dma.totalWords
  · cases hst : sysStep s (nextAct s.dma ph) with
    | blocked => exact absurd hst h.nextAct_enabled
    | fault e =>
      have := hall [nextAct s.dma ph]
      simp [Always, hst] at this
    | next t =>
      obtain ⟨ph', hm, ht⟩ := h.step hA hst
      obtain ⟨hpt, hlt⟩ := hp.advance h.phase hw hm
      refine exists_issued hA ht hpt fun as => ?_
      have := (hall (nextAct s.dma ph :: as)).2
      rwa [hst] at this
  · have hle := h.windows.le_total
    rw [← h.shape.words] at hle
    exact ⟨s, ph, h, by omega, hall []⟩
termination_by effort ph s.dma
decreasing_by exact hlt

end Advance

/-! ## Exactness -/

/-- **Main result.** For a destination whose rows do not overlap and rectangles apart from each other, in the
memory: every run of the transfer copies the rectangle of every memory, if and only if the width is a multiple
of 4. -/
theorem copies_iff (hr : AtRest s) (hv : Valid s size) :
    (∀ (m : BaseMemory) (ports : Nat → Port) (as : List SysAct), m.size = size → Copies s m ports as) ↔
      (cfgByte s.dmaSizeCfg 8 + 1) % 4 = 0 := by
  refine ⟨fun hall => ?_, fun hw m ports as hm => exact_of_whole hr hv hw m ports as hm⟩
  by_contra hw
  have hc := hall ⟨size, markBehind (dstRect s)⟩ (fun _ => stalled)
  unfold Copies at hc
  cases hst : sysStart (fun _ => stalled) s ⟨size, markBehind (dstRect s)⟩ with
  | error e =>
    rw [hst] at hc
    exact hc [] rfl
  | ok t =>
    rw [hst] at hc
    obtain ⟨ht, hd⟩ := tracks_start hr hst
    have hp : Polite .reading t.dma := by
      refine ⟨fun h => (nomatch h), fun _ => ?_⟩
      rw [hd, writeBursts_readIssued]
      show s.outWrites ++ s.reqQ.filterMap Packet.writeReq? = []
      simp [hr.outWrites, hr.reqQ]
    obtain ⟨u, ph, hu, htotal, hcopy⟩ := ht.exists_issued hv.addressable hp fun as => hc as rfl
    have hwin := hu.windows
    rw [htotal, hu.shape.words] at hwin
    exact not_isCopy_of_windows hv.fits hw (Nat.succ_pos _) (height_le s) hwin (hcopy htotal)

/-! ## Rows of four bytes and of one byte -/

theorem valid_oneRow {cfg : Word} (hh : cfgByte cfg 0 = 0) (hw : cfgByte cfg 8 < 16)
    (hs : cfgByte cfg 8 + 1 ≤ cfgByte cfg 16) : Valid (oneRow cfg) 128 := by
  have hsrc : ∀ x ∈ (srcRect (oneRow cfg)).bytes, x < 16 := by
    rintro x ⟨r, hr, c, hc, rfl⟩
    simp only [srcRect, hh, show (oneRow cfg).dmaSizeCfg = cfg from rfl] at hr hc
    obtain rfl : r = 0 := by omega
    have h0 : (srcRect (oneRow cfg)).base = 0 := rfl
    rw [Rect.cell, h0]
    omega
  have hdst : ∀ x ∈ (dstRect (oneRow cfg)).bytes, 64 ≤ x ∧ x < 80 := by
    rintro x ⟨r, hr, c, hc, rfl⟩
    simp only [dstRect, hh, show (oneRow cfg).dmaSizeCfg = cfg from rfl] at hr hc
    obtain rfl : r = 0 := by omega
    have h0 : (dstRect (oneRow cfg)).base = 64 := rfl
    rw [Rect.cell, h0]
    omega
  refine ⟨⟨rfl, rfl, hs, Set.disjoint_left.mpr fun x h1 h2 => ?_⟩, fun x hx => ?_, fun x hx => ?_⟩
  · have := hsrc x h1
    have := hdst x h2
    omega
  · have := hsrc x hx
    omega
  · have := hdst x hx
    omega

theorem copies_iff_fourBytes : (∀ (m : BaseMemory) (ports : Nat → Port) (as : List SysAct), m.size = 128 →
    Copies (oneRow 0x04040300) m ports as) ↔ (cfgByte 0x04040300 8 + 1) % 4 = 0 :=
  copies_iff ⟨rfl, rfl, rfl, rfl⟩ (valid_oneRow (by decide) (by decide) (by decide))

/-- A memory of 128 bytes with a 1 at address 65. -/
def oneAt65 : BaseMemory := ⟨128, fun x => if x = 65 then 1 else 0⟩

/-- One byte is copied to address 64 as a word, over the byte behind it. -/
theorem copies_oneByte : ¬ ∀ (s : State) (size : Nat), AtRest s → Valid s size →
    ∀ (m : BaseMemory) (ports : Nat → Port) (as : List SysAct), m.size = size → Copies s m ports as := by
  intro h
  have hc := h (oneRow 0x01010000) 128 ⟨rfl, rfl, rfl, rfl⟩ (valid_oneRow (by decide) (by decide) (by decide))
    oneAt65 (fun _ => free) [.readResp 0, .event 0 fun _ => stalled] rfl
  have h65 := (hc.2.2 rfl).2 65 (by
    rintro ⟨r, hr, c, hc, he⟩
    have hr : r < 1 := hr
    have hc : c < 1 := hc
    obtain rfl : r = 0 := by omega
    obtain rfl : c = 0 := by omega
    exact absurd he (by decide))
  exact absurd h65 (by decide +kernel)

end SocModel.Dma
