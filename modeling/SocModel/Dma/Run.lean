import SocModel.Dma.Window

/-!
# The phases of a DMA transfer

Between two actions a transfer is in one of five phases: a call that reads is scheduled, a read burst is under
way, a call that writes is scheduled, the write bursts of a window are under way, or it is complete.

* `At ph s` : what holds of a state in phase `ph`, whatever was accepted and answered so far;
* `Move s ph a t ph'` : what an action does in phase `ph`; `At.move` : every step is a move and stays in `At`;
* `At.ne_fault` : no step faults, `at_start` : the write of ENABLE starts in `At`.
-/

namespace SocModel

namespace Bus

def Packet.readReq? : Packet → Option (Burst ReadReq)
  | .readReq p => some p
  | _ => none

def Packet.writeReq? : Packet → Option (Burst WriteReq)
  | .writeReq p => some p
  | _ => none

end Bus

namespace Dma

open Lib Bus

/-! ## Bursts without an answer -/

/-- The read bursts that are not answered: on the bus, then queued. -/
def readBursts (s : State) : List (Burst ReadReq) := s.outReads ++ s.reqQ.filterMap Packet.readReq?

/-- The write bursts that are not answered. -/
def writeBursts (s : State) : List (Burst WriteReq) := s.outWrites ++ s.reqQ.filterMap Packet.writeReq?

theorem trySendPacket_eq (req resp : Port) (s : State) :
    trySendPacket req resp s = { s with
      reqQ := (drain req s.reqQ).1
      outReads := s.outReads ++ (drain req s.reqQ).2.filterMap Packet.readReq?
      outWrites := s.outWrites ++ (drain req s.reqQ).2.filterMap Packet.writeReq?
      sentReqs := s.sentReqs ++ (drain req s.reqQ).2
      respQ := (drain resp s.respQ).1
      sentResps := s.sentResps ++ (drain resp s.respQ).2 } := by
  have hf (ps : List Packet) (s : State) : ps.foldl State.handOver s = { s with
      outReads := s.outReads ++ ps.filterMap Packet.readReq?
      outWrites := s.outWrites ++ ps.filterMap Packet.writeReq? } := by
    induction ps generalizing s with
    | nil => simp
    | cons p ps ih =>
      rw [List.foldl_cons, ih]
      cases p <;> simp [State.handOver, List.filterMap_cons, Packet.readReq?, Packet.writeReq?]
  unfold trySendPacket
  simp only [hf]

theorem readBursts_trySend (req resp : Port) (s : State) :
    readBursts (trySendPacket req resp s) = readBursts s := by
  rw [trySendPacket_eq]
  simp only [readBursts, List.append_assoc, ← List.filterMap_append, drain_append]

theorem writeBursts_trySend (req resp : Port) (s : State) :
    writeBursts (trySendPacket req resp s) = writeBursts s := by
  rw [trySendPacket_eq]
  simp only [writeBursts, List.append_assoc, ← List.filterMap_append, drain_append]

theorem readBursts_readIssued (ports : Nat → Port) {s : State} (h : readBursts s = []) :
    readBursts (readIssued ports s) = [readBurst s s.nextTid] := by
  unfold readBursts at *
  simp only [List.append_eq_nil_iff] at h
  unfold readIssued
  cases (ports 0).transfers <;> simp [h, Packet.readReq?]

theorem writeBursts_readIssued (ports : Nat → Port) (s : State) :
    writeBursts (readIssued ports s) = writeBursts s := by
  unfold writeBursts readIssued
  cases (ports 0).transfers <;> simp [Packet.writeReq?]

theorem readBursts_windowIssued (ports : Nat → Port) (s : State) :
    readBursts (windowIssued ports s) = readBursts s := by
  unfold readBursts windowIssued
  simp [List.filterMap_append, List.filterMap_map, Function.comp_def, Packet.readReq?]

/-- The bursts of a window join those without an answer. -/
theorem length_writeBursts_windowIssued (ports : Nat → Port) (s : State) :
    (writeBursts (windowIssued ports s)).length = (writeBursts s).length + burstCount s.bufferIndex := by
  have h := length_accepted_add_refused ports 0 (windowBursts s)
  rw [length_windowBursts] at h
  unfold writeBursts windowIssued
  simp only [List.filterMap_append, List.filterMap_map, Function.comp_def, Packet.writeReq?, List.filterMap_some,
    List.length_append]
  omega

/-! ## Phases -/

inductive Phase where
  | readEvent | reading | writeEvent | writing | complete
  deriving DecidableEq, Repr

namespace Phase

def events : Phase → List Event
  | readEvent => [.reads]
  | writeEvent => [.writes]
  | _ => []

/-- The read bursts without an answer. -/
def Reads (s : State) : Phase → Prop
  | reading => ∃ tid, readBursts s = [readBurst s tid]
  | _ => readBursts s = []

/-- The words read, buffered and issued for writing. -/
def Words (s : State) : Phase → Prop
  | readEvent | reading => s.bufferIndex < BUFFER_CAPACITY ∧
      s.wordsToBuffer = s.wordsTransferred + s.bufferIndex ∧ s.wordsToBuffer < s.totalWords
  | writeEvent => (0 < s.bufferIndex ∧ s.bufferIndex ≤ BUFFER_CAPACITY) ∧
      s.wordsToBuffer = s.wordsTransferred + s.bufferIndex ∧ s.wordsToBuffer ≤ s.totalWords
  | writing => (0 < s.bufferIndex ∧ s.bufferIndex ≤ BUFFER_CAPACITY) ∧
      s.wordsToBuffer = s.wordsTransferred ∧ s.wordsToBuffer ≤ s.totalWords
  | complete => s.wordsToBuffer = s.wordsTransferred ∧ s.wordsTransferred = s.totalWords

/-- The counter against the write bursts without an answer: in a window it counts some of them, later the rest
of the answers drive it below zero. -/
def Answers (s : State) : Phase → Prop
  | writing => s.pendingBusWriteResponses ≤ (writeBursts s).length
  | _ => writeBursts s = [] ∨ s.pendingBusWriteResponses ≤ 0

end Phase

/-- What holds of a transfer in a phase. -/
structure At (ph : Phase) (s : State) : Prop where
  enabled : s.enabled = decide (ph ≠ .complete)
  done : s.done = decide (ph = .complete)
  events : s.events = ph.events
  reads : ph.Reads s
  words : ph.Words s
  answers : ph.Answers s

theorem At.index_le {ph : Phase} {s : State} (h : At ph s) (hc : ph ≠ .complete) :
    s.bufferIndex ≤ BUFFER_CAPACITY := by
  have hw := h.words
  cases ph <;> simp only [Phase.Words, ne_eq, not_true] at hw hc <;> omega

/-! ## Moves -/

/-- A write burst is answered. -/
def answered (s : State) (k : Nat) : State :=
  { s with
    outWrites := s.outWrites.eraseIdx k
    pendingBusWriteResponses := s.pendingBusWriteResponses - 1 }

/-- The answer that ends a window. -/
def windowDone (s : State) (k : Nat) : State :=
  { answered s k with
    bufferMemory := clearBuffer s.bufferMemory s.bufferIndex
    bufferIndex := 0 }

/-- What an action does to a transfer, from phase to phase. -/
inductive Move (s : State) : Phase → BusAct → State → Phase → Prop
  | trySend (ph : Phase) (req resp : Port) :
    Move s ph (.trySend req resp) (trySendPacket req resp s) ph
  | read (ports : Nat → Port) :
    Move s .readEvent (.event 0 ports) (readIssued ports { s with events := [] }) .reading
  | fill (tid : Nat) (data : ReadReq → Word) (ph : Phase) (hr : s.outReads = [readBurst s tid])
    (hph : ph = .readEvent ∨ ph = .writeEvent) :
    Move s .reading (.readResp 0 data)
      (afterRead (buffered { s with outReads := [] } (nextChunk s) (answer s tid data))) ph
  | window (ports : Nat → Port) :
    Move s .writeEvent (.event 0 ports) (windowIssued ports { s with events := [] }) .writing
  | answer (ph : Phase) (k : Nat) (ports : Nat → Port) (hk : k < s.outWrites.length)
    (hp : ph = .writing → s.pendingBusWriteResponses ≠ 1) :
    Move s ph (.writeResp k ports) (answered s k) ph
  | complete (k : Nat) (ports : Nat → Port) (hk : k < s.outWrites.length)
    (hp : s.pendingBusWriteResponses = 1) (hw : s.totalWords ≤ s.wordsTransferred) :
    Move s .writing (.writeResp k ports) (transactionComplete (windowDone s k)) .complete
  | next (k : Nat) (ports : Nat → Port) (hk : k < s.outWrites.length)
    (hp : s.pendingBusWriteResponses = 1) (hw : s.wordsTransferred < s.totalWords) :
    Move s .writing (.writeResp k ports)
      (readIssued ports { windowDone s k with currentState := .reading }) .reading

theorem length_writeBursts_answered {s : State} {k : Nat} (hk : k < s.outWrites.length) :
    (writeBursts (answered s k)).length + 1 = (writeBursts s).length := by
  unfold writeBursts answered
  simp only [List.length_append, List.length_eraseIdx_of_lt hk]
  omega

theorem writeBursts_ne_nil {s : State} {k : Nat} (hk : k < s.outWrites.length) : writeBursts s ≠ [] := by
  intro h
  simp only [writeBursts, List.append_eq_nil_iff] at h
  simp [h.1] at hk

section Steps

variable {s : State} {ph : Phase}

theorem At.trySend (h : At ph s) (req resp : Port) : At ph (trySendPacket req resp s) := by
  have hr := readBursts_trySend req resp s
  have hw := writeBursts_trySend req resp s
  have hb (tid : Nat) : readBurst (trySendPacket req resp s) tid = readBurst s tid := by
    rw [trySendPacket_eq]
    rfl
  refine ⟨?_, ?_, ?_, ?_, ?_, ?_⟩
  · rw [trySendPacket_eq]
    exact h.enabled
  · rw [trySendPacket_eq]
    exact h.done
  · rw [trySendPacket_eq]
    exact h.events
  · have := h.reads
    cases ph <;> simp only [Phase.Reads, hr, hb] at this ⊢ <;> exact this
  · have := h.words
    rw [trySendPacket_eq]
    cases ph <;> exact this
  · have := h.answers
    have hp : (trySendPacket req resp s).pendingBusWriteResponses = s.pendingBusWriteResponses := by
      rw [trySendPacket_eq]
    cases ph <;> simp only [Phase.Answers, hw, hp] at this ⊢ <;> exact this

/-- A read burst is issued where there is room in the buffer and a word to read. -/
theorem at_readIssued (ports : Nat → Port) (he : s.enabled = true) (hd : s.done = false) (hev : s.events = [])
    (hr : readBursts s = []) (hw : Phase.Words s .reading)
    (ha : writeBursts s = [] ∨ s.pendingBusWriteResponses ≤ 0) : At .reading (readIssued ports s) where
  enabled := he
  done := hd
  events := hev
  reads := ⟨s.nextTid, readBursts_readIssued ports hr⟩
  words := hw
  answers := by
    unfold Phase.Answers
    rw [writeBursts_readIssued]
    exact ha

theorem At.fill (h : At .reading s) {tid : Nat} (hr : s.outReads = [readBurst s tid]) (f : Nat → Word) :
    ∃ ph, (ph = .readEvent ∨ ph = .writeEvent) ∧
      At ph (afterRead (buffered { s with outReads := [] } (nextChunk s) f)) := by
  obtain ⟨hb, hw, ht⟩ := h.words
  obtain ⟨hcb, hct⟩ := nextChunk_le s
  have hpos := nextChunk_pos hb ht
  have hq : s.reqQ.filterMap Packet.readReq? = [] := by
    obtain ⟨tid', hr'⟩ := h.reads
    simpa [readBursts, hr] using (congrArg List.tail hr')
  have ha := h.answers
  unfold afterRead
  split
  · next hc =>
    refine ⟨.readEvent, .inl rfl, h.enabled, h.done, ?_, hq, ⟨hc.1, ?_, hc.2⟩, ha⟩
    · simp [State.schedule, buffered, h.events, Phase.events]
    · simp only [State.schedule, buffered]
      omega
  · refine ⟨.writeEvent, .inr rfl, h.enabled, h.done, ?_, hq, ⟨⟨?_, ?_⟩, ?_, ?_⟩, ha⟩
    · simp [State.schedule, buffered, h.events, Phase.events]
    all_goals simp only [State.schedule, buffered]
    all_goals omega

theorem At.window (h : At .writeEvent s) (ports : Nat → Port) :
    At .writing (windowIssued ports { s with events := [] }) where
  enabled := h.enabled
  done := h.done
  events := rfl
  reads := (readBursts_windowIssued ports _).trans h.reads
  words := by
    obtain ⟨hb, hw, ht⟩ := h.words
    exact ⟨hb, hw, ht⟩
  answers := by
    have hl := length_writeBursts_windowIssued ports { s with events := [] }
    have hr := length_accepted_add_refused ports 0 (windowBursts { s with events := [] })
    rw [length_windowBursts] at hr
    simp only [Phase.Answers, hl]
    simp only [windowIssued] at hr ⊢
    omega

theorem At.answered (h : At ph s) {k : Nat} (hk : k < s.outWrites.length) : At ph (answered s k) where
  enabled := h.enabled
  done := h.done
  events := h.events
  reads := by
    have := h.reads
    cases ph <;> exact this
  words := by
    have := h.words
    cases ph <;> exact this
  answers := by
    have ha := h.answers
    have hl := length_writeBursts_answered hk
    have hn := writeBursts_ne_nil hk
    cases ph <;> simp only [Phase.Answers, hn, false_or] at ha ⊢ <;> simp only [Dma.answered] at hl ⊢ <;> omega

/-- The answer that ends a window drives the counter to zero. -/
theorem windowDone_pending (k : Nat) (hp : s.pendingBusWriteResponses = 1) :
    (windowDone s k).pendingBusWriteResponses = 0 := by
  simp [windowDone, Dma.answered, hp]

theorem At.complete (h : At .writing s) {k : Nat} (hp : s.pendingBusWriteResponses = 1)
    (hw : s.totalWords ≤ s.wordsTransferred) : At .complete (transactionComplete (windowDone s k)) where
  enabled := rfl
  done := rfl
  events := h.events
  reads := h.reads
  words := by
    obtain ⟨-, hb, ht⟩ := h.words
    exact ⟨hb, by simp only [transactionComplete, windowDone, Dma.answered]; omega⟩
  answers := .inr (windowDone_pending k hp).le

theorem At.next (h : At .writing s) {k : Nat} (ports : Nat → Port) (hp : s.pendingBusWriteResponses = 1)
    (hw : s.wordsTransferred < s.totalWords) :
    At .reading (readIssued ports { windowDone s k with currentState := .reading }) := by
  obtain ⟨-, hb, -⟩ := h.words
  refine at_readIssued ports h.enabled h.done h.events h.reads ⟨?_, ?_, ?_⟩ (.inr (windowDone_pending k hp).le)
  · exact Nat.succ_pos _
  · simp only [windowDone, Dma.answered]
    omega
  · simp only [windowDone, Dma.answered]
    omega

end Steps

/-! ## The calls in closed form -/

theorem busStep_event {s : State} {k : Nat} {e : Event} (ports : Nat → Port) (h : s.events[k]? = some e) :
    busStep s (.event k ports) = .ofExcept (runEvent ports { s with events := s.events.eraseIdx k } e) := by
  unfold busStep
  simp only [h]

theorem busStep_reads {s : State} (ports : Nat → Port) (he : s.events = [.reads])
    (hb : s.bufferIndex < BUFFER_CAPACITY) (hw : s.wordsToBuffer < s.totalWords) :
    busStep s (.event 0 ports) = .next (readIssued ports { s with events := [] }) := by
  rw [busStep_event ports (e := .reads) (by rw [he]; rfl), he, List.eraseIdx_cons_zero, runEvent,
    scheduleReadsForBuffer_of_lt ports (by exact hb) (by exact hw)]
  rfl

theorem busStep_writes {s : State} (ports : Nat → Port) (he : s.events = [.writes]) (hpos : 0 < s.bufferIndex)
    (hb : s.bufferIndex ≤ BUFFER_CAPACITY) :
    busStep s (.event 0 ports) = .next (windowIssued ports { s with events := [] }) := by
  rw [busStep_event ports (e := .writes) (by rw [he]; rfl), he, List.eraseIdx_cons_zero, runEvent,
    scheduleWritesFromBuffer, if_neg (by exact hpos.ne'), issueWindow_eq ports (by exact hb)]
  rfl

theorem busStep_event_none {s : State} {k : Nat} (ports : Nat → Port) (he : s.events[k]? = none) :
    busStep s (.event k ports) = .blocked := by
  unfold busStep
  simp only [he]

theorem busStep_readResp {s : State} {k : Nat} {p : Burst ReadReq} (data : ReadReq → Word)
    (h : s.outReads[k]? = some p) : busStep s (.readResp k data) =
      .ofExcept (handleReadResponse (respondTo p data) { s with outReads := s.outReads.eraseIdx k }) := by
  unfold busStep
  simp only [h]

theorem busStep_writeResp {s : State} {k : Nat} (ports : Nat → Port) (hk : k < s.outWrites.length) :
    busStep s (.writeResp k ports) =
      .ofExcept (handleWriteCompletion ports { s with outWrites := s.outWrites.eraseIdx k }) := by
  unfold busStep
  simp only [List.getElem?_eq_getElem hk]

theorem busStep_answer {s : State} {k : Nat} (ports : Nat → Port) (hk : k < s.outWrites.length)
    (hp : s.pendingBusWriteResponses ≠ 1) : busStep s (.writeResp k ports) = .next (answered s k) := by
  rw [busStep_writeResp ports hk]
  unfold handleWriteCompletion
  rw [if_neg (by simp only; omega)]
  rfl

theorem busStep_complete {s : State} {k : Nat} (ports : Nat → Port) (hk : k < s.outWrites.length)
    (hp : s.pendingBusWriteResponses = 1) (hw : s.totalWords ≤ s.wordsTransferred) :
    busStep s (.writeResp k ports) = .next (transactionComplete (windowDone s k)) := by
  rw [busStep_writeResp ports hk]
  unfold handleWriteCompletion
  rw [if_pos (by simp only; omega), if_pos (by exact hw)]
  rfl

theorem busStep_next {s : State} {k : Nat} (ports : Nat → Port) (hk : k < s.outWrites.length)
    (hp : s.pendingBusWriteResponses = 1) (hw : s.wordsTransferred < s.totalWords)
    (hb : s.wordsToBuffer = s.wordsTransferred) : busStep s (.writeResp k ports) =
      .next (readIssued ports { windowDone s k with currentState := .reading }) := by
  have hf := scheduleReadsForBuffer_of_lt ports (s := { windowDone s k with currentState := .reading })
    (by exact Nat.succ_pos _) (by simp only [windowDone, answered]; omega)
  rw [busStep_writeResp ports hk]
  unfold handleWriteCompletion
  rw [if_pos (by simp only; omega), if_neg (by simp only; omega)]
  exact congrArg Outcome.ofExcept hf

/-- At most one call is scheduled. -/
theorem getElem?_events_pos {ph : Phase} {s : State} {k : Nat} (h : At ph s) (hk : 0 < k) :
    s.events[k]? = none := by
  rw [h.events]
  refine List.getElem?_eq_none ?_
  cases ph <;> simp only [Phase.events, List.length_cons, List.length_nil] <;> omega

/-- Only in a window can the counter of the write answers be positive while one is outstanding. -/
theorem At.eq_writing {ph : Phase} {s : State} {k : Nat} (h : At ph s) (hk : k < s.outWrites.length)
    (hp : s.pendingBusWriteResponses = 1) : ph = .writing := by
  have ha := h.answers
  cases ph <;> simp only [Phase.Answers, writeBursts_ne_nil hk, false_or] at ha <;> first | rfl | omega

/-- **One step of a transfer.** In a phase, every action that is enabled is a move to a phase. -/
theorem At.busStep {ph : Phase} {s : State} (h : At ph s) (a : BusAct) :
    busStep s a = .blocked ∨ ∃ t ph', busStep s a = .next t ∧ Move s ph a t ph' ∧ At ph' t := by
  cases a with
  | trySend req resp => exact .inr ⟨_, ph, rfl, .trySend ph req resp, h.trySend req resp⟩
  | event k ports =>
    have he := h.events
    have hw := h.words
    rcases Nat.eq_zero_or_pos k with rfl | hk
    · cases ph with
      | readEvent =>
        obtain ⟨hb, heq, ht⟩ := hw
        exact .inr ⟨_, _, busStep_reads ports he hb ht, .read ports,
          at_readIssued ports h.enabled h.done rfl h.reads ⟨hb, heq, ht⟩ h.answers⟩
      | writeEvent =>
        obtain ⟨⟨hpos, hb⟩, -⟩ := hw
        exact .inr ⟨_, _, busStep_writes ports he hpos hb, .window ports, h.window ports⟩
      | _ => exact .inl (busStep_event_none ports (by rw [he]; rfl))
    · exact .inl (busStep_event_none ports (getElem?_events_pos h hk))
  | readResp k data =>
    cases ho : s.outReads with
    | nil =>
      unfold Dma.busStep
      simp [ho]
    | cons p ps =>
      cases ph <;> have hr := h.reads <;> simp only [Phase.Reads, readBursts, ho, List.cons_append, reduceCtorEq] at hr
      obtain ⟨tid, hr⟩ := hr
      obtain ⟨rfl, hps⟩ := List.cons.inj hr
      obtain ⟨rfl, hq⟩ := List.append_eq_nil_iff.mp hps
      rcases Nat.eq_zero_or_pos k with rfl | hk
      · obtain ⟨hb, heq, ht⟩ := h.words
        have hf := handleReadResponse_readBurst tid data (s := { s with outReads := [] }) (by exact hb.le)
          (by exact ht.le)
        obtain ⟨ph, hph, ha⟩ := h.fill ho (answer s tid data)
        refine .inr ⟨_, ph, ?_, .fill tid data ph ho hph, ha⟩
        rw [busStep_readResp data (p := readBurst s tid) (by rw [ho]; rfl), ho, List.eraseIdx_cons_zero]
        exact congrArg Outcome.ofExcept hf
      · obtain ⟨j, rfl⟩ : ∃ j, k = j + 1 := ⟨k - 1, by omega⟩
        unfold Dma.busStep
        simp [ho]
  | writeResp k ports =>
    rcases Nat.lt_or_ge k s.outWrites.length with hk | hk
    · by_cases hp : s.pendingBusWriteResponses = 1
      · obtain rfl := h.eq_writing hk hp
        by_cases hw : s.totalWords ≤ s.wordsTransferred
        · exact .inr ⟨_, _, busStep_complete ports hk hp hw, .complete k ports hk hp hw, h.complete hp hw⟩
        · have hw' : s.wordsTransferred < s.totalWords := by omega
          exact .inr ⟨_, _, busStep_next ports hk hp hw' h.words.2.1, .next k ports hk hp hw', h.next ports hp hw'⟩
      · exact .inr ⟨_, _, busStep_answer ports hk hp, .answer ph k ports hk fun _ => hp, h.answered hk⟩
    · unfold Dma.busStep
      simp [List.getElem?_eq_none hk]

theorem At.move {ph : Phase} {s t : State} {a : BusAct} (h : At ph s) (hs : Dma.busStep s a = .next t) :
    ∃ ph', Move s ph a t ph' ∧ At ph' t := by
  obtain hb | ⟨t', ph', ht, hm, ha⟩ := h.busStep a
  · rw [hb] at hs
    cases hs
  · obtain rfl : t' = t := by rw [ht] at hs; exact Outcome.next.inj hs
    exact ⟨ph', hm, ha⟩

theorem At.ne_fault {ph : Phase} {s : State} {a : BusAct} {e : Fault} (h : At ph s) :
    Dma.busStep s a ≠ .fault e := by
  obtain hb | ⟨t, ph', ht, -⟩ := h.busStep a
  · simp [hb]
  · simp [ht]

/-! ## The start of a transfer -/

/-- No transfer is under way: nothing is queued for the bus, scheduled or without an answer. -/
structure AtRest (s : State) : Prop where
  reqQ : s.reqQ = []
  events : s.events = []
  outReads : s.outReads = []
  outWrites : s.outWrites = []

/-- The state after `initializedTransaction` decoded its registers. -/
def started (s : State) : State :=
  { decode { s with enabled := true, done := false } with currentState := .reading }

theorem started_totalWords_pos (s : State) : 0 < (started s).totalWords := by
  simp only [started, decode]
  refine Nat.mul_pos ?_ (Nat.succ_pos _)
  split <;> omega

theorem writeRegister_enable (ports : Nat → Port) (s : State) {data : Word} (hd : data.getLsbD 0 = true) :
    writeRegister ports s 0x0 data = .ok (readIssued ports (started s)) := by
  have h : writeRegister ports s 0x0 data = scheduleReadsForBuffer ports (started s) := by
    simp [writeRegister, hd, initializedTransaction, startTransfer, started, decode]
  rw [h]
  exact scheduleReadsForBuffer_of_lt ports (Nat.succ_pos _) (started_totalWords_pos s)

/-- `t` is the state after a write of ENABLE that finds the module at rest. -/
def Starts (s : State) (ports : Nat → Port) (t : State) : Prop :=
  AtRest s ∧ ∃ data : Word, data.getLsbD 0 = true ∧ writeRegister ports s 0x0 data = .ok t

theorem Starts.eq {s t : State} {ports : Nat → Port} (h : Starts s ports t) :
    t = readIssued ports (started s) := by
  obtain ⟨-, data, hd, ht⟩ := h
  rw [writeRegister_enable ports s hd] at ht
  exact (Except.ok.inj ht).symm

theorem at_start {s t : State} {ports : Nat → Port} (hs : Starts s ports t) : At .reading t := by
  obtain rfl := hs.eq
  have h := hs.1
  refine at_readIssued ports rfl rfl h.events ?_ ⟨Nat.succ_pos _, rfl, started_totalWords_pos s⟩ (.inl ?_)
  · show s.outReads ++ s.reqQ.filterMap Packet.readReq? = []
    simp [h.outReads, h.reqQ]
  · show s.outWrites ++ s.reqQ.filterMap Packet.writeReq? = []
    simp [h.outWrites, h.reqQ]

end Dma

end SocModel
