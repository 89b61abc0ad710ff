import SocModel.Dma.Isolation

/-!
# The word stream of a DMA transfer

The read side numbers a word by `wordsTransferred + bufferIndex`, the write side by `wordsTransferred` and its place
in the buffer. Beside a memory that does not change, the two number the same words: what is written is the
sequence of the words read, in order and each once, whatever the registers accept and whenever the bus answers.

* `Streaming mem r ph s` : the buffer holds the words behind those issued for writing, which are the first ones;
* `Streaming.move` : every move keeps it, `Streamed` : what it says of a state and of what can happen next;
* `streamed_of_undisturbed` : all of this in every state a transfer reaches without a write of its registers.
-/

namespace SocModel.Dma

open Lib Bus

/-! ## The beats of the write bursts -/

/-- What a write beat asks for. -/
def beat (q : WriteReq) : InstrType × Word × Word := (q.op, q.addr, q.data)

def packetBeats (p : Packet) : List (InstrType × Word × Word) :=
  (p.writeReq?.map fun b => b.payloads.map beat).getD []

/-- The write beats of the bursts from `first` on. -/
def beatsFrom (first : Nat) (s : State) : List (InstrType × Word × Word) := (s.issued.drop first).flatMap packetBeats

/-- The write of word `g`, as the memory `mem` has it. -/
def Transfer.beat (r : Transfer) (mem : Word → Word) (g : Nat) : InstrType × Word × Word :=
  (.SW, r.writeAddr g, mem (r.readAddr g))

theorem packetBeats_readReq (b : Burst ReadReq) : packetBeats (.readReq b) = [] := rfl

theorem beatsFrom_append {first : Nat} {s t : State} {ps : List Packet} (hi : t.issued = s.issued ++ ps)
    (hf : first ≤ s.issued.length) : beatsFrom first t = beatsFrom first s ++ ps.flatMap packetBeats := by
  unfold beatsFrom
  rw [hi, List.drop_append_of_le_length hf, List.flatMap_append]

theorem flatMap_packetBeats_burstsOf (d : State) (offset tid : Nat) (ns : List Nat) :
    ((burstsOf d offset tid ns).map Packet.writeReq).flatMap packetBeats =
      (List.range' offset ns.sum).map fun j =>
        (.SW, wordAddr d.dstAddr d.wordsPerRow d.destStride (d.wordsTransferred + j), d.bufferMemory j) := by
  induction ns generalizing offset tid with
  | nil => rfl
  | cons n ns ih =>
    rw [burstsOf, List.map_cons, List.flatMap_cons, ih, List.sum_cons, ← List.range'_append_1, List.map_append]
    congr 1
    simp [packetBeats, Packet.writeReq?, writeBurst, writeBeat, Dma.beat, Function.comp_def]

/-- The write bursts of a buffer carry its words one after another. -/
theorem flatMap_packetBeats_windowBursts (d : State) :
    ((windowBursts d).map Packet.writeReq).flatMap packetBeats = (List.range d.bufferIndex).map fun j =>
      (.SW, wordAddr d.dstAddr d.wordsPerRow d.destStride (d.wordsTransferred + j), d.bufferMemory j) := by
  rw [windowBursts, flatMap_packetBeats_burstsOf, sum_chunkSizes, ← List.range_eq_range']

theorem Programmed.packetBeats {r : Transfer} {s : State} (h : Programmed r s) :
    ((windowBursts s).map Packet.writeReq).flatMap packetBeats =
      (List.range s.bufferIndex).map fun j => (.SW, r.writeAddr (s.wordsTransferred + j), s.bufferMemory j) := by
  rw [flatMap_packetBeats_windowBursts, h.dst, h.row, h.destStride]
  rfl

/-! ## The beats of a read burst -/

/-- Beat `i` of the next read burst. -/
def readBeat (s : State) (tid i : Nat) : ReadReq :=
  { caller := .dma
    tid
    instr := {}
    op := .LW
    addr := wordAddr s.srcAddr s.wordsPerRow s.sourceStride (s.wordsTransferred + s.bufferIndex + i)
    a1 := { imm := BitVec.ofNat 32 (s.bufferIndex + i) } }

theorem readBurst_payloads (s : State) (tid : Nat) :
    (readBurst s tid).payloads = (List.range (nextChunk s)).map (readBeat s tid) := by
  simp [readBurst, readRequests, readBeat, Function.comp_def]

theorem answer_eq_readBeat (s : State) (tid : Nat) (data : ReadReq → Word) (i : Nat) :
    answer s tid data i = data (readBeat s tid i) := rfl

/-- The index a beat carries is its own place in the buffer. -/
theorem readBeat_index {s : State} (tid : Nat) {i : Nat} (hi : s.bufferIndex + i < BUFFER_CAPACITY) :
    (readBeat s tid i).a1.imm.toNat = s.bufferIndex + i := by
  unfold BUFFER_CAPACITY at hi
  simp only [readBeat, BitVec.toNat_ofNat]
  exact Nat.mod_eq_of_lt (by omega)

theorem Programmed.readBeat_addr {r : Transfer} {s : State} (h : Programmed r s) (tid i : Nat) :
    (readBeat s tid i).addr = r.readAddr (s.wordsTransferred + s.bufferIndex + i) := by
  simp only [readBeat, h.src, h.row, h.sourceStride]
  rfl

/-! ## The invariant -/

def Phase.current : Phase → DmaState
  | readEvent | reading => .reading
  | writeEvent | writing => .writing
  | complete => .idle

/-- The phases in which the buffer holds words that are not issued for writing. -/
def Phase.Fills : Phase → Prop
  | readEvent | reading | writeEvent => True
  | writing | complete => False

/-- The transfer `r` beside the memory `mem`. -/
structure Streaming (mem : Word → Word) (r : Transfer) (ph : Phase) (s : State) : Prop where
  phase : At ph s
  programmed : Programmed r s
  current : s.currentState = ph.current
  first : r.first ≤ s.issued.length
  buffer : ph.Fills → ∀ j < s.bufferIndex, s.bufferMemory j = mem (r.readAddr (s.wordsTransferred + j))
  empty : ph = .complete → s.bufferIndex = 0
  written : beatsFrom r.first s = (List.range s.wordsTransferred).map (r.beat mem)

/-- The answer to a read burst is what the memory holds, and no register is written. -/
def Undisturbed (mem : Word → Word) (s : State) : Act → Prop
  | .bus (.readResp k data) => ∀ b, s.outReads[k]? = some b → ∀ q ∈ b.payloads, data q = mem q.addr
  | .bus _ => True
  | .readMmio _ _ => True
  | .writeMmio _ _ _ => False

section Moves

variable {mem : Word → Word} {r : Transfer} {ph ph' : Phase} {s t : State}

/-- A read burst is issued: the words written and those buffered are as before. -/
theorem Streaming.readIssued (ports : Nat → Port) (hat : At .reading (readIssued ports s)) (hp : Programmed r s)
    (hc : s.currentState = .reading) (hf : r.first ≤ s.issued.length)
    (hb : ∀ j < s.bufferIndex, s.bufferMemory j = mem (r.readAddr (s.wordsTransferred + j)))
    (hw : beatsFrom r.first s = (List.range s.wordsTransferred).map (r.beat mem)) :
    Streaming mem r .reading (readIssued ports s) where
  phase := hat
  programmed := ⟨hp.src, hp.dst, hp.row, hp.sourceStride, hp.destStride, hp.words⟩
  current := hc
  first := by
    rw [readIssued_issued, List.length_append]
    omega
  buffer _ := hb
  empty hph := by cases hph
  written := by
    rw [beatsFrom_append (readIssued_issued ports s) hf, List.flatMap_singleton, packetBeats_readReq, List.append_nil]
    exact hw

/-- The words of an answer go behind those the buffer holds. -/
theorem Streaming.fill (h : Streaming mem r .reading s) (tid : Nat) {data : ReadReq → Word}
    (hd : ∀ q ∈ (readBurst s tid).payloads, data q = mem q.addr) {j : Nat} (hj : j < s.bufferIndex + nextChunk s) :
    fillBuffer s (nextChunk s) (answer s tid data) j = mem (r.readAddr (s.wordsTransferred + j)) := by
  unfold fillBuffer
  split
  · next hin =>
    have hmem : readBeat s tid (j - s.bufferIndex) ∈ (readBurst s tid).payloads := by
      rw [readBurst_payloads]
      exact List.mem_map_of_mem (List.mem_range.mpr (by omega))
    rw [answer_eq_readBeat, hd _ hmem, h.programmed.readBeat_addr]
    rw [show s.wordsTransferred + s.bufferIndex + (j - s.bufferIndex) = s.wordsTransferred + j by omega]
  · next hout =>
    apply h.buffer trivial
    omega

/-- The beats of a window are the words the buffer holds. -/
theorem Streaming.window_beats (h : Streaming mem r .writeEvent s) :
    ((windowBursts { s with events := [] }).map Packet.writeReq).flatMap packetBeats =
      (List.range s.bufferIndex).map fun j => r.beat mem (s.wordsTransferred + j) := by
  rw [(h.programmed.withEvents []).packetBeats]
  apply List.map_congr_left
  intro j hj
  rw [Transfer.beat, ← h.buffer trivial j (List.mem_range.mp hj)]

/-- **One step of the stream.** -/
theorem Streaming.move {a : BusAct} (h : Streaming mem r ph s) (hc : Undisturbed mem s (.bus a))
    (hm : Move s ph a t ph') (hat : At ph' t) : Streaming mem r ph' t := by
  have hp := hm.programmed h.programmed
  have hcur := h.current
  rcases hm with ⟨_, req, resp⟩ | ports | ⟨tid, data, _, hr, hph⟩ | ports | ⟨_, k, ports, hk, hne⟩ |
    ⟨k, ports, hk, hpend, hw⟩ | ⟨k, ports, hk, hpend, hw⟩
  · rw [trySendPacket_eq] at hat hp ⊢
    exact ⟨hat, hp, hcur, h.first, h.buffer, h.empty, h.written⟩
  · exact Streaming.readIssued ports hat (h.programmed.withEvents []) hcur h.first (h.buffer trivial) h.written
  · have hd : ∀ q ∈ (readBurst s tid).payloads, data q = mem q.addr := hc _ (by rw [hr]; rfl)
    have hev := hat.events
    unfold afterRead at hat hp hev ⊢
    split at hev
    · next hlt =>
      rw [if_pos hlt] at hat hp ⊢
      obtain rfl : ph' = .readEvent := by
        rcases hph with rfl | rfl
        · rfl
        · simp [State.schedule, buffered, h.phase.events, Phase.events] at hev
      exact ⟨hat, hp, hcur, h.first, fun _ j hj => h.fill tid hd hj, fun hph => (by cases hph), h.written⟩
    · next hge =>
      rw [if_neg hge] at hat hp ⊢
      obtain rfl : ph' = .writeEvent := by
        rcases hph with rfl | rfl
        · simp [State.schedule, buffered, h.phase.events, Phase.events] at hev
        · rfl
      exact ⟨hat, hp, rfl, h.first, fun _ j hj => h.fill tid hd hj, fun hph => (by cases hph), h.written⟩
  · have hi : (windowIssued ports { s with events := [] }).issued =
      s.issued ++ (windowBursts { s with events := [] }).map .writeReq := rfl
    refine ⟨hat, hp, hcur, ?_, fun hf => hf.elim, fun hph => (by cases hph), ?_⟩
    · rw [hi, List.length_append]
      exact h.first.trans (Nat.le_add_right _ _)
    · rw [beatsFrom_append hi h.first, h.written, h.window_beats]
      exact map_range_add _ _ _
  · exact ⟨hat, hp, hcur, h.first, h.buffer, h.empty, h.written⟩
  · exact ⟨hat, hp, rfl, h.first, fun hf => hf.elim, fun _ => rfl, h.written⟩
  · exact Streaming.readIssued ports hat (h.programmed.nextWindow _) rfl h.first
      (fun j hj => absurd hj (Nat.not_lt_zero j)) h.written

/-! ## What a state of the stream says -/

/-- The answer to a read burst puts every word it returns at an index of its own in the buffer, behind the words that
are there and below its end, and changes nothing else of the buffer. -/
structure StoresOwn (r : Transfer) (s : State) (k : Nat) (data : ReadReq → Word) (t : State) : Prop where
  burst : ∃ b, s.outReads[k]? = some b ∧ t.bufferIndex = s.bufferIndex + b.payloads.length ∧
    ∀ i (hi : i < b.payloads.length), (b.payloads[i]).a1.imm.toNat = s.bufferIndex + i ∧
      s.bufferIndex + i < BUFFER_CAPACITY ∧
      (b.payloads[i]).addr = r.readAddr (s.wordsTransferred + s.bufferIndex + i) ∧
      t.bufferMemory (s.bufferIndex + i) = data b.payloads[i]
  rest : ∀ j, j < s.bufferIndex ∨ t.bufferIndex ≤ j → t.bufferMemory j = s.bufferMemory j

/-- What holds in every state of the transfer `r` beside the memory `mem`. -/
structure Streamed (mem : Word → Word) (r : Transfer) (s : State) : Prop where
  index_le : s.bufferIndex ≤ BUFFER_CAPACITY
  words : s.totalWords = r.words
  counted_le : s.wordsToBuffer ≤ s.totalWords
  counted : s.currentState = .reading → s.wordsToBuffer = s.wordsTransferred + s.bufferIndex
  written : beatsFrom r.first s = (List.range s.wordsTransferred).map (r.beat mem)
  noFault : ∀ a e, busStep s a ≠ .fault e
  stores : ∀ k data t, busStep s (.readResp k data) = .next t → StoresOwn r s k data t
  completes : ∀ a t, busStep s a = .next t → s.done = false → t.done = true →
    s.currentState = .writing ∧ t.wordsTransferred = r.words

theorem At.counted_le (h : At ph s) : s.wordsToBuffer ≤ s.totalWords := by
  have hw := h.words
  cases ph <;> simp only [Phase.Words] at hw <;> omega

theorem afterRead_bufferMemory (s : State) : (afterRead s).bufferMemory = s.bufferMemory := by
  unfold afterRead
  split <;> rfl

theorem afterRead_bufferIndex (s : State) : (afterRead s).bufferIndex = s.bufferIndex := by
  unfold afterRead
  split <;> rfl

theorem Streaming.stores (h : Streaming mem r ph s) {k : Nat} {data : ReadReq → Word}
    (hs : busStep s (.readResp k data) = .next t) : StoresOwn r s k data t := by
  obtain ⟨ph', hm, -⟩ := h.phase.move hs
  rcases hm with _ | _ | ⟨tid, _, _, hr, -⟩
  obtain ⟨hb, -, -⟩ := h.phase.words
  have hle := (nextChunk_le s).1
  have hlen : (readBurst s tid).payloads.length = nextChunk s := by simp [readBurst_payloads]
  refine ⟨⟨readBurst s tid, by rw [hr]; rfl, ?_, fun i hi => ?_⟩, fun j hj => ?_⟩
  · rw [afterRead_bufferIndex, hlen]
    rfl
  · have hlt : s.bufferIndex + i < BUFFER_CAPACITY := by omega
    have hget : (readBurst s tid).payloads[i] = readBeat s tid i := by simp [readBurst_payloads]
    rw [hget]
    refine ⟨readBeat_index tid hlt, hlt, h.programmed.readBeat_addr tid i, ?_⟩
    rw [afterRead_bufferMemory]
    show fillBuffer s (nextChunk s) (answer s tid data) (s.bufferIndex + i) = _
    rw [fillBuffer, if_pos (by omega), Nat.add_sub_cancel_left, answer_eq_readBeat]
  · rw [afterRead_bufferIndex] at hj
    rw [afterRead_bufferMemory]
    simp only [buffered] at hj
    show fillBuffer s (nextChunk s) (answer s tid data) j = _
    rw [fillBuffer, if_neg (by omega)]

theorem Streaming.completes (h : Streaming mem r ph s) {a : BusAct} (hs : busStep s a = .next t)
    (hd : s.done = false) (ht : t.done = true) : s.currentState = .writing ∧ t.wordsTransferred = r.words := by
  obtain ⟨ph', hm, hat⟩ := h.phase.move hs
  have hp := hm.programmed h.programmed
  have hph : ph ≠ .complete := by simpa [hd] using h.phase.done
  obtain rfl : ph' = .complete := by simpa [ht] using hat.done
  obtain rfl : ph = .writing := by
    rcases hm with _ | _ | ⟨_, _, _, _, hor⟩ | _ | _ | _ | _
    · exact absurd rfl hph
    · simp at hor
    · exact absurd rfl hph
    · rfl
  exact ⟨h.current, hat.words.2.trans hp.words⟩

theorem Streaming.streamed (h : Streaming mem r ph s) : Streamed mem r s where
  index_le := by
    by_cases hc : ph = .complete
    · rw [h.empty hc]
      exact Nat.zero_le _
    · exact h.phase.index_le hc
  words := h.programmed.words
  counted_le := h.phase.counted_le
  counted hcur := by
    have hw := h.phase.words
    have hc := h.current
    rw [hcur] at hc
    cases ph <;> simp only [Phase.current, reduceCtorEq] at hc
    · exact hw.2.1
    · exact hw.2.1
  written := h.written
  noFault _ _ := h.phase.ne_fault
  stores _ _ _ hs := h.stores hs
  completes _ _ hs hd ht := h.completes hs hd ht

end Moves

/-! ## Runs -/

theorem At.withResps {ph : Phase} {s : State} (h : At ph s) (resps : List Packet) :
    At ph { s with respQ := resps } where
  enabled := h.enabled
  done := h.done
  events := h.events
  reads := by
    have := h.reads
    cases ph <;> exact this
  words := by
    have := h.words
    cases ph <;> exact this
  answers := by
    have := h.answers
    cases ph <;> exact this

theorem Streaming.withResps {mem : Word → Word} {r : Transfer} {ph : Phase} {s : State} (h : Streaming mem r ph s)
    (resps : List Packet) : Streaming mem r ph { s with respQ := resps } where
  phase := h.phase.withResps resps
  programmed := ⟨h.programmed.src, h.programmed.dst, h.programmed.row, h.programmed.sourceStride,
    h.programmed.destStride, h.programmed.words⟩
  current := h.current
  first := h.first
  buffer := h.buffer
  empty := h.empty
  written := h.written

/-- A transfer can start: no call is scheduled and no read burst waits. Write bursts of an earlier transfer may still
wait for their answers. -/
structure Ready (s : State) : Prop where
  events : s.events = []
  reads : readBursts s = []
  answers : writeBursts s = [] ∨ s.pendingBusWriteResponses ≤ 0

theorem AtRest.ready {s : State} (h : AtRest s) : Ready s :=
  ⟨h.events, by simp [readBursts, h.outReads, h.reqQ], .inl (by simp [writeBursts, h.outWrites, h.reqQ])⟩

/-- The transfer that ENABLE starts from the registers of `s`. -/
def Transfer.of (s : State) : Transfer := ⟨s.srcAddr, s.dstAddr, s.dmaSizeCfg, s.issued.length⟩

theorem streaming_start {s : State} (h : Ready s) (ports : Nat → Port) (mem : Word → Word) :
    Streaming mem (.of s) .reading (readIssued ports (started s)) := by
  have hat := at_readIssued (s := started s) ports rfl rfl h.events h.reads
    ⟨Nat.succ_pos _, rfl, started_totalWords_pos s⟩ h.answers
  refine Streaming.readIssued ports hat ⟨rfl, rfl, rfl, rfl, rfl, rfl⟩ rfl le_rfl ?_ ?_
  · exact fun j hj => absurd hj (Nat.not_lt_zero j)
  · rw [beatsFrom, show (started s).issued = s.issued from rfl, Transfer.of, List.drop_length]
    rfl

/-- **Main result.** From a write of ENABLE on, and until the registers are written again, a transfer beside a memory
that does not change writes the words it reads, in order and each once, whatever is accepted and whenever the bus
answers. -/
theorem streamed_of_undisturbed {s t : State} {ports : Nat → Port} {p : WriteReq} {recycled : Nat} (hr : Ready s)
    (he : Traced.Enables (.writeMmio ports p recycled)) (ht : writeMmio ports p recycled s = .ok t)
    (mem : Word → Word) (as : List Act) (hc : Along step (Undisturbed mem) t as) :
    Always step (fun _ => False) (Streamed mem (.of s)) t as := by
  apply Always.of_inv (I := fun u => ∃ ph, Streaming mem (.of s) ph u) _ _ _ _ hc
  · rintro u ⟨ph, hu⟩
    exact hu.streamed
  · rintro u a v ⟨ph, hu⟩ hca hs
    rcases a with a | ⟨q, n⟩ | ⟨_, _, _⟩
    · obtain ⟨ph', hm, hat⟩ := hu.phase.move hs
      exact ⟨ph', hu.move hca hm hat⟩
    · have hread := Outcome.ofExcept_eq_next.mp hs
      unfold readMmio at hread
      cases hd : readRegister u (q.addr.toNat % 64) with
      | error e => simp [hd, bind, Except.bind] at hread
      | ok data =>
        simp only [hd, bind, Except.bind] at hread
        rw [respond_eq hread]
        exact ⟨ph, hu.withResps _⟩
    · exact hca.elim
  · exact fun _ _ _ _ _ _ hbad => hbad
  · obtain ⟨u, hu, resps, rfl⟩ := writeMmio_eq ht
    rw [he.1, writeRegister_enable ports s he.2] at hu
    obtain rfl := Except.ok.inj hu
    exact ⟨.reading, (streaming_start hr ports mem).withResps resps⟩

/-- A transfer of five words in two write bursts, one of them queued, beside a memory that holds at every address the
address. -/
def fiveWords : List Act :=
  [.bus (.readResp 0 (·.addr)), .bus (.event 0 fun _ => free), .bus (.readResp 0 (·.addr)),
    .bus (.event 0 fun j => if j = 0 then free else stalled), .bus (.trySend free free),
    .bus (.writeResp 1 fun _ => free)]

def enable : WriteReq := { caller := .cpu, tid := 0, instr := {}, op := .SW, addr := 0, data := 1 }

/-- The state after `enable`. -/
def fiveWordsStart : State :=
  { readIssued (fun _ => free) (started (oneRow 0x00001300)) with
    respQ := [.writeResp (constructMemWriteRespPkt [{ tid := 0, instr := {} }] .dma .cpu 0)] }

theorem streamed_of_undisturbed_fiveWords : Along step (Undisturbed id) fiveWordsStart fiveWords ∧
    Always step (fun _ => False) (Streamed id (.of (oneRow 0x00001300))) fiveWordsStart fiveWords := by
  have hr : Ready (oneRow 0x00001300) := (oneRow_starts 0x00001300).1.ready
  have ht : writeMmio (fun _ => free) enable 0 (oneRow 0x00001300) = .ok fiveWordsStart := rfl
  have hc : Along step (Undisturbed id) fiveWordsStart fiveWords := by
    have hd : ∀ (s : State) (k : Nat), Undisturbed id s (.bus (.readResp k (·.addr))) := fun _ _ _ _ _ _ => rfl
    exact ⟨hd _ _, trivial, hd _ _, trivial, trivial, trivial, trivial⟩
  exact ⟨hc, streamed_of_undisturbed hr ⟨rfl, rfl⟩ ht id fiveWords hc⟩

end SocModel.Dma
