import SocModel.Dma.Model

/-!
# What one call of the DMA does

The loops of the source in closed form. No word is ever partial, so a burst of reads and a burst of writes have
the same lengths, `readChunk`.

* `scheduleReadsForBuffer_of_lt`, `handleReadResponse_readBurst` : one read burst, issued and answered;
* `issueWindow_eq` : the write bursts of a buffer, `windowBursts`, and where each of them goes.
-/

namespace SocModel.Dma

open Lib Bus

/-! ## Burst lengths -/

/-- The column of a word is below the words of a row, so the test for the last word of a row never holds. -/
theorem isPartial_eq_false (s : State) (g : Nat) : isPartial s g = false := by
  unfold isPartial State.wordsPerRow
  rcases Nat.eq_zero_or_pos s.trueWidth with h0 | h0
  · simp [h0]
  · have := Nat.mod_lt g (show 0 < (s.trueWidth + 3) / 4 by omega)
    have hne : (g % ((s.trueWidth + 3) / 4) == (s.trueWidth + 3) / 4) = false := beq_false_of_ne (by omega)
    rw [hne, Bool.false_and]

theorem readChunk_pos {n : Nat} (h : 0 < n) : 0 < readChunk n := by
  unfold readChunk
  split <;> omega

theorem readChunk_le (n : Nat) : readChunk n ≤ n := by
  unfold readChunk
  split <;> omega

@[simp] theorem subpackets_eq_one (s : State) (g : Nat) : subpackets s g = 1 := by
  simp [subpackets, isPartial_eq_false]

theorem writeChunkCalculation_eq (s : State) (offset : Nat) {n : Nat} (h : 0 < n) :
    writeChunkCalculation s offset n = readChunk n := by
  unfold writeChunkCalculation readChunk
  match n with
  | 1 => simp [chunkLoop]
  | 2 => simp [chunkLoop]
  | 3 => simp [chunkLoop]
  | 4 => simp [chunkLoop]
  | n + 5 => simp [chunkLoop]

/-- The lengths of the bursts that carry `n` words. -/
def chunkSizes (n : Nat) : List Nat :=
  List.replicate (n / 4) 4 ++ if n % 4 = 3 then [2, 1] else if n % 4 = 0 then [] else [n % 4]

theorem chunkSizes_of_pos {n : Nat} (h : 0 < n) :
    chunkSizes n = readChunk n :: chunkSizes (n - readChunk n) := by
  by_cases h4 : 4 ≤ n
  · have hc : readChunk n = 4 := by
      unfold readChunk
      rw [Nat.min_eq_left h4]
      rfl
    rw [hc, chunkSizes, chunkSizes, show n / 4 = (n - 4) / 4 + 1 by omega, List.replicate_succ,
      show n % 4 = (n - 4) % 4 by omega, List.cons_append]
  · obtain rfl | rfl | rfl : n = 1 ∨ n = 2 ∨ n = 3 := by omega
    all_goals rfl

@[simp] theorem chunkSizes_zero : chunkSizes 0 = [] := rfl

theorem sum_chunkSizes (n : Nat) : (chunkSizes n).sum = n := by
  unfold chunkSizes
  rw [List.sum_append, List.sum_replicate_nat]
  split
  · simp only [List.sum_cons, List.sum_nil]
    omega
  · split
    · simp only [List.sum_nil]
      omega
    · simp only [List.sum_cons, List.sum_nil]
      omega

/-- The write bursts of a buffer of `n` words. -/
def burstCount (n : Nat) : Nat := (chunkSizes n).length

theorem burstCount_pos {n : Nat} (h : 0 < n) : 0 < burstCount n := by
  rw [burstCount, chunkSizes_of_pos h]
  exact Nat.succ_pos _

/-! ## Write bursts -/

/-- The beat that writes `bufferMemory[j]`. -/
def writeBeat (s : State) (j : Nat) : WriteReq :=
  { caller := .dma
    tid := 0
    instr := {}
    op := .SW
    addr := wordAddr s.dstAddr s.wordsPerRow s.destStride (s.wordsTransferred + j)
    data := s.bufferMemory j }

/-- The burst that writes `n` words of the buffer from `offset` on. -/
def writeBurst (s : State) (offset tid n : Nat) : Burst WriteReq :=
  { burstLength := burstOfSize n
    payloads := ((List.range' offset n).map (writeBeat s)).map fun q => { q with caller := .dma, tid }
    srcIdx := getIndex .dma
    dstIdx := slaveIndex (writeBeat s offset).addr
    tid }

theorem createWriteRequestsForChunk_eq (s : State) {offset n : Nat} (h : offset + n ≤ BUFFER_CAPACITY) :
    createWriteRequestsForChunk s offset n = .ok ((List.range' offset n).map (writeBeat s)) := by
  induction n generalizing offset with
  | zero => rfl
  | succ n ih =>
    have hw : writeRequestsForWord s offset = .ok [writeBeat s offset] := by
      unfold writeRequestsForWord
      simp only [isPartial_eq_false, if_neg (show ¬ BUFFER_CAPACITY ≤ offset by omega)]
      rfl
    rw [createWriteRequestsForChunk, hw, ih (by omega), List.range'_succ]
    rfl

theorem constructMemWritepktBurst_eq (s : State) (offset tid : Nat) {n : Nat} (h : 0 < n) :
    constructMemWritepktBurst .dma ((List.range' offset n).map (writeBeat s)) tid =
      .ok (writeBurst s offset tid n) := by
  obtain ⟨m, rfl⟩ : ∃ m, n = m + 1 := ⟨n - 1, by omega⟩
  simp [writeBurst, List.range'_succ, constructMemWritepktBurst]

/-- The bursts of the given lengths, from `offset` on. -/
def burstsOf (s : State) : Nat → Nat → List Nat → List (Burst WriteReq)
  | _, _, [] => []
  | offset, tid, n :: ns => writeBurst s offset tid n :: burstsOf s (offset + n) (tid + 1) ns

theorem length_burstsOf (s : State) (offset tid : Nat) (ns : List Nat) :
    (burstsOf s offset tid ns).length = ns.length := by
  induction ns generalizing offset tid with
  | nil => rfl
  | cons n ns ih => simp [burstsOf, ih]

theorem burstsOf_congr {s t : State} (h : writeBeat t = writeBeat s) (offset tid : Nat) (ns : List Nat) :
    burstsOf t offset tid ns = burstsOf s offset tid ns := by
  induction ns generalizing offset tid with
  | nil => rfl
  | cons n ns ih => rw [burstsOf, burstsOf, ih, writeBurst, writeBurst, h]

/-! ## Pushes -/

/-- The bursts whose push is accepted; the first one is answered by `ports k`. -/
def accepted (ports : Nat → Port) : Nat → List (Burst WriteReq) → List (Burst WriteReq)
  | _, [] => []
  | k, p :: ps => if (ports k).transfers then p :: accepted ports (k + 1) ps else accepted ports (k + 1) ps

/-- The bursts that are queued. -/
def refused (ports : Nat → Port) : Nat → List (Burst WriteReq) → List (Burst WriteReq)
  | _, [] => []
  | k, p :: ps => if (ports k).transfers then refused ports (k + 1) ps else p :: refused ports (k + 1) ps

theorem accepted_cons (ports : Nat → Port) (k : Nat) (p : Burst WriteReq) (ps : List (Burst WriteReq)) :
    accepted ports k (p :: ps) =
      if (ports k).transfers then p :: accepted ports (k + 1) ps else accepted ports (k + 1) ps := rfl

theorem refused_cons (ports : Nat → Port) (k : Nat) (p : Burst WriteReq) (ps : List (Burst WriteReq)) :
    refused ports k (p :: ps) =
      if (ports k).transfers then refused ports (k + 1) ps else p :: refused ports (k + 1) ps := rfl

theorem length_accepted_add_refused (ports : Nat → Port) (k : Nat) (ps : List (Burst WriteReq)) :
    (accepted ports k ps).length + (refused ports k ps).length = ps.length := by
  induction ps generalizing k with
  | nil => rfl
  | cons p ps ih =>
    have := ih (k + 1)
    rw [accepted_cons, refused_cons]
    split <;> simp only [List.length_cons] <;> omega

theorem forall_from_succ {P : Nat → Prop} {k n : Nat} :
    (∀ j < n + 1, P (k + j)) ↔ P k ∧ ∀ j < n, P (k + 1 + j) := by
  rw [Nat.forall_lt_succ_left]
  simp only [Nat.add_zero, Nat.add_assoc, Nat.add_comm 1]

theorem refused_eq_nil_iff (ports : Nat → Port) (k : Nat) (ps : List (Burst WriteReq)) :
    refused ports k ps = [] ↔ ∀ j < ps.length, (ports (k + j)).transfers = true := by
  induction ps generalizing k with
  | nil => simp [refused]
  | cons p ps ih =>
    rw [List.length_cons, forall_from_succ (P := fun i => (ports i).transfers = true), ← ih, refused_cons]
    split <;> simp_all

theorem accepted_eq_nil_iff (ports : Nat → Port) (k : Nat) (ps : List (Burst WriteReq)) :
    accepted ports k ps = [] ↔ ∀ j < ps.length, (ports (k + j)).transfers = false := by
  induction ps generalizing k with
  | nil => simp [accepted]
  | cons p ps ih =>
    rw [List.length_cons, forall_from_succ (P := fun i => (ports i).transfers = false), ← ih, accepted_cons]
    split <;> simp_all

/-- The pushes of a window, burst after burst. -/
def pushAll (ports : Nat → Port) : Nat → List (Burst WriteReq) → State → State
  | _, [], s => s
  | k, p :: ps, s => pushAll ports (k + 1) ps (pushOrQueueWrite (ports k) p (s.issue (.writeReq p)))

theorem pushAll_eq (ports : Nat → Port) (k : Nat) (ps : List (Burst WriteReq)) (s : State) :
    pushAll ports k ps s = { s with
      nextTid := s.nextTid + ps.length
      issued := s.issued ++ ps.map .writeReq
      outWrites := s.outWrites ++ accepted ports k ps
      reqQ := s.reqQ ++ (refused ports k ps).map .writeReq
      pendingBusWriteResponses := s.pendingBusWriteResponses + (refused ports k ps).length } := by
  induction ps generalizing k s with
  | nil => simp [pushAll, accepted, refused]
  | cons p ps ih =>
    rw [pushAll, ih, accepted_cons, refused_cons]
    unfold pushOrQueueWrite
    split
    · simp [State.handOver, State.issue, Nat.add_assoc, Nat.add_comm 1]
    · simp [State.issue, Nat.add_assoc, Nat.add_comm 1]
      omega

theorem writeLoop_eq (ports : Nat → Port) {fuel n : Nat} (hn : n ≤ fuel) (k offset : Nat) (s : State)
    (hb : offset + n = s.bufferIndex) (hc : s.bufferIndex ≤ BUFFER_CAPACITY) :
    writeLoop ports fuel k offset s =
      .ok (pushAll ports k (burstsOf s offset s.nextTid (chunkSizes n)) s) := by
  induction fuel generalizing n k offset s with
  | zero =>
    obtain rfl : n = 0 := by omega
    rfl
  | succ fuel ih =>
    rcases Nat.eq_zero_or_pos n with rfl | hpos
    · rw [writeLoop, if_neg (by omega)]
      rfl
    · have hle := readChunk_le n
      have hcp := readChunk_pos hpos
      rw [writeLoop, if_pos (by omega), show s.bufferIndex - offset = n by omega, writeChunkCalculation_eq _ _ hpos]
      simp only [createWriteRequestsForChunk_eq s (show offset + readChunk n ≤ BUFFER_CAPACITY by omega), bind,
        Except.bind, constructMemWritepktBurst_eq s offset s.nextTid hcp]
      have hs : writeBeat (pushOrQueueWrite (ports k) (writeBurst s offset s.nextTid (readChunk n))
          (s.issue (.writeReq (writeBurst s offset s.nextTid (readChunk n))))) = writeBeat s := by
        unfold pushOrQueueWrite
        split <;> rfl
      rw [ih (n := n - readChunk n) (by omega), chunkSizes_of_pos hpos, burstsOf, pushAll, burstsOf_congr hs]
      · unfold pushOrQueueWrite
        split <;> rfl
      · unfold pushOrQueueWrite
        split <;> simp only [State.handOver, State.issue] <;> omega
      · unfold pushOrQueueWrite
        split <;> exact hc

/-- The write bursts of the buffer. -/
def windowBursts (s : State) : List (Burst WriteReq) := burstsOf s 0 s.nextTid (chunkSizes s.bufferIndex)

@[simp] theorem length_windowBursts (s : State) : (windowBursts s).length = burstCount s.bufferIndex :=
  length_burstsOf _ _ _ _

/-- The state after the bursts of the buffer are pushed or queued. -/
def windowIssued (ports : Nat → Port) (s : State) : State :=
  { s with
    nextTid := s.nextTid + (windowBursts s).length
    issued := s.issued ++ (windowBursts s).map .writeReq
    outWrites := s.outWrites ++ accepted ports 0 (windowBursts s)
    reqQ := s.reqQ ++ (refused ports 0 (windowBursts s)).map .writeReq
    pendingBusWriteResponses := (refused ports 0 (windowBursts s)).length
    wordsTransferred := s.wordsTransferred + s.bufferIndex }

theorem issueWindow_eq (ports : Nat → Port) {s : State} (hc : s.bufferIndex ≤ BUFFER_CAPACITY) :
    issueWindow ports s = .ok (windowIssued ports s) := by
  have h := writeLoop_eq ports le_rfl 0 0 { s with pendingBusWriteResponses := 0 } (Nat.zero_add _) hc
  have hb := burstsOf_congr (s := s) (t := { s with pendingBusWriteResponses := 0 }) rfl 0 s.nextTid
    (chunkSizes s.bufferIndex)
  simp only [hb] at h
  unfold issueWindow
  rw [h]
  simp only [bind, Except.bind, pure, Except.pure, pushAll_eq, zero_add]
  rfl

/-! ## Read bursts -/

/-- The words of the next read burst. -/
def nextChunk (s : State) : Nat :=
  readChunk (min (BUFFER_CAPACITY - s.bufferIndex) (s.totalWords - s.wordsToBuffer))

/-- The next read burst. -/
def readBurst (s : State) (tid : Nat) : Burst ReadReq :=
  { burstLength := burstOfSize (nextChunk s)
    payloads := (readRequests s (nextChunk s)).map fun q => { q with caller := .dma, tid }
    srcIdx := getIndex .dma
    dstIdx := slaveIndex (wordAddr s.srcAddr s.wordsPerRow s.sourceStride (s.wordsTransferred + s.bufferIndex))
    tid }

/-- The state after a read burst is pushed or queued. -/
def readIssued (ports : Nat → Port) (s : State) : State :=
  let pkt := readBurst s s.nextTid
  { s with
    nextTid := s.nextTid + 1
    issued := s.issued ++ [.readReq pkt]
    outReads := if (ports 0).transfers then s.outReads ++ [pkt] else s.outReads
    reqQ := if (ports 0).transfers then s.reqQ else s.reqQ ++ [.readReq pkt]
    pendingBusReadResponses := 1 }

theorem nextChunk_pos {s : State} (hb : s.bufferIndex < BUFFER_CAPACITY) (hw : s.wordsToBuffer < s.totalWords) :
    0 < nextChunk s := readChunk_pos (by omega)

theorem nextChunk_le (s : State) :
    nextChunk s ≤ BUFFER_CAPACITY - s.bufferIndex ∧ nextChunk s ≤ s.totalWords - s.wordsToBuffer := by
  have := readChunk_le (min (BUFFER_CAPACITY - s.bufferIndex) (s.totalWords - s.wordsToBuffer))
  unfold nextChunk
  omega

theorem scheduleReadsForBuffer_of_lt (ports : Nat → Port) {s : State} (hb : s.bufferIndex < BUFFER_CAPACITY)
    (hw : s.wordsToBuffer < s.totalWords) : scheduleReadsForBuffer ports s = .ok (readIssued ports s) := by
  have hpos := nextChunk_pos hb hw
  unfold scheduleReadsForBuffer
  simp only [sizeSub_of_le hb.le, sizeSub_of_le hw.le]
  rw [if_neg (by omega), show readChunk _ = nextChunk s from rfl]
  obtain ⟨m, hm⟩ : ∃ m, nextChunk s = m + 1 := ⟨nextChunk s - 1, by omega⟩
  have hp : constructMemReadpktBurst .dma (readRequests s (nextChunk s)) s.nextTid =
      .ok (readBurst s s.nextTid) := by
    unfold readBurst
    simp [hm, readRequests, List.range_succ_eq_map, constructMemReadpktBurst]
  rw [hp]
  simp only [bind, Except.bind, pure, Except.pure, readIssued]
  split <;> rfl

/-- The buffer with the words `f 0`, … behind those it holds. -/
def fillBuffer (s : State) (n : Nat) (f : Nat → Word) : Nat → Word := fun j =>
  if s.bufferIndex ≤ j ∧ j < s.bufferIndex + n then f (j - s.bufferIndex) else s.bufferMemory j

/-- The state after the answer to a read burst of `n` words, before the next call is scheduled. -/
def buffered (s : State) (n : Nat) (f : Nat → Word) : State :=
  { s with
    bufferMemory := fillBuffer s n f
    pendingBusReadResponses := s.pendingBusReadResponses - 1
    bufferIndex := s.bufferIndex + n
    wordsToBuffer := s.wordsToBuffer + n }

theorem storeResponse_fold (s : State) {n : Nat} (h : s.bufferIndex + n ≤ BUFFER_CAPACITY) (r : Nat → ReadResp)
    (hr : ∀ i < n, (r i).a1.imm = BitVec.ofNat 32 (s.bufferIndex + i)) :
    ((List.range n).map r).foldlM storeResponse s =
      .ok { s with bufferMemory := fillBuffer s n fun i => (r i).data } := by
  induction n with
  | zero =>
    have h0 : fillBuffer s 0 (fun i => (r i).data) = s.bufferMemory := by
      funext j
      exact if_neg (by omega)
    rw [h0]
    rfl
  | succ n ih =>
    have hi : (BitVec.ofNat 32 (s.bufferIndex + n)).toNat = s.bufferIndex + n := by
      rw [BitVec.toNat_ofNat]
      exact Nat.mod_eq_of_lt (by unfold BUFFER_CAPACITY at h; omega)
    have hn := hr n (by omega)
    rw [List.range_succ, List.map_append, List.foldlM_append, ih (by omega) fun i h => hr i (by omega)]
    simp only [List.map_cons, List.map_nil, List.foldlM_cons, List.foldlM_nil, bind, Except.bind, storeResponse,
      hn, hi, if_pos (show s.bufferIndex + n < BUFFER_CAPACITY by omega), pure, Except.pure]
    congr 2
    funext j
    unfold fillBuffer
    simp only [Function.update_apply]
    split
    · next hj => simp [hj]
    · split
      · rw [if_pos (by omega)]
      · rw [if_neg (by omega)]

/-- The value a burst's answer carries for its word `i`. -/
def answer (s : State) (tid : Nat) (data : ReadReq → Word) (i : Nat) : Word :=
  data
    { caller := .dma
      tid
      instr := {}
      op := .LW
      addr := wordAddr s.srcAddr s.wordsPerRow s.sourceStride (s.wordsTransferred + s.bufferIndex + i)
      a1 := { imm := BitVec.ofNat 32 (s.bufferIndex + i) } }

/-- The call scheduled after the answer to a read burst. -/
def afterRead (s : State) : State :=
  if s.bufferIndex < BUFFER_CAPACITY ∧ s.wordsToBuffer < s.totalWords then s.schedule .reads
  else { s with currentState := .writing }.schedule .writes

theorem handleReadResponse_readBurst (tid : Nat) (data : ReadReq → Word) {s : State}
    (hb : s.bufferIndex ≤ BUFFER_CAPACITY) (hw : s.wordsToBuffer ≤ s.totalWords) :
    handleReadResponse (respondTo (readBurst s tid) data) s =
      .ok (afterRead (buffered s (nextChunk s) (answer s tid data))) := by
  obtain ⟨hcb, hcw⟩ := nextChunk_le s
  have hp : (respondTo (readBurst s tid) data).payloads = (List.range (nextChunk s)).map fun i =>
      { tid
        instr := {}
        op := .LW
        data := answer s tid data i
        a1 := { imm := BitVec.ofNat 32 (s.bufferIndex + i) } } := by
    simp [respondTo, readBurst, readRequests, constructMemReadRespPkt, Burst.setTID, answer, Function.comp_def]
  unfold handleReadResponse
  rw [hp, storeResponse_fold s (by omega) _ fun _ _ => rfl]
  simp only [bind, Except.bind, pure, Except.pure, List.length_map, List.length_range]
  rw [sizeSub_of_le (by omega), sizeSub_of_le (by omega)]
  simp only [gt_iff_lt, Nat.sub_pos_iff_lt]
  by_cases h : s.bufferIndex + nextChunk s < BUFFER_CAPACITY ∧ s.wordsToBuffer + nextChunk s < s.totalWords
  · rw [if_pos h, afterRead, if_pos (by exact h)]
    rfl
  · rw [if_neg h, afterRead, if_neg (by exact h)]
    rfl

end SocModel.Dma
