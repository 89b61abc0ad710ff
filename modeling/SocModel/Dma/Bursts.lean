import SocModel.DataMem.Model
import SocModel.Dma.Copy
import SocModel.Dma.Stream
import SocModel.Sa.Model

/-!
# The bursts of a transfer

How many words a call of the DMA puts into a burst, how many payloads they become and what burst size the packet
records, in every state a transfer can be in, and what the slaves assert of it.

* `Sized`, `ReadChunk`, `Turns` : a burst the bus supports, the read bursts, the turns of the loop over the buffer;
* `Issues s t` : what one step can issue, `Between.step` : every step of a run does that and nothing else;
* `accepted_iff` : a burst of such a size passes the assertions of its slave unless the slave wants one payload;
* `bursts_wellFormed` : all of this for every run in which ENABLE finds no transfer under way.
-/

namespace SocModel.Dma

open Lib Bus Traced

/-! ## Well-formed bursts -/

/-- The bus supports the number of payloads, and the packet records it. -/
structure Sized {β : Type} (p : Burst β) : Prop where
  size : p.payloads.length = 1 ∨ p.payloads.length = 2 ∨ p.payloads.length = 4
  recorded : p.burstSize = p.payloads.length

/-- A read burst, built with the counters of `t`: the buffer has room for its words and the transfer has them left. -/
structure ReadChunk (t : State) (p : Burst ReadReq) : Prop where
  sized : Sized p
  pos : 1 ≤ p.payloads.length
  room : t.bufferIndex + p.payloads.length ≤ BUFFER_CAPACITY
  left : t.wordsToBuffer + p.payloads.length ≤ t.totalWords

/-- The words of the chunk at `offset`. -/
def chunkAt (s : State) (offset : Nat) : Nat := writeChunkCalculation s offset (s.bufferIndex - offset)

/-- The turns of the loop over the buffer from `offset` on, with the bursts they build. -/
inductive Turns (s : State) : Nat → List (Burst WriteReq) → Prop
  | done : Turns s s.bufferIndex []
  | turn {offset : Nat} {reqs : List WriteReq} {p : Burst WriteReq} {ps : List (Burst WriteReq)}
    (hpos : 1 ≤ chunkAt s offset) (hle : chunkAt s offset ≤ s.bufferIndex - offset)
    (hreqs : createWriteRequestsForChunk s offset (chunkAt s offset) = .ok reqs)
    (hp : constructMemWritepktBurst .dma reqs p.tid = .ok p) (hs : Sized p)
    (hps : Turns s (offset + chunkAt s offset) ps) : Turns s offset (p :: ps)

/-- The bursts of a window carry the words of the buffer, each once. -/
structure Window (s : State) (ps : List (Burst WriteReq)) : Prop where
  turns : Turns s 0 ps
  words : (ps.map Packet.writeReq).flatMap packetBeats = (List.range s.bufferIndex).map fun j =>
    (.SW, wordAddr s.dstAddr s.wordsPerRow s.destStride (s.wordsTransferred + j), s.bufferMemory j)

/-- What a step from `s` to `t` issues. -/
inductive Issues (s t : State) : Prop
  | nothing (h : t.issued = s.issued)
  | read (p : Burst ReadReq) (h : t.issued = s.issued ++ [.readReq p]) (hp : ReadChunk t p)
  | window (ps : List (Burst WriteReq)) (h : t.issued = s.issued ++ ps.map .writeReq) (hps : Window s ps)

theorem readChunk_mem {n : Nat} (h : 0 < n) : readChunk n = 1 ∨ readChunk n = 2 ∨ readChunk n = 4 := by
  unfold readChunk
  split <;> omega

theorem burstSize_burstOfSize {β : Type} {p : Burst β} {n : Nat} (hn : n = 1 ∨ n = 2 ∨ n = 4)
    (h : p.burstLength = burstOfSize n) : p.burstSize = n := by
  unfold Burst.burstSize
  rw [h]
  obtain rfl | rfl | rfl := hn <;> rfl

theorem sized_of_length {β : Type} {p : Burst β} {n : Nat} (hl : p.payloads.length = readChunk n) (hn : 0 < n)
    (h : p.burstLength = burstOfSize (readChunk n)) : Sized p := by
  have hm := readChunk_mem hn
  exact ⟨hl ▸ hm, (burstSize_burstOfSize hm h).trans hl.symm⟩

theorem length_readBurst (s : State) (tid : Nat) : (readBurst s tid).payloads.length = nextChunk s := by
  simp [readBurst, readRequests]

theorem length_writeBurst (s : State) (offset tid n : Nat) : (writeBurst s offset tid n).payloads.length = n := by
  simp [writeBurst]

/-- The read burst of a state with room in the buffer and words left. -/
theorem readChunk_readIssued (ports : Nat → Port) {s : State} (tid : Nat) (hb : s.bufferIndex < BUFFER_CAPACITY)
    (hw : s.wordsToBuffer < s.totalWords) : ReadChunk (readIssued ports s) (readBurst s tid) := by
  have hl := length_readBurst s tid
  obtain ⟨hroom, hleft⟩ := nextChunk_le s
  refine ⟨sized_of_length hl (by omega) rfl, ?_, ?_, ?_⟩
  · rw [hl]
    exact nextChunk_pos hb hw
  · rw [hl]
    show s.bufferIndex + nextChunk s ≤ BUFFER_CAPACITY
    omega
  · rw [hl]
    show s.wordsToBuffer + nextChunk s ≤ s.totalWords
    omega

/-- The loop runs through the whole buffer. -/
theorem turns_burstsOf (s : State) (hc : s.bufferIndex ≤ BUFFER_CAPACITY) {offset n : Nat} (tid : Nat)
    (h : offset + n = s.bufferIndex) : Turns s offset (burstsOf s offset tid (chunkSizes n)) := by
  induction n using Nat.strongRecOn generalizing offset tid with
  | ind n ih =>
    rcases Nat.eq_zero_or_pos n with rfl | hpos
    · obtain rfl : offset = s.bufferIndex := h
      exact Turns.done
    · have hle := readChunk_le n
      have hcp := readChunk_pos hpos
      have hchunk : chunkAt s offset = readChunk n := by
        rw [chunkAt, show s.bufferIndex - offset = n by omega, writeChunkCalculation_eq _ _ hpos]
      rw [chunkSizes_of_pos hpos, burstsOf]
      apply Turns.turn
      · omega
      · omega
      · rw [hchunk]
        exact createWriteRequestsForChunk_eq s (by omega)
      · exact constructMemWritepktBurst_eq s offset tid hcp
      · exact sized_of_length (length_writeBurst s offset tid _) hpos rfl
      · rw [hchunk]
        exact ih (n - readChunk n) (by omega) (tid + 1) (by omega)

theorem window_windowBursts {s : State} (hc : s.bufferIndex ≤ BUFFER_CAPACITY) : Window s (windowBursts s) :=
  ⟨turns_burstsOf s hc s.nextTid (Nat.zero_add _), flatMap_packetBeats_windowBursts s⟩

theorem Turns.sized {s : State} {offset : Nat} {ps : List (Burst WriteReq)} (h : Turns s offset ps) :
    ∀ p ∈ ps, Sized p := by
  induction h with
  | done => simp
  | turn _ _ _ _ hs _ ih => exact List.forall_mem_cons.mpr ⟨hs, ih⟩

/-! ## Steps of a transfer -/

/-- A transfer is under way. The base addresses may have been written since it started. -/
def InTransfer (s : State) : Prop := ∃ r ph, At ph (running r ph s)

/-- Where no read burst is under way the phase says nothing about the source address. -/
theorem At.rebase {r r' : Transfer} {ph : Phase} {s : State} (h : At ph (running r ph s))
    (hsrc : ph = .reading → r'.src = r.src) : At ph (running r' ph s) where
  enabled := h.enabled
  done := h.done
  events := h.events
  reads := by
    have hr := h.reads
    cases ph with
    | reading =>
      obtain ⟨tid, hr⟩ := hr
      refine ⟨tid, hr.trans ?_⟩
      unfold readBurst readRequests
      simp only [running, hsrc rfl]
      rfl
    | _ => exact hr
  words := by
    have hw := h.words
    cases ph <;> exact hw
  answers := by
    have ha := h.answers
    cases ph <;> exact ha

/-- The destination address, and outside a read the source address, can be taken from the registers. -/
theorem InTransfer.exists_at {s : State} (h : InTransfer s) : ∃ r ph, At ph (running r ph s) ∧ s.dstAddr = r.dst ∧
    (ph ≠ .reading → s.srcAddr = r.src) := by
  obtain ⟨r, ph, hat⟩ := h
  by_cases hph : ph = .reading
  · exact ⟨⟨r.src, s.dstAddr, r.cfg, r.first⟩, ph, hat.rebase fun _ => rfl, rfl, fun h => absurd hph h⟩
  · exact ⟨⟨s.srcAddr, s.dstAddr, r.cfg, r.first⟩, ph, hat.rebase fun h => absurd h hph, rfl, fun _ => rfl⟩

/-- While a read burst is under way no call builds another. -/
theorem At.not_buildsRead {r : Transfer} {s : State} {a : BusAct} (h : At .reading (running r .reading s)) :
    ¬ BuildsRead s (.bus a) := by
  intro hb
  cases a with
  | event k ports =>
    have he : s.events = [] := h.events
    simp [BuildsRead, he] at hb
  | writeResp k ports => exact absurd (h.eq_writing hb.1 hb.2.1) (by decide)
  | _ => exact hb

theorem windowBursts_withEvents (s : State) (es : List Event) :
    windowBursts { s with events := es } = windowBursts s :=
  burstsOf_congr (s := s) (t := { s with events := es }) rfl 0 s.nextTid (chunkSizes s.bufferIndex)

theorem Move.issues {r : Transfer} {ph ph' : Phase} {s t : State} {a : BusAct} (h : At ph (running r ph s))
    (hm : Move (running r ph s) ph a (running r ph' t) ph') (hdst : s.dstAddr = r.dst) : Issues s t := by
  have hi : t.issued = s.issued ++ newBursts (running r ph s) a ph ph' := hm.issued
  have hw := h.words
  generalize hu : running r ph' t = u at hm
  -- the counters are not touched by the accesses
  have hread {p : Burst ReadReq} (hp : ReadChunk u p) : ReadChunk t p := by
    subst hu
    exact ⟨hp.sized, hp.pos, hp.room, hp.left⟩
  cases hm with
  | read ports => exact .read _ hi (hread (readChunk_readIssued ports _ hw.1 hw.2.2))
  | window ports =>
    have hs : windowBursts { running r .writeEvent s with events := [] } = windowBursts s :=
      (windowBursts_running (s := { s with events := [] }) hdst .writeEvent).trans (windowBursts_withEvents s [])
    simp only [newBursts, hs] at hi
    exact .window _ hi (window_windowBursts hw.1.2)
  | next k ports hk hp hlt =>
    refine .read _ hi (hread (readChunk_readIssued ports _ (Nat.succ_pos _) ?_))
    exact Nat.lt_of_le_of_lt (Nat.le_of_eq hw.2.1) hlt
  | trySend ph req resp => exact .nothing (by simpa [newBursts] using hi)
  | fill tid data ph hr hph => exact .nothing (by simpa [newBursts] using hi)
  | answer ph k ports hk hp => exact .nothing (by cases ph <;> simpa [newBursts] using hi)
  | complete k ports hk hp hle => exact .nothing (by simpa [newBursts] using hi)

theorem InTransfer.bus {s t : State} {a : BusAct} (h : InTransfer s) (hs : busStep s a = .next t) :
    InTransfer t ∧ Issues s t := by
  obtain ⟨r, ph, hat, hdst, hsrc⟩ := h.exists_at
  obtain ⟨ph', hm, hat'⟩ := move_running hat (fun hb => hsrc fun hph => by
    subst hph
    exact hat.not_buildsRead hb) (fun _ => hdst) hs
  exact ⟨⟨r, ph', hat'⟩, hm.issues hat hdst⟩

/-- A response that faults does so with any base addresses. -/
theorem readResp_fault_running {r : Transfer} {ph : Phase} {s : State} {k : Nat} {data : ReadReq → Word} {e : Fault}
    (hf : busStep s (.readResp k data) = .fault e) : busStep (running r ph s) (.readResp k data) = .fault e := by
  cases hp : s.outReads[k]? with
  | none =>
    unfold busStep at hf
    simp [hp] at hf
  | some p =>
    have hr := handleReadResponse_running r ph (respondTo p data) { s with outReads := s.outReads.eraseIdx k }
    rw [busStep_readResp data hp] at hf
    rw [busStep_readResp (s := running r ph s) data hp]
    refine (congrArg Outcome.ofExcept hr).trans ?_
    cases hx : handleReadResponse (respondTo p data) { s with outReads := s.outReads.eraseIdx k } with
    | error e' =>
      rw [hx] at hf
      exact hf ▸ rfl
    | ok t =>
      rw [hx] at hf
      cases hf

/-- No call of a transfer faults: no word of the buffer lies outside it, and none is partial. -/
theorem InTransfer.ne_fault {s : State} {a : BusAct} {e : Fault} (h : InTransfer s) : busStep s a ≠ .fault e := by
  obtain ⟨r, ph, hat⟩ := h
  have hw := hat.words
  cases a with
  | trySend req resp => exact fun hf => nomatch hf
  | event k ports =>
    rcases Nat.eq_zero_or_pos k with rfl | hk
    · have he : s.events = ph.events := hat.events
      cases ph with
      | readEvent =>
        rw [busStep_reads ports he hw.1 hw.2.2]
        exact nofun
      | writeEvent =>
        rw [busStep_writes ports he hw.1.1 hw.1.2]
        exact nofun
      | _ =>
        rw [busStep_event_none ports (by rw [he]; rfl)]
        exact nofun
    · have hn := getElem?_events_pos hat hk
      rw [busStep_event_none (s := s) ports hn]
      exact nofun
  | readResp k data => exact fun hf => hat.ne_fault (readResp_fault_running hf)
  | writeResp k ports =>
    rcases Nat.lt_or_ge k s.outWrites.length with hk | hk
    · by_cases hp : s.pendingBusWriteResponses = 1
      · obtain rfl := hat.eq_writing hk hp
        by_cases hle : s.totalWords ≤ s.wordsTransferred
        · rw [busStep_complete ports hk hp hle]
          exact nofun
        · rw [busStep_next ports hk hp (by omega) hw.2.1]
          exact nofun
      · rw [busStep_answer ports hk hp]
        exact nofun
    · unfold busStep
      simp [List.getElem?_eq_none hk]

/-! ## Runs -/

/-- ENABLE finds no call scheduled and no read burst under way, nor a counted write burst. -/
def StartsReady (s : State) (a : Act) : Prop := Enables a → Ready s

/-- No transfer is under way, or one is. -/
def Between (s : State) : Prop := Ready s ∨ InTransfer s

/-- Without a transfer the bus takes what is queued and answers the write bursts of earlier ones. -/
theorem Ready.bus {s t : State} {a : BusAct} (h : Ready s) (hs : busStep s a = .next t) :
    Ready t ∧ t.issued = s.issued := by
  cases a with
  | trySend req resp =>
    obtain rfl := Outcome.next.inj hs
    refine ⟨⟨?_, (readBursts_trySend req resp s).trans h.reads, ?_⟩, ?_⟩
    · rw [trySendPacket_eq]
      exact h.events
    · rw [writeBursts_trySend, trySendPacket_eq]
      exact h.answers
    · rw [trySendPacket_eq]
  | event k ports =>
    rw [busStep_event_none ports (by simp [h.events])] at hs
    cases hs
  | readResp k data =>
    have ho := (List.append_eq_nil_iff.mp h.reads).1
    simp [busStep, ho] at hs
  | writeResp k ports =>
    rcases Nat.lt_or_ge k s.outWrites.length with hk | hk
    · have hp := h.answers.resolve_left (writeBursts_ne_nil hk)
      rw [busStep_answer ports hk (by omega)] at hs
      obtain rfl := Outcome.next.inj hs
      refine ⟨⟨h.events, h.reads, .inr ?_⟩, rfl⟩
      simp only [answered]
      omega
    · simp [busStep, List.getElem?_eq_none hk] at hs

theorem Ready.ne_fault {s : State} {a : BusAct} {e : Fault} (h : Ready s) : busStep s a ≠ .fault e := by
  cases a with
  | trySend req resp =>
    intro hf
    cases hf
  | event k ports =>
    rw [busStep_event_none ports (by simp [h.events])]
    intro hf
    cases hf
  | readResp k data =>
    have ho := (List.append_eq_nil_iff.mp h.reads).1
    simp [busStep, ho]
  | writeResp k ports =>
    rcases Nat.lt_or_ge k s.outWrites.length with hk | hk
    · have hp := h.answers.resolve_left (writeBursts_ne_nil hk)
      rw [busStep_answer ports hk (by omega)]
      intro hf
      cases hf
    · simp [busStep, List.getElem?_eq_none hk]

theorem Retouched.between {s t : State} (h : Retouched s t) (hs : Between s) : Between t ∧ Issues s t := by
  have hrun := h.running
  obtain ⟨src, dst, cfg, done, resps, rfl⟩ := h
  refine ⟨hs.imp (fun hr => ⟨hr.events, hr.reads, hr.answers⟩) ?_, .nothing rfl⟩
  rintro ⟨r, ph, hat⟩
  exact ⟨r, ph, hrun r ph ▸ hat⟩

/-- ENABLE starts a transfer and issues its first read burst. -/
theorem Ready.start {s : State} (h : Ready s) (ports : Nat → Port) (resps : List Packet) :
    InTransfer { readIssued ports (started s) with respQ := resps } ∧
      Issues s { readIssued ports (started s) with respQ := resps } := by
  have hat := at_readIssued (s := started s) ports rfl rfl h.events h.reads
    ⟨Nat.succ_pos _, rfl, started_totalWords_pos s⟩ h.answers
  refine ⟨⟨.of s, .reading, ?_⟩, ?_⟩
  · exact ⟨hat.enabled, rfl, hat.events, hat.reads, hat.words, hat.answers⟩
  · have hp := readChunk_readIssued ports s.nextTid (s := started s) (Nat.succ_pos _) (started_totalWords_pos s)
    exact .read _ rfl ⟨hp.sized, hp.pos, hp.room, hp.left⟩

/-- **One step**, of the bus or of a master that programs the module. -/
theorem Between.step {s t : State} {a : Act} (h : Between s) (hc : StartsReady s a) (hs : Dma.step s a = .next t) :
    Between t ∧ Issues s t := by
  cases a with
  | bus a =>
    rcases h with h | h
    · exact ⟨.inl (h.bus hs).1, .nothing (h.bus hs).2⟩
    · exact ⟨.inr (h.bus hs).1, (h.bus hs).2⟩
  | readMmio p recycled => exact (readMmio_retouched (Outcome.ofExcept_eq_next.mp hs)).between h
  | writeMmio ports p recycled =>
    obtain ⟨u, hu, q, rfl⟩ := writeMmio_eq (Outcome.ofExcept_eq_next.mp hs)
    by_cases he : Enables (.writeMmio ports p recycled)
    · rw [he.1, writeRegister_enable ports s he.2] at hu
      obtain rfl := Except.ok.inj hu
      exact ((hc he).start ports q).imp .inr id
    · obtain ⟨src, dst, cfg, done, resps, rfl⟩ := writeRegister_retouched he hu
      exact Retouched.between ⟨src, dst, cfg, done, q, rfl⟩ h

/-! ## The slaves -/

/-- The slave a packet is routed to. -/
def dstOf : Packet → Nat
  | .readReq p => p.dstIdx
  | .writeReq p => p.dstIdx
  | .readResp p => p.dstIdx
  | .writeResp p => p.dstIdx

/-- A request the bus supports. -/
def SizedRequest : Packet → Prop
  | .readReq p => Sized p
  | .writeReq p => Sized p
  | _ => False

/-- The addresses of the beats of a request. -/
def addresses (pkt : Packet) : List Word := packetReads pkt ++ packetWrites pkt

/-- The assertion of the DMA on a request at its own port. -/
def portAssertion : Packet → Prop
  | .readReq p => p.payloads.length = p.burstSize ∧ p.burstSize = 1
  | .writeReq p => p.payloads.length = p.burstSize ∧ p.burstSize = 1
  | _ => True

/-- The slave the packet is routed to takes it: no assertion on its size fails. -/
structure Accepted (pkt : Packet) : Prop where
  dataMemory : dstOf pkt = 0 → ∀ lat d, ∃ d', DataMem.acceptPacket lat pkt d = .ok d'
  dma : dstOf pkt = 1 → portAssertion pkt
  array : dstOf pkt = 2 → ∀ a, ∃ a', Sa.accept a pkt = .ok a'

/-- The request goes to registers: of the DMA, or of the systolic array, which takes what is not its SRAM for them. -/
def ToRegisters (pkt : Packet) : Prop :=
  dstOf pkt = 1 ∨ dstOf pkt = 2 ∧ (addresses pkt).head?.any Sa.toSram = false

theorem acceptBurst_of_eq (lat : Nat) (pkt : Packet) (tid : Nat) {n : Nat} {reqs : List DataMem.Req}
    (h : reqs.length = n) (d : DataMem.State) : ∃ d', DataMem.acceptBurst lat pkt tid n reqs d = .ok d' := by
  unfold DataMem.acceptBurst
  rw [if_neg (not_not.mpr h)]
  exact ⟨_, rfl⟩

theorem Sized.exists_cons {β : Type} {p : Burst β} (h : Sized p) : ∃ q qs, p.payloads = q :: qs := by
  refine List.exists_cons_of_length_pos ?_
  rcases h.size with h | h | h <;> omega

theorem addresses_readReq (p : Burst ReadReq) : addresses (.readReq p) = p.payloads.map (·.addr) := by
  simp [addresses, packetReads, packetWrites, Packet.readReq?, Packet.writeReq?]

theorem addresses_writeReq (p : Burst WriteReq) : addresses (.writeReq p) = p.payloads.map (·.addr) := by
  simp [addresses, packetReads, packetWrites, Packet.readReq?, Packet.writeReq?]

/-- The data memory compares the number of payloads with the burst size. -/
theorem acceptPacket_ok {pkt : Packet} (h : SizedRequest pkt) (lat : Nat) (d : DataMem.State) :
    ∃ d', DataMem.acceptPacket lat pkt d = .ok d' := by
  cases pkt with
  | readReq p => exact acceptBurst_of_eq lat _ _ (by rw [List.length_map]; exact h.recorded.symm) d
  | writeReq p => exact acceptBurst_of_eq lat _ _ (by rw [List.length_map]; exact h.recorded.symm) d
  | _ => exact h.elim

/-- The DMA also wants one payload. -/
theorem portAssertion_iff {pkt : Packet} (h : SizedRequest pkt) : portAssertion pkt ↔ (addresses pkt).length = 1 := by
  cases pkt with
  | readReq p =>
    rw [addresses_readReq, List.length_map, ← h.recorded]
    exact ⟨fun hp => hp.2, fun hp => ⟨h.recorded.symm, hp⟩⟩
  | writeReq p =>
    rw [addresses_writeReq, List.length_map, ← h.recorded]
    exact ⟨fun hp => hp.2, fun hp => ⟨h.recorded.symm, hp⟩⟩
  | _ => exact h.elim

theorem acceptRead_ok_iff {p : Burst ReadReq} (h : Sized p) (a : Sa.State) :
    (∃ a', Sa.acceptRead p a = .ok a') ↔
      ((p.payloads.map (·.addr)).head?.any Sa.toSram = false → p.payloads.length = 1) := by
  obtain ⟨q, qs, hq⟩ := h.exists_cons
  have hl := h.recorded.symm
  unfold Sa.acceptRead
  rw [if_neg (not_not.mpr hl), hq]
  cases ht : Sa.toSram q.addr with
  | true => simp [ht]
  | false => by_cases hn : (q :: qs).length = 1 <;> simp_all

theorem acceptWrite_ok_iff {p : Burst WriteReq} (h : Sized p) (a : Sa.State) :
    (∃ a', Sa.acceptWrite p a = .ok a') ↔
      ((p.payloads.map (·.addr)).head?.any Sa.toSram = false → p.payloads.length = 1) := by
  obtain ⟨q, qs, hq⟩ := h.exists_cons
  have hl := h.recorded.symm
  unfold Sa.acceptWrite
  rw [if_neg (not_not.mpr hl), hq]
  cases ht : Sa.toSram q.addr with
  | true => simp [ht]
  | false => by_cases hn : (q :: qs).length = 1 <;> simp_all

/-- The systolic array takes bursts to its SRAM. -/
theorem accept_ok_iff {pkt : Packet} (h : SizedRequest pkt) (a : Sa.State) : (∃ a', Sa.accept a pkt = .ok a') ↔
    ((addresses pkt).head?.any Sa.toSram = false → (addresses pkt).length = 1) := by
  cases pkt with
  | readReq p =>
    rw [addresses_readReq, List.length_map]
    exact acceptRead_ok_iff h a
  | writeReq p =>
    rw [addresses_writeReq, List.length_map]
    exact acceptWrite_ok_iff h a
  | _ => exact h.elim

/-- A request of a supported size is taken, unless it has several payloads for registers. -/
theorem accepted_iff {pkt : Packet} (h : SizedRequest pkt) :
    Accepted pkt ↔ (ToRegisters pkt → (addresses pkt).length = 1) := by
  constructor
  · rintro hp (hd | ⟨hd, hs⟩)
    · exact (portAssertion_iff h).mp (hp.dma hd)
    · exact (accept_ok_iff h Sa.init).mp (hp.array hd Sa.init) hs
  · intro hr
    refine ⟨fun _ lat d => acceptPacket_ok h lat d, fun hd => ?_, fun hd a => ?_⟩
    · exact (portAssertion_iff h).mpr (hr (.inl hd))
    · exact (accept_ok_iff h a).mpr fun hs => hr (.inr ⟨hd, hs⟩)

/-! ## The main result -/

theorem Issues.sized {s t : State} (h : Issues s t) {first : Nat}
    (hs : ∀ pkt ∈ s.issued.drop first, SizedRequest pkt) : ∀ pkt ∈ t.issued.drop first, SizedRequest pkt := by
  have happ {ps : List Packet} (hi : t.issued = s.issued ++ ps) (hps : ∀ pkt ∈ ps, SizedRequest pkt) :
      ∀ pkt ∈ t.issued.drop first, SizedRequest pkt := by
    intro pkt hpkt
    rw [hi, List.drop_append, List.mem_append] at hpkt
    exact hpkt.elim (hs pkt) fun hpkt => hps pkt (List.mem_of_mem_drop hpkt)
  cases h with
  | nothing h => exact h ▸ hs
  | read p h hp => exact happ h fun pkt hpkt => List.mem_singleton.mp hpkt ▸ hp.sized
  | window ps h hps =>
    apply happ h
    intro pkt hpkt
    obtain ⟨p, hp, rfl⟩ := List.mem_map.mp hpkt
    exact hps.turns.sized p hp

/-- **Main result.** In every state of every run in which ENABLE finds no transfer under way: a step issues nothing,
or one read burst with at least one word and at most those that fit and are left, or bursts that carry the buffer
word by word; no call faults; the payloads of every burst are 1, 2 or 4, as many as the packet records, and its
slave takes it, unless it has several payloads for registers. -/
theorem bursts_wellFormed {s u : State} {as : List Act} (h : Ready s) (hc : Along step StartsReady s as)
    (hr : Reaches step s as u) : (∀ a t, StartsReady u a → step u a = .next t → Issues u t) ∧
      (∀ a e, busStep u a ≠ .fault e) ∧ ∀ pkt ∈ u.issued.drop s.issued.length, SizedRequest pkt ∧
        (Accepted pkt ↔ (ToRegisters pkt → (addresses pkt).length = 1)) := by
  have hinv : Between u ∧ ∀ pkt ∈ u.issued.drop s.issued.length, SizedRequest pkt := by
    refine hr.inv (I := fun v => Between v ∧ ∀ pkt ∈ v.issued.drop s.issued.length, SizedRequest pkt) ?_ hc
      ⟨.inl h, by simp⟩
    rintro v a w ⟨hv, hsz⟩ hca hs
    obtain ⟨hw, hi⟩ := hv.step hca hs
    exact ⟨hw, hi.sized hsz⟩
  refine ⟨fun a t hca hs => (hinv.1.step hca hs).2, fun a e => ?_, fun pkt hpkt => ?_⟩
  · exact hinv.1.elim Ready.ne_fault InTransfer.ne_fault
  · exact ⟨hinv.2 pkt hpkt, accepted_iff (hinv.2 pkt hpkt)⟩

/-- Four words from 0 to the registers of the DMA. -/
def intoRegisters : State := { init with dstAddr := 0xF000, dmaSizeCfg := 0x00000F00 }

def intoRegistersRun : List Act := [store 0x0 1, .bus (.readResp 0 fun _ => 0), .bus (.event 0 fun _ => free)]

theorem along_intoRegistersRun : Along step StartsReady intoRegisters intoRegistersRun :=
  ⟨fun _ => ⟨rfl, rfl, .inl rfl⟩, fun he => he.elim, fun he => he.elim, trivial⟩

theorem bursts_wellFormed_intoRegisters : ∃ u, Reaches step intoRegisters intoRegistersRun u ∧
    (∀ a t, StartsReady u a → step u a = .next t → Issues u t) ∧ (∀ a e, busStep u a ≠ .fault e) ∧
      ∀ pkt ∈ u.issued.drop intoRegisters.issued.length, SizedRequest pkt ∧
        (Accepted pkt ↔ (ToRegisters pkt → (addresses pkt).length = 1)) :=
  ⟨_, rfl, bursts_wellFormed ⟨rfl, rfl, .inl rfl⟩ along_intoRegistersRun rfl⟩

/-- The write burst of four payloads fails the assertion of the DMA's port. -/
theorem not_accepted_intoRegisters : ¬ ∀ (s u : State) (as : List Act), Ready s → Along step StartsReady s as →
    Reaches step s as u → ∀ pkt ∈ u.issued.drop s.issued.length, Accepted pkt := by
  intro h
  obtain ⟨u, hu, hp⟩ := Outcome.exists_of_holds (o := run step intoRegisters intoRegistersRun)
    (P := fun u => u.issued.any fun pkt => pkt.writeReq?.any fun p => p.dstIdx == 1 && p.burstSize == 4)
    (by decide +kernel)
  obtain ⟨pkt, hpkt, hd⟩ := List.any_eq_true.mp hp
  have hacc := h _ u _ ⟨rfl, rfl, .inl rfl⟩ along_intoRegistersRun hu pkt hpkt
  cases pkt with
  | writeReq p =>
    obtain ⟨hdst, hsize⟩ := Bool.and_eq_true_iff.mp (show (p.dstIdx == 1 && p.burstSize == 4) = true from hd)
    have hport := (hacc.dma (eq_of_beq hdst)).2
    rw [eq_of_beq hsize] at hport
    cases hport
  | _ => cases hd

end SocModel.Dma
