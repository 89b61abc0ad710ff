import SocModel.Dma.Completion

/-!
# A transfer against the programming of the next one

The geometry of a transfer is decoded at ENABLE, its two base addresses are read from the registers whenever a
burst is built, and ENABLE starts a transfer whatever is still scheduled or on the bus. `Traced` runs the module
with the registers it had at the last ENABLE, `Transfer`, and the ids of the bursts whose answers it counted.

* `running r ph s` : the state `s` as it would be without the accesses of the registers since ENABLE;
* `busStep_running` : a call that finds its base address unchanged does to `running r ph s` what it does to `s`;
* `isolated_of_respects` : under that condition, and ENABLE at rest only, transfers do not mix.
-/

namespace SocModel.Dma

open Lib Bus

/-! ## The transfer under way -/

/-- A transfer: the registers at its ENABLE, and the id of its first burst, which is its place in the record. -/
structure Transfer where
  src : Word
  dst : Word
  cfg : Word
  first : Nat
  deriving DecidableEq, Repr

namespace Transfer

/-- The geometry of the configuration. -/
def geometry (r : Transfer) : State := decode { init with dmaSizeCfg := r.cfg }

/-- Where word `g` is read. -/
def readAddr (r : Transfer) (g : Nat) : Word := wordAddr r.src r.geometry.wordsPerRow r.geometry.sourceStride g

/-- Where word `g` is written. -/
def writeAddr (r : Transfer) (g : Nat) : Word := wordAddr r.dst r.geometry.wordsPerRow r.geometry.destStride g

def words (r : Transfer) : Nat := r.geometry.totalWords

end Transfer

/-- The addresses of the beats of a packet that reads. -/
def packetReads (p : Packet) : List Word := (p.readReq?.map fun b => b.payloads.map (·.addr)).getD []

/-- The addresses of the beats of a packet that writes. -/
def packetWrites (p : Packet) : List Word := (p.writeReq?.map fun b => b.payloads.map (·.addr)).getD []

/-- The addresses read by the bursts from `first` on. -/
def readsFrom (first : Nat) (s : State) : List Word := (s.issued.drop first).flatMap packetReads

/-- The addresses written by the bursts from `first` on. -/
def writesFrom (first : Nat) (s : State) : List Word := (s.issued.drop first).flatMap packetWrites

/-- The module, the transfer of the last ENABLE and the ids of the answers counted since. -/
structure Traced where
  dma : State
  transfer : Option Transfer
  counted : List Nat

namespace Traced

def start : Traced := ⟨init, none, []⟩

/-- The ids of the bursts an action answers. -/
def answers (s : State) : Act → List Nat
  | .bus (.readResp k _) => (s.outReads[k]?.map (·.tid)).toList
  | .bus (.writeResp k _) => (s.outWrites[k]?.map (·.tid)).toList
  | _ => []

/-- A write of ENABLE that starts a transfer. -/
def Enables : Act → Prop
  | .writeMmio _ p _ => p.addr.toNat % 64 = 0 ∧ p.data.getLsbD 0 = true
  | _ => False

instance (a : Act) : Decidable (Enables a) := by
  cases a <;> unfold Enables <;> infer_instance

def step (t : Traced) (a : Act) : Outcome Fault Traced :=
  (Dma.step t.dma a).bind fun d => .next <|
    if Enables a then
      ⟨d, some ⟨t.dma.srcAddr, t.dma.dstAddr, t.dma.dmaSizeCfg, t.dma.nextTid⟩, []⟩
    else ⟨d, t.transfer, t.counted ++ answers t.dma a⟩

end Traced

/-- The transfer has read and written the words of its configuration one after another, all of them when it is
complete, and every answer counted is to a burst of its own. -/
structure Isolated (r : Transfer) (t : Traced) : Prop where
  reads : readsFrom r.first t.dma <+: (List.range r.words).map r.readAddr
  writes : writesFrom r.first t.dma <+: (List.range r.words).map r.writeAddr
  whole : t.dma.enabled = false → readsFrom r.first t.dma = (List.range r.words).map r.readAddr ∧
    writesFrom r.first t.dma = (List.range r.words).map r.writeAddr
  counted : ∀ tid ∈ t.counted, r.first ≤ tid

/-- The call builds a read burst. -/
def BuildsRead (s : State) : Act → Prop
  | .bus (.event k _) => s.events[k]? = some .reads
  | .bus (.writeResp k _) =>
    k < s.outWrites.length ∧ s.pendingBusWriteResponses = 1 ∧ s.wordsTransferred < s.totalWords
  | _ => False

/-- The call builds write bursts. -/
def BuildsWrite (s : State) : Act → Prop
  | .bus (.event k _) => s.events[k]? = some .writes
  | _ => False

/-- ENABLE finds the module at rest, and a call that builds a burst finds the base address of the last ENABLE. -/
structure Respects (t : Traced) (a : Act) : Prop where
  enable : Traced.Enables a → AtRest t.dma
  source : ∀ r, t.transfer = some r → BuildsRead t.dma a → t.dma.srcAddr = r.src
  dest : ∀ r, t.transfer = some r → BuildsWrite t.dma a → t.dma.dstAddr = r.dst

/-! ## The transfer without the accesses of its registers -/

/-- The state `s` in phase `ph`, with the registers and the responses as they were at ENABLE. -/
def running (r : Transfer) (ph : Phase) (s : State) : State :=
  { s with
    srcAddr := r.src
    dstAddr := r.dst
    dmaSizeCfg := r.cfg
    done := decide (ph = .complete)
    respQ := []
    sentResps := [] }

theorem running_trySend (r : Transfer) (ph : Phase) (req resp : Port) (s : State) :
    running r ph (trySendPacket req resp s) = trySendPacket req resp (running r ph s) := by
  rw [trySendPacket_eq, trySendPacket_eq]
  rfl

theorem readBurst_running {r : Transfer} {s : State} (h : s.srcAddr = r.src) (ph : Phase) (tid : Nat) :
    readBurst (running r ph s) tid = readBurst s tid := by
  unfold readBurst readRequests
  rw [h]
  rfl

theorem running_readIssued {r : Transfer} {s : State} (h : s.srcAddr = r.src) (ph : Phase) (ports : Nat → Port) :
    running r ph (readIssued ports s) = readIssued ports (running r ph s) := by
  have hb := readBurst_running h ph (running r ph s).nextTid
  unfold readIssued
  simp only [hb]
  rfl

theorem windowBursts_running {r : Transfer} {s : State} (h : s.dstAddr = r.dst) (ph : Phase) :
    windowBursts (running r ph s) = windowBursts s := by
  refine burstsOf_congr ?_ 0 s.nextTid (chunkSizes s.bufferIndex)
  funext j
  unfold writeBeat
  rw [h]
  rfl

theorem running_windowIssued {r : Transfer} {s : State} (h : s.dstAddr = r.dst) (ph : Phase)
    (ports : Nat → Port) : running r ph (windowIssued ports s) = windowIssued ports (running r ph s) := by
  have hb := windowBursts_running h ph
  unfold windowIssued
  simp only [hb]
  rfl

theorem storeResponse_running (r : Transfer) (ph : Phase) (s : State) (x : ReadResp) :
    storeResponse (running r ph s) x = (storeResponse s x).map (running r ph) := by
  unfold storeResponse
  split <;> rfl

theorem foldlM_storeResponse_running (r : Transfer) (ph : Phase) (xs : List ReadResp) (s : State) :
    xs.foldlM storeResponse (running r ph s) = (xs.foldlM storeResponse s).map (running r ph) := by
  induction xs generalizing s with
  | nil => rfl
  | cons x xs ih =>
    rw [List.foldlM_cons, List.foldlM_cons, storeResponse_running]
    cases storeResponse s x with
    | error e => rfl
    | ok t => exact ih t

/-- The answer to a read burst does not look at the registers. -/
theorem handleReadResponse_running (r : Transfer) (ph : Phase) (p : Burst ReadResp) (s : State) :
    handleReadResponse p (running r ph s) = (handleReadResponse p s).map (running r ph) := by
  unfold handleReadResponse
  rw [foldlM_storeResponse_running]
  cases p.payloads.foldlM storeResponse s with
  | error e => rfl
  | ok t =>
    simp only [Except.map, bind, Except.bind, pure, Except.pure]
    split
    · next hc => rw [if_pos (by exact hc)]; rfl
    · next hc => rw [if_neg (by exact hc)]; rfl

/-- **A call that finds its base address unchanged** does to the transfer what it does without the accesses. -/
theorem busStep_running {r : Transfer} {ph : Phase} {s t : State} {a : BusAct} (h : At ph (running r ph s))
    (hsrc : BuildsRead s (.bus a) → s.srcAddr = r.src) (hdst : BuildsWrite s (.bus a) → s.dstAddr = r.dst)
    (hs : busStep s a = .next t) : ∃ ph', busStep (running r ph s) a = .next (running r ph' t) := by
  cases a with
  | trySend req resp =>
    obtain rfl := Outcome.next.inj hs
    exact ⟨ph, congrArg Outcome.next (running_trySend r ph req resp s).symm⟩
  | event k ports =>
    have he : s.events = ph.events := h.events
    have hw := h.words
    rcases Nat.eq_zero_or_pos k with rfl | hk
    · cases ph with
      | readEvent =>
        obtain ⟨hb, -, ht⟩ := hw
        have hsrc := hsrc (by simp [BuildsRead, he, Phase.events])
        rw [busStep_reads ports he hb ht] at hs
        obtain rfl := Outcome.next.inj hs
        refine ⟨.readEvent, (busStep_reads ports h.events hb ht).trans ?_⟩
        exact congrArg Outcome.next (running_readIssued (s := { s with events := [] }) hsrc .readEvent ports).symm
      | writeEvent =>
        obtain ⟨⟨hpos, hb⟩, -⟩ := hw
        have hdst := hdst (by simp [BuildsWrite, he, Phase.events])
        rw [busStep_writes ports he hpos hb] at hs
        obtain rfl := Outcome.next.inj hs
        refine ⟨.writeEvent, (busStep_writes ports h.events hpos hb).trans ?_⟩
        exact congrArg Outcome.next (running_windowIssued (s := { s with events := [] }) hdst .writeEvent ports).symm
      | _ =>
        rw [busStep_event_none ports (by rw [he]; rfl)] at hs
        cases hs
    · have hn := getElem?_events_pos h hk
      rw [busStep_event_none (s := s) ports hn] at hs
      cases hs
  | readResp k data =>
    cases hp : s.outReads[k]? with
    | none =>
      unfold busStep at hs
      simp [hp] at hs
    | some p =>
      rw [busStep_readResp data hp, Outcome.ofExcept_eq_next] at hs
      have hr := handleReadResponse_running r ph (respondTo p data) { s with outReads := s.outReads.eraseIdx k }
      rw [hs] at hr
      exact ⟨ph, (busStep_readResp (s := running r ph s) data hp).trans (congrArg Outcome.ofExcept hr)⟩
  | writeResp k ports =>
    rcases Nat.lt_or_ge k s.outWrites.length with hk | hk
    · by_cases hp : s.pendingBusWriteResponses = 1
      · obtain rfl := h.eq_writing hk hp
        by_cases hw : s.totalWords ≤ s.wordsTransferred
        · rw [busStep_complete ports hk hp hw] at hs
          obtain rfl := Outcome.next.inj hs
          exact ⟨.complete, busStep_complete (s := running r .writing s) ports hk hp hw⟩
        · have hw' : s.wordsTransferred < s.totalWords := by omega
          have hb : s.wordsToBuffer = s.wordsTransferred := h.words.2.1
          rw [busStep_next ports hk hp hw' hb] at hs
          obtain rfl := Outcome.next.inj hs
          refine ⟨.writing, (busStep_next (s := running r .writing s) ports hk hp hw' hb).trans ?_⟩
          exact congrArg Outcome.next (running_readIssued (s := { windowDone s k with currentState := .reading })
            (hsrc ⟨hk, hp, hw'⟩) .writing ports).symm
      · rw [busStep_answer ports hk hp] at hs
        obtain rfl := Outcome.next.inj hs
        exact ⟨ph, busStep_answer (s := running r ph s) ports hk hp⟩
    · unfold busStep at hs
      simp [List.getElem?_eq_none hk] at hs

theorem move_running {r : Transfer} {ph : Phase} {s t : State} {a : BusAct} (h : At ph (running r ph s))
    (hsrc : BuildsRead s (.bus a) → s.srcAddr = r.src) (hdst : BuildsWrite s (.bus a) → s.dstAddr = r.dst)
    (hs : busStep s a = .next t) :
    ∃ ph', Move (running r ph s) ph a (running r ph' t) ph' ∧ At ph' (running r ph' t) := by
  obtain ⟨ph₁, h₁⟩ := busStep_running h hsrc hdst hs
  obtain ⟨ph', hm, hat⟩ := h.move h₁
  have hd : decide (ph₁ = .complete) = decide (ph' = .complete) := hat.done
  have hr : running r ph₁ t = running r ph' t := by
    unfold running
    rw [hd]
  rw [hr] at hm hat
  exact ⟨ph', hm, hat⟩

/-! ## The addresses of the bursts -/

theorem packetReads_readBurst (d : State) (tid : Nat) : packetReads (.readReq (readBurst d tid)) =
    (List.range (nextChunk d)).map fun i =>
      wordAddr d.srcAddr d.wordsPerRow d.sourceStride (d.wordsTransferred + d.bufferIndex + i) := by
  simp [packetReads, Packet.readReq?, readBurst, readRequests, Function.comp_def]

theorem packetReads_writeReq (b : Burst WriteReq) : packetReads (.writeReq b) = [] := rfl

theorem flatMap_packetReads_writes (bs : List (Burst WriteReq)) :
    (bs.map Packet.writeReq).flatMap packetReads = [] := by
  simp [List.flatMap_map, packetReads_writeReq]

/-- The write bursts of a buffer write its words one after another. -/
theorem flatMap_packetWrites_burstsOf (d : State) (offset tid : Nat) (ns : List Nat) :
    ((burstsOf d offset tid ns).map Packet.writeReq).flatMap packetWrites =
      (List.range' offset ns.sum).map fun j =>
        wordAddr d.dstAddr d.wordsPerRow d.destStride (d.wordsTransferred + j) := by
  induction ns generalizing offset tid with
  | nil => rfl
  | cons n ns ih =>
    rw [burstsOf, List.map_cons, List.flatMap_cons, ih, List.sum_cons, ← List.range'_append_1, List.map_append]
    congr 1
    simp [packetWrites, Packet.writeReq?, writeBurst, writeBeat, Function.comp_def]

theorem flatMap_packetWrites_windowBursts (d : State) : ((windowBursts d).map Packet.writeReq).flatMap packetWrites =
    (List.range d.bufferIndex).map fun j =>
      wordAddr d.dstAddr d.wordsPerRow d.destStride (d.wordsTransferred + j) := by
  rw [windowBursts, flatMap_packetWrites_burstsOf, sum_chunkSizes, ← List.range_eq_range']

/-- The ids of the write bursts follow one another. -/
theorem le_tid_of_mem_burstsOf {d : State} {offset tid : Nat} {ns : List Nat} {b : Burst WriteReq}
    (h : b ∈ burstsOf d offset tid ns) : tid ≤ b.tid := by
  induction ns generalizing offset tid with
  | nil => cases h
  | cons n ns ih =>
    rcases List.mem_cons.mp h with rfl | h
    · exact le_rfl
    · exact (Nat.le_succ tid).trans (ih h)

theorem mem_of_mem_accepted {ports : Nat → Port} {k : Nat} {b : Burst WriteReq} {bs : List (Burst WriteReq)}
    (h : b ∈ accepted ports k bs) : b ∈ bs := by
  induction bs generalizing k with
  | nil => exact h
  | cons c bs ih =>
    rw [accepted_cons] at h
    split at h
    · rcases List.mem_cons.mp h with rfl | h
      · exact List.mem_cons_self
      · exact List.mem_cons_of_mem _ (ih h)
    · exact List.mem_cons_of_mem _ (ih h)

theorem mem_of_mem_refused {ports : Nat → Port} {k : Nat} {b : Burst WriteReq} {bs : List (Burst WriteReq)}
    (h : b ∈ refused ports k bs) : b ∈ bs := by
  induction bs generalizing k with
  | nil => exact h
  | cons c bs ih =>
    rw [refused_cons] at h
    split at h
    · exact List.mem_cons_of_mem _ (ih h)
    · rcases List.mem_cons.mp h with rfl | h
      · exact List.mem_cons_self
      · exact List.mem_cons_of_mem _ (ih h)

theorem mem_writeBursts_windowIssued {ports : Nat → Port} {s : State} {b : Burst WriteReq}
    (h : b ∈ writeBursts (windowIssued ports s)) : b ∈ writeBursts s ∨ b ∈ windowBursts s := by
  simp only [writeBursts, windowIssued, List.filterMap_append, List.filterMap_map, Function.comp_def,
    Packet.writeReq?, List.filterMap_some, List.mem_append] at h ⊢
  rcases h with (h | h) | h | h
  · exact .inl (.inl h)
  · exact .inr (mem_of_mem_accepted h)
  · exact .inl (.inr h)
  · exact .inr (mem_of_mem_refused h)

/-! ## The invariant -/

/-- The words a transfer has asked for. -/
def requested (ph : Phase) (s : State) : Nat := if ph = .reading then s.wordsToBuffer + nextChunk s else s.wordsToBuffer

/-- The registers and the geometry of the transfer. -/
structure Programmed (r : Transfer) (s : State) : Prop where
  src : s.srcAddr = r.src
  dst : s.dstAddr = r.dst
  row : s.wordsPerRow = r.geometry.wordsPerRow
  sourceStride : s.sourceStride = r.geometry.sourceStride
  destStride : s.destStride = r.geometry.destStride
  words : s.totalWords = r.words

theorem Programmed.withEvents {r : Transfer} {s : State} (h : Programmed r s) (es : List Event) :
    Programmed r { s with events := es } :=
  ⟨h.src, h.dst, h.row, h.sourceStride, h.destStride, h.words⟩

/-- The answer that ends a window leaves what is programmed. -/
theorem Programmed.nextWindow {r : Transfer} {s : State} (h : Programmed r s) (k : Nat) :
    Programmed r { windowDone s k with currentState := .reading } :=
  ⟨h.src, h.dst, h.row, h.sourceStride, h.destStride, h.words⟩

/-- The state follows the transfer `r`, and no answer is due or was counted but to its own bursts. -/
structure Follows (r : Transfer) (ph : Phase) (s : State) (counted : List Nat) : Prop where
  phase : At ph s
  programmed : Programmed r s
  ids : s.nextTid = s.issued.length
  first : r.first ≤ s.nextTid
  reads : readsFrom r.first s = (List.range (requested ph s)).map r.readAddr
  writes : writesFrom r.first s = (List.range s.wordsTransferred).map r.writeAddr
  ownReads : ∀ b ∈ readBursts s, r.first ≤ b.tid
  ownWrites : ∀ b ∈ writeBursts s, r.first ≤ b.tid
  counted : ∀ tid ∈ counted, r.first ≤ tid

theorem readsFrom_append {first : Nat} {s t : State} {ps : List Packet} (hi : t.issued = s.issued ++ ps)
    (hf : first ≤ s.issued.length) : readsFrom first t = readsFrom first s ++ ps.flatMap packetReads := by
  unfold readsFrom
  rw [hi, List.drop_append_of_le_length hf, List.flatMap_append]

theorem writesFrom_append {first : Nat} {s t : State} {ps : List Packet} (hi : t.issued = s.issued ++ ps)
    (hf : first ≤ s.issued.length) : writesFrom first t = writesFrom first s ++ ps.flatMap packetWrites := by
  unfold writesFrom
  rw [hi, List.drop_append_of_le_length hf, List.flatMap_append]

theorem map_range_add {α : Type} (f : Nat → α) (a b : Nat) :
    (List.range a).map f ++ (List.range b).map (fun i => f (a + i)) = (List.range (a + b)).map f := by
  rw [List.range_add, List.map_append, List.map_map]
  rfl

/-- A step changes no register of the transfer. -/
theorem Move.programmed {r : Transfer} {s t : State} {a : BusAct} {ph ph' : Phase} (hm : Move s ph a t ph')
    (h : Programmed r s) : Programmed r t := by
  obtain ⟨h1, h2, h3, h4, h5, h6⟩ := h
  cases hm with
  | trySend ph req resp =>
    rw [trySendPacket_eq]
    exact ⟨h1, h2, h3, h4, h5, h6⟩
  | fill tid data ph hr hph =>
    unfold afterRead
    split <;> exact ⟨h1, h2, h3, h4, h5, h6⟩
  | _ => exact ⟨h1, h2, h3, h4, h5, h6⟩

theorem Programmed.packetReads {r : Transfer} {s : State} (h : Programmed r s) (tid : Nat)
    (hw : s.wordsToBuffer = s.wordsTransferred + s.bufferIndex) : packetReads (.readReq (readBurst s tid)) =
      (List.range (nextChunk s)).map fun i => r.readAddr (s.wordsToBuffer + i) := by
  rw [packetReads_readBurst, h.src, h.row, h.sourceStride, hw]
  rfl

theorem Programmed.packetWrites {r : Transfer} {s : State} (h : Programmed r s) :
    ((windowBursts s).map Packet.writeReq).flatMap packetWrites =
      (List.range s.bufferIndex).map fun j => r.writeAddr (s.wordsTransferred + j) := by
  rw [flatMap_packetWrites_windowBursts, h.dst, h.row, h.destStride]
  rfl

theorem afterRead_issued (s : State) : (afterRead s).issued = s.issued := by
  unfold afterRead
  split <;> rfl

theorem afterRead_nextTid (s : State) : (afterRead s).nextTid = s.nextTid := by
  unfold afterRead
  split <;> rfl

theorem afterRead_wordsToBuffer (s : State) : (afterRead s).wordsToBuffer = s.wordsToBuffer := by
  unfold afterRead
  split <;> rfl

theorem afterRead_wordsTransferred (s : State) : (afterRead s).wordsTransferred = s.wordsTransferred := by
  unfold afterRead
  split <;> rfl

theorem writeBursts_afterRead (s : State) : writeBursts (afterRead s) = writeBursts s := by
  unfold afterRead
  split <;> rfl

section Follows

variable {r : Transfer} {ph : Phase} {s : State} {counted : List Nat}

theorem readIssued_issued (ports : Nat → Port) (s : State) :
    (readIssued ports s).issued = s.issued ++ [.readReq (readBurst s s.nextTid)] := rfl

/-- A read burst is issued. -/
theorem Follows.readIssued (ports : Nat → Port) (hat : At .reading (readIssued ports s)) (hp : Programmed r s)
    (hr : readBursts s = []) (hids : s.nextTid = s.issued.length) (hfirst : r.first ≤ s.nextTid)
    (hreads : readsFrom r.first s = (List.range s.wordsToBuffer).map r.readAddr)
    (hwrites : writesFrom r.first s = (List.range s.wordsTransferred).map r.writeAddr)
    (how : ∀ b ∈ writeBursts s, r.first ≤ b.tid) (hc : ∀ tid ∈ counted, r.first ≤ tid) :
    Follows r .reading (readIssued ports s) counted where
  phase := hat
  programmed := ⟨hp.src, hp.dst, hp.row, hp.sourceStride, hp.destStride, hp.words⟩
  ids := by simp [Dma.readIssued, hids]
  first := hfirst.trans (Nat.le_succ _)
  reads := by
    rw [readsFrom_append (readIssued_issued ports s) (hids ▸ hfirst), hreads,
      List.flatMap_singleton, hp.packetReads s.nextTid hat.words.2.1]
    exact map_range_add _ _ _
  writes := by
    rw [writesFrom_append (readIssued_issued ports s) (hids ▸ hfirst), hwrites]
    exact List.append_nil _
  ownReads := by
    rw [readBursts_readIssued ports hr]
    intro b hb
    rw [List.mem_singleton.mp hb]
    exact hfirst
  ownWrites := by
    rw [writeBursts_readIssued]
    exact how
  counted := hc

theorem Follows.ownWrites_answered (h : Follows r ph s counted) (k : Nat) :
    ∀ b ∈ writeBursts (answered s k), r.first ≤ b.tid := by
  intro b hb
  refine h.ownWrites b ?_
  simp only [writeBursts, answered, List.mem_append] at hb ⊢
  exact hb.imp_left List.mem_of_mem_eraseIdx

theorem Follows.counted_answered (h : Follows r ph s counted) {k : Nat} (ports : Nat → Port)
    (hk : k < s.outWrites.length) :
    ∀ tid ∈ counted ++ Traced.answers s (.bus (.writeResp k ports)), r.first ≤ tid := by
  refine List.forall_mem_append.mpr ⟨h.counted, ?_⟩
  have hown := h.ownWrites s.outWrites[k] (List.mem_append_left _ (List.getElem_mem hk))
  simpa [Traced.answers, List.getElem?_eq_getElem hk] using hown

/-- **One step of a transfer** that finds its registers as they were. -/
theorem Follows.move {t : State} {a : BusAct} {ph' : Phase} (h : Follows r ph s counted)
    (hm : Move s ph a t ph') (hat : At ph' t) :
    Follows r ph' t (counted ++ Traced.answers s (.bus a)) := by
  have hp := hm.programmed h.programmed
  have hle : r.first ≤ s.issued.length := h.ids ▸ h.first
  cases hm with
  | trySend ph req resp =>
    have hrb := readBursts_trySend req resp s
    have hwb := writeBursts_trySend req resp s
    have hq : requested ph (trySendPacket req resp s) = requested ph s := by
      rw [trySendPacket_eq]
      rfl
    rw [trySendPacket_eq] at hrb hwb hq hat hp ⊢
    refine ⟨hat, hp, h.ids, h.first, ?_, h.writes, ?_, ?_, ?_⟩
    · rw [hq]
      exact h.reads
    · rw [hrb]
      exact h.ownReads
    · rw [hwb]
      exact h.ownWrites
    · simpa [Traced.answers] using h.counted
  | read ports =>
    have hc : ∀ tid ∈ counted ++ Traced.answers s (.bus (.event 0 ports)), r.first ≤ tid := by
      simpa [Traced.answers] using h.counted
    exact Follows.readIssued (s := { s with events := [] }) ports hat (h.programmed.withEvents []) h.phase.reads h.ids
      h.first h.reads h.writes h.ownWrites hc
  | fill tid data ph hr hph =>
    have hnil : readBursts (afterRead (buffered { s with outReads := [] } (nextChunk s) (answer s tid data))) = [] := by
      rcases hph with rfl | rfl <;> exact hat.reads
    have hq : requested ph' (afterRead (buffered { s with outReads := [] } (nextChunk s) (answer s tid data))) =
        requested .reading s := by
      rcases hph with rfl | rfl <;> simp [requested, afterRead_wordsToBuffer, buffered]
    refine ⟨hat, hp, ?_, ?_, ?_, ?_, ?_, ?_, ?_⟩
    · rw [afterRead_nextTid, afterRead_issued]
      exact h.ids
    · rw [afterRead_nextTid]
      exact h.first
    · rw [hq, readsFrom, afterRead_issued]
      exact h.reads
    · rw [writesFrom, afterRead_issued, afterRead_wordsTransferred]
      exact h.writes
    · rw [hnil]
      simp
    · rw [writeBursts_afterRead]
      exact h.ownWrites
    · refine List.forall_mem_append.mpr ⟨h.counted, ?_⟩
      have hown := h.ownReads (readBurst s tid) (by simp [readBursts, hr])
      simpa [Traced.answers, hr] using hown
  | window ports =>
    have hi : (windowIssued ports { s with events := [] }).issued =
      s.issued ++ (windowBursts { s with events := [] }).map .writeReq := rfl
    refine ⟨hat, hp, ?_, h.first.trans (Nat.le_add_right _ _), ?_, ?_, ?_, ?_, ?_⟩
    · simp [windowIssued, h.ids]
    · rw [readsFrom_append hi hle, flatMap_packetReads_writes, List.append_nil, h.reads]
      rfl
    · rw [writesFrom_append hi hle, h.writes, (h.programmed.withEvents []).packetWrites]
      exact map_range_add _ _ _
    · rw [readBursts_windowIssued]
      exact h.ownReads
    · intro b hb
      rcases mem_writeBursts_windowIssued hb with hb | hb
      · exact h.ownWrites b hb
      · exact h.first.trans (le_tid_of_mem_burstsOf hb)
    · simpa [Traced.answers] using h.counted
  | answer ph k ports hk hne =>
    refine ⟨hat, hp, h.ids, h.first, ?_, h.writes, h.ownReads, h.ownWrites_answered k, h.counted_answered ports hk⟩
    exact h.reads
  | complete k ports hk hpend hw =>
    exact ⟨hat, hp, h.ids, h.first, h.reads, h.writes, h.ownReads, h.ownWrites_answered k, h.counted_answered ports hk⟩
  | next k ports hk hpend hw =>
    exact Follows.readIssued ports hat (h.programmed.nextWindow k) h.phase.reads h.ids h.first h.reads h.writes
      (h.ownWrites_answered k) (h.counted_answered ports hk)

end Follows

theorem map_range_prefix {α : Type} (f : Nat → α) {m n : Nat} (h : m ≤ n) :
    (List.range m).map f <+: (List.range n).map f := by
  obtain ⟨k, rfl⟩ := Nat.exists_eq_add_of_le h
  rw [← map_range_add]
  exact List.prefix_append _ _

theorem At.requested_le {ph : Phase} {s : State} (h : At ph s) :
    requested ph s ≤ s.totalWords ∧ s.wordsTransferred ≤ s.totalWords := by
  have hw := h.words
  have hn := (nextChunk_le s).2
  cases ph <;> simp only [Phase.Words, requested, reduceCtorEq, if_true, if_false] at hw ⊢ <;> omega

theorem Follows.isolated {r : Transfer} {ph : Phase} {t : Traced} (h : Follows r ph (running r ph t.dma) t.counted) :
    Isolated r t := by
  obtain ⟨hq, hw⟩ := h.phase.requested_le
  rw [h.programmed.words] at hq hw
  refine ⟨?_, ?_, ?_, h.counted⟩
  · rw [show readsFrom r.first t.dma = _ from h.reads]
    exact map_range_prefix _ hq
  · rw [show writesFrom r.first t.dma = _ from h.writes]
    exact map_range_prefix _ hw
  · intro he
    have hen : t.dma.enabled = decide (ph ≠ .complete) := h.phase.enabled
    rw [he] at hen
    have hph : ph = .complete := by simpa using hen.symm
    subst hph
    obtain ⟨hb, ht⟩ := h.phase.words
    have htw := ht.trans h.programmed.words
    refine ⟨?_, ?_⟩
    · rw [show readsFrom r.first t.dma = _ from h.reads, show requested .complete _ = r.words from hb.trans htw]
    · rw [show writesFrom r.first t.dma = _ from h.writes, htw]

/-! ## Runs -/

/-- Before the first ENABLE nothing is under way; later the state follows the transfer of the last one. -/
def Traced.Inv (t : Traced) : Prop :=
  match t.transfer with
  | none => AtRest t.dma ∧ t.dma.nextTid = t.dma.issued.length
  | some r => ∃ ph, Follows r ph (running r ph t.dma) t.counted

/-- What the accesses of the registers other than a start change. -/
def Retouched (s t : State) : Prop :=
  ∃ src dst cfg done resps,
    t = { s with srcAddr := src, dstAddr := dst, dmaSizeCfg := cfg, done := done, respQ := resps }

theorem respond_eq {caller : Caller} {p : Packet} {s t : State} (h : respond caller p s = .ok t) :
    t = { s with respQ := s.respQ ++ [p] } := by
  unfold respond at h
  split at h
  · exact (Except.ok.inj h).symm
  · cases h

theorem readMmio_retouched {p : ReadReq} {recycled : Nat} {s t : State} (h : readMmio p recycled s = .ok t) :
    Retouched s t := by
  unfold readMmio at h
  cases hd : readRegister s (p.addr.toNat % 64) with
  | error e =>
    rw [hd] at h
    cases h
  | ok data =>
    rw [hd] at h
    exact ⟨_, _, _, _, _, respond_eq h⟩

theorem writeMmio_eq {ports : Nat → Port} {p : WriteReq} {recycled : Nat} {s t : State}
    (h : writeMmio ports p recycled s = .ok t) :
    ∃ u, writeRegister ports s (p.addr.toNat % 64) p.data = .ok u ∧ ∃ q, t = { u with respQ := q } := by
  unfold writeMmio at h
  cases hu : writeRegister ports s (p.addr.toNat % 64) p.data with
  | error e =>
    rw [hu] at h
    cases h
  | ok u =>
    rw [hu] at h
    exact ⟨u, rfl, _, respond_eq h⟩

theorem writeRegister_retouched {ports : Nat → Port} {s t : State} {addr : Nat} {data : Word}
    (hne : ¬ (addr = 0 ∧ data.getLsbD 0 = true)) (h : writeRegister ports s addr data = .ok t) : Retouched s t := by
  unfold writeRegister at h
  split at h
  · rw [if_neg (fun hd => hne ⟨rfl, hd⟩)] at h
    exact ⟨s.srcAddr, s.dstAddr, s.dmaSizeCfg, s.done, s.respQ, (Except.ok.inj h).symm⟩
  · exact ⟨data, s.dstAddr, s.dmaSizeCfg, s.done, s.respQ, (Except.ok.inj h).symm⟩
  · exact ⟨s.srcAddr, data, s.dmaSizeCfg, s.done, s.respQ, (Except.ok.inj h).symm⟩
  · exact ⟨s.srcAddr, s.dstAddr, data, s.done, s.respQ, (Except.ok.inj h).symm⟩
  · exact ⟨s.srcAddr, s.dstAddr, s.dmaSizeCfg, false, s.respQ, (Except.ok.inj h).symm⟩
  · cases h

/-- The accesses of the registers leave the transfer as it is. -/
theorem Retouched.running {s t : State} (h : Retouched s t) (r : Transfer) (ph : Phase) :
    running r ph t = running r ph s := by
  obtain ⟨src, dst, cfg, done, resps, rfl⟩ := h
  rfl

theorem Retouched.inv {s : Traced} {d : State} (h : Retouched s.dma d) (hs : s.Inv) (as : List Nat) (has : as = []) :
    Traced.Inv ⟨d, s.transfer, s.counted ++ as⟩ := by
  subst has
  unfold Traced.Inv at *
  cases hr : s.transfer with
  | none =>
    rw [hr] at hs
    obtain ⟨src, dst, cfg, done, resps, rfl⟩ := h
    exact ⟨⟨hs.1.reqQ, hs.1.events, hs.1.outReads, hs.1.outWrites⟩, hs.2⟩
  | some r =>
    rw [hr] at hs
    obtain ⟨ph, hf⟩ := hs
    refine ⟨ph, ?_⟩
    rw [h.running, List.append_nil]
    exact hf

/-- **The start of a transfer** at rest. -/
theorem follows_enable (ports : Nat → Port) {s : State} (hr : AtRest s) (hids : s.nextTid = s.issued.length)
    (resps : List Packet) : Follows ⟨s.srcAddr, s.dstAddr, s.dmaSizeCfg, s.nextTid⟩ .reading
      (running ⟨s.srcAddr, s.dstAddr, s.dmaSizeCfg, s.nextTid⟩ .reading
        { readIssued ports (started s) with respQ := resps }) [] := by
  let r : Transfer := ⟨s.srcAddr, s.dstAddr, s.dmaSizeCfg, s.nextTid⟩
  have hrun := running_readIssued (r := r) (s := started s) rfl .reading ports
  have hb : readBursts (running r .reading (started s)) = [] := by
    show s.outReads ++ s.reqQ.filterMap Packet.readReq? = []
    simp [hr.outReads, hr.reqQ]
  have hw : writeBursts (running r .reading (started s)) = [] := by
    show s.outWrites ++ s.reqQ.filterMap Packet.writeReq? = []
    simp [hr.outWrites, hr.reqQ]
  have hd : (running r .reading (started s)).issued.drop r.first = [] := by
    show s.issued.drop s.nextTid = []
    rw [hids, List.drop_length]
  have hat := at_readIssued (s := running r .reading (started s)) ports rfl rfl hr.events hb
    ⟨Nat.succ_pos _, rfl, started_totalWords_pos s⟩ (.inl hw)
  have hf : Follows r .reading (readIssued ports (running r .reading (started s))) [] :=
    Follows.readIssued ports hat ⟨rfl, rfl, rfl, rfl, rfl, rfl⟩ hb hids le_rfl
      (by rw [readsFrom, hd]; rfl) (by rw [writesFrom, hd]; rfl) (by simp [hw]) (by simp)
  rw [← hrun] at hf
  exact hf

theorem Traced.Inv.ids {t : Traced} (h : t.Inv) : t.dma.nextTid = t.dma.issued.length := by
  unfold Traced.Inv at h
  split at h
  · exact h.2
  · obtain ⟨ph, hf⟩ := h
    exact hf.ids

theorem Traced.Inv.isolated {t : Traced} (h : t.Inv) : ∀ r, t.transfer = some r → Isolated r t := by
  intro r hr
  unfold Traced.Inv at h
  rw [hr] at h
  obtain ⟨ph, hf⟩ := h
  exact hf.isolated

/-- At rest, the bus can only take a response. -/
theorem AtRest.busStep {s t : State} {a : BusAct} (h : AtRest s) (hs : busStep s a = .next t) :
    AtRest t ∧ t.nextTid = s.nextTid ∧ t.issued = s.issued ∧ Traced.answers s (.bus a) = [] := by
  cases a with
  | trySend req resp =>
    obtain rfl := Outcome.next.inj hs
    rw [trySendPacket_eq]
    refine ⟨⟨?_, h.events, ?_, ?_⟩, rfl, rfl, rfl⟩ <;> simp [h.reqQ, h.outReads, h.outWrites]
  | event k ports =>
    rw [busStep_event_none ports (by simp [h.events])] at hs
    cases hs
  | readResp k data => simp [Dma.busStep, h.outReads] at hs
  | writeResp k ports => simp [Dma.busStep, h.outWrites] at hs

theorem Traced.Inv.bus {t : Traced} {a : BusAct} {d : State} (h : t.Inv) (hc : Respects t (.bus a))
    (hs : busStep t.dma a = .next d) : Traced.Inv ⟨d, t.transfer, t.counted ++ answers t.dma (.bus a)⟩ := by
  unfold Traced.Inv at *
  cases hr : t.transfer with
  | none =>
    rw [hr] at h
    obtain ⟨h1, h2, h3, -⟩ := h.1.busStep hs
    exact ⟨h1, by rw [h2, h3]; exact h.2⟩
  | some r =>
    rw [hr] at h
    obtain ⟨ph, hf⟩ := h
    obtain ⟨ph', hm, hat⟩ := move_running hf.phase (hc.source r hr) (hc.dest r hr) hs
    exact ⟨ph', hf.move hm hat⟩

/-- **One step**, of the bus or of a master that programs the module. -/
theorem Traced.Inv.step {t u : Traced} {a : Act} (h : t.Inv) (hc : Respects t a) (hs : t.step a = .next u) :
    u.Inv := by
  unfold Traced.step at hs
  obtain ⟨d, hd, hu⟩ := Outcome.bind_eq_next.mp hs
  obtain rfl := Outcome.next.inj hu
  cases a with
  | bus a => exact h.bus hc hd
  | readMmio p recycled =>
    exact (readMmio_retouched (Outcome.ofExcept_eq_next.mp hd)).inv h _ rfl
  | writeMmio ports p recycled =>
    obtain ⟨v, hv, q, rfl⟩ := writeMmio_eq (Outcome.ofExcept_eq_next.mp hd)
    by_cases he : Enables (.writeMmio ports p recycled)
    · rw [if_pos he]
      rw [he.1, writeRegister_enable ports t.dma he.2] at hv
      obtain rfl := Except.ok.inj hv
      exact ⟨.reading, follows_enable ports (hc.enable he) h.ids q⟩
    · rw [if_neg he]
      obtain ⟨src, dst, cfg, done, resps, rfl⟩ := writeRegister_retouched he hv
      exact Retouched.inv ⟨src, dst, cfg, done, q, rfl⟩ h _ rfl

/-- **Main result.** If every ENABLE finds the module at rest, and every call that builds a burst finds the base
address of the last ENABLE in its register, then in every state of the run the transfer under way has read and
written what its registers at ENABLE say, and counted no answer but its own, whatever else is programmed when. -/
theorem isolated_of_respects (as : List Act) (hc : Along Traced.step Respects Traced.start as) :
    Always Traced.step (fun _ => False) (fun t => ∀ r, t.transfer = some r → Isolated r t) Traced.start as :=
  Always.of_inv (fun _ => Traced.Inv.isolated) (fun _ _ _ h hc hs => h.step hc hs) (fun _ _ _ _ _ _ hf => hf)
    (show Traced.Inv Traced.start from ⟨⟨rfl, rfl, rfl, rfl⟩, rfl⟩) hc

/-! ## Programming during a transfer -/

/-- A store of the CPU to a register. -/
def store (addr data : Word) : Act :=
  .writeMmio (fun _ => free) { caller := .cpu, tid := 0, instr := {}, op := .SW, addr, data } 0

/-- A transfer of one word from 0 to 64, the next configuration, and the word's way through the bus. -/
def nextSize : List Act :=
  [store 0x8 64, store 0xC 0x00000300, store 0x0 1, store 0xC 0x00000700, .bus (.readResp 0 fun _ => 7),
    .bus (.event 0 fun _ => free)]

theorem isolated_of_respects_nextSize : Along Traced.step Respects Traced.start nextSize ∧
    Always Traced.step (fun _ => False) (fun t => ∀ r, t.transfer = some r → Isolated r t) Traced.start nextSize := by
  have hc : Along Traced.step Respects Traced.start nextSize := by
    have hquiet (t : Traced) (addr data : Word) (h : ¬ Traced.Enables (store addr data)) :
        Respects t (store addr data) := ⟨fun he => absurd he h, fun _ _ hb => hb.elim, fun _ _ hb => hb.elim⟩
    refine ⟨hquiet _ _ _ (by decide), hquiet _ _ _ (by decide), ?_, hquiet _ _ _ (by decide), ?_, ?_, trivial⟩
    · exact ⟨fun _ => ⟨rfl, rfl, rfl, rfl⟩, fun _ _ hb => hb.elim, fun _ _ hb => hb.elim⟩
    · exact ⟨fun he => he.elim, fun _ _ hb => hb.elim, fun _ _ hb => hb.elim⟩
    · exact ⟨fun he => he.elim, fun _ _ hb => (nomatch hb), fun r hr _ => congrArg Transfer.dst (Option.some.inj hr)⟩
  exact ⟨hc, isolated_of_respects nextSize hc⟩

/-- The same transfer, with the destination of the next one written before the word is read. -/
def nextDest : List Act :=
  [store 0x8 64, store 0xC 0x00000300, store 0x0 1, store 0x8 128, .bus (.readResp 0 fun _ => 7),
    .bus (.event 0 fun _ => free)]

/-- The word goes to 128. -/
theorem isolated_of_respects_nextDest : ¬ ∀ as : List Act,
    Always Traced.step (fun _ => False) (fun t => ∀ r, t.transfer = some r → Isolated r t) Traced.start as := by
  intro h
  have hlast := (h nextDest).2.2.2.2.2.2 _ rfl
  exact absurd hlast.writes (by decide +kernel)

end SocModel.Dma
