import SocModel.DataMem.Bursts
import SocModel.Dma.Bursts

/-!
# What a transfer hands to the bus

Every burst that a transfer builds is handed to the bus or queued for it, and asks for the words of the transfer under an
id of its own.

* `onBus s`, `handed s t` : the bursts on the bus, and those that a call put there; `settled s a` : the state without the
  burst that `a` answers;
* `Move.hands` : what is built is handed over or queued;
* `Asks` : a request of a transfer, `Asking` : the bursts issued since its start, `Asking.move` : every move keeps it.
-/

namespace SocModel.Dma

open Lib Bus

/-! ## Handing over -/

/-- The bursts on the bus. -/
def onBus (s : State) : List Packet := s.outReads.map Packet.readReq ++ s.outWrites.map Packet.writeReq

/-- The bursts that are on the bus in `t` and not in `s`. -/
def handed (s t : State) : List Packet :=
  (t.outReads.drop s.outReads.length).map Packet.readReq ++ (t.outWrites.drop s.outWrites.length).map Packet.writeReq

/-- The state without the burst that the action answers. -/
def settled (s : State) : BusAct → State
  | .readResp k _ => { s with outReads := s.outReads.eraseIdx k }
  | .writeResp k _ => { s with outWrites := s.outWrites.eraseIdx k }
  | _ => s

/-- The packets that a master sends. -/
def IsRequest (p : Packet) : Prop := (∃ b, p = .readReq b) ∨ ∃ b, p = .writeReq b

/-- From `s` to `t` the packets `new` are built: they are handed over, or queued behind those that wait. -/
structure Hands (s t : State) (new : List Packet) : Prop where
  reads : s.outReads <+: t.outReads
  writes : s.outWrites <+: t.outWrites
  queue : (handed s t ++ t.reqQ).Perm (s.reqQ ++ new)

theorem Hands.onBus {s t : State} {new : List Packet} (h : Hands s t new) :
    (onBus t).Perm (Dma.onBus s ++ handed s t) := by
  obtain ⟨rs, hr⟩ := h.reads
  obtain ⟨ws, hw⟩ := h.writes
  unfold Dma.onBus handed
  rw [← hr, ← hw, List.drop_left, List.drop_left, List.map_append, List.map_append, List.perm_iff_count]
  intro p
  simp only [List.count_append]
  omega

theorem onBus_settled_subset (s : State) (a : BusAct) : ∀ p ∈ onBus (settled s a), p ∈ onBus s := by
  intro p hp
  rcases a with _ | _ | ⟨k, data⟩ | ⟨k, ports⟩
  · exact hp
  · exact hp
  · rcases List.mem_append.mp hp with hp | hp
    · exact List.mem_append_left _ (List.map_subset _ (List.eraseIdx_subset (k := k)) hp)
    · exact List.mem_append_right _ hp
  · rcases List.mem_append.mp hp with hp | hp
    · exact List.mem_append_left _ hp
    · exact List.mem_append_right _ (List.map_subset _ (List.eraseIdx_subset (k := k)) hp)

theorem requests_perm {l : List Packet} (h : ∀ p ∈ l, IsRequest p) :
    ((l.filterMap Packet.readReq?).map Packet.readReq ++ (l.filterMap Packet.writeReq?).map Packet.writeReq).Perm l := by
  induction l with
  | nil => exact .nil
  | cons p l ih =>
    have hl := ih fun q hq => h q (List.mem_cons_of_mem p hq)
    rcases h p List.mem_cons_self with ⟨b, rfl⟩ | ⟨b, rfl⟩
    · exact hl.cons _
    · exact List.perm_middle.trans (hl.cons _)

theorem accepted_refused_perm (ports : Nat → Port) (k : Nat) (ps : List (Burst WriteReq)) :
    (accepted ports k ps ++ refused ports k ps).Perm ps := by
  induction ps generalizing k with
  | nil => exact .nil
  | cons p ps ih =>
    rw [accepted_cons, refused_cons]
    split
    · exact (ih (k + 1)).cons p
    · exact List.perm_middle.trans ((ih (k + 1)).cons p)

/-- A call that leaves the bus and the queue alone. -/
theorem Hands.quiet {s t : State} (hr : t.outReads = s.outReads) (hw : t.outWrites = s.outWrites)
    (hq : t.reqQ = s.reqQ) : Hands s t [] where
  reads := hr ▸ List.prefix_rfl
  writes := hw ▸ List.prefix_rfl
  queue := by
    unfold handed
    rw [hr, hw, hq, List.drop_length, List.drop_length, List.append_nil]
    exact .refl _

/-- The bus and the queue are all that is read of the first state. -/
theorem Hands.of_eq {s s' t : State} {new : List Packet} (h : Hands s t new) (hr : s'.outReads = s.outReads)
    (hw : s'.outWrites = s.outWrites) (hq : s'.reqQ = s.reqQ) : Hands s' t new where
  reads := hr ▸ h.reads
  writes := hw ▸ h.writes
  queue := by
    have hqueue := h.queue
    unfold handed at hqueue ⊢
    rw [hr, hw, hq]
    exact hqueue

theorem hands_trySend (req resp : Port) {s : State} (hq : ∀ p ∈ s.reqQ, IsRequest p) :
    Hands s (trySendPacket req resp s) [] := by
  rw [trySendPacket_eq]
  have hdrain := drain_append req s.reqQ
  refine ⟨List.prefix_append _ _, List.prefix_append _ _, ?_⟩
  unfold handed
  rw [List.drop_left, List.drop_left, List.append_nil]
  calc _ ++ (drain req s.reqQ).1
    _ |>.Perm ((drain req s.reqQ).2 ++ (drain req s.reqQ).1) := by
      refine (requests_perm fun p hp => hq p ?_).append_right _
      rw [← hdrain]
      exact List.mem_append_left _ hp
    _ = s.reqQ := hdrain

theorem hands_readIssued (ports : Nat → Port) (s : State) :
    Hands s (readIssued ports s) [.readReq (readBurst s s.nextTid)] := by
  unfold readIssued
  by_cases h : (ports 0).transfers
  · refine ⟨by simp [h], List.prefix_rfl, ?_⟩
    simp only [handed, h, if_true, List.drop_left, List.drop_length, List.map_nil, List.append_nil]
    exact List.perm_append_comm
  · refine ⟨by simp [h], List.prefix_rfl, ?_⟩
    simp only [handed, h, if_false, Bool.false_eq_true, List.drop_length, List.map_nil, List.nil_append]
    exact .refl _

theorem hands_windowIssued (ports : Nat → Port) (s : State) :
    Hands s (windowIssued ports s) ((windowBursts s).map .writeReq) := by
  refine ⟨List.prefix_rfl, List.prefix_append _ _, ?_⟩
  have hp := (accepted_refused_perm ports 0 (windowBursts s)).map Packet.writeReq
  rw [List.map_append] at hp
  unfold handed windowIssued
  rw [List.drop_length, List.drop_left, List.map_nil, List.nil_append, ← List.append_assoc]
  refine (List.perm_append_comm.append_right _).trans ?_
  rw [List.append_assoc]
  exact hp.append_left _

/-- **What is built is handed over or queued.** -/
theorem Move.hands {s t : State} {a : BusAct} {ph ph' : Phase} (hm : Move s ph a t ph')
    (hq : ∀ p ∈ s.reqQ, IsRequest p) : Hands (settled s a) t (newBursts s a ph ph') := by
  cases hm with
  | trySend ph req resp => exact hands_trySend req resp hq
  | read ports => exact (hands_readIssued ports { s with events := [] }).of_eq rfl rfl rfl
  | window ports => exact (hands_windowIssued ports { s with events := [] }).of_eq rfl rfl rfl
  | next k ports hk hp hw =>
    exact (hands_readIssued ports { windowDone s k with currentState := .reading }).of_eq rfl rfl rfl
  | complete k ports hk hp hw => exact Hands.quiet rfl rfl rfl
  | answer ph k ports hk hp => cases ph <;> exact Hands.quiet rfl rfl rfl
  | fill tid data ph hr hph =>
    have hs : settled s (.readResp 0 data) = { s with outReads := [] } := by simp [settled, hr]
    rw [hs]
    unfold afterRead
    split <;> exact Hands.quiet rfl rfl rfl

/-! ## Ids -/

theorem tids_burstsOf (d : State) (offset tid : Nat) (ns : List Nat) :
    (burstsOf d offset tid ns).map (·.tid) = List.range' tid ns.length := by
  induction ns generalizing offset tid with
  | nil => rfl
  | cons n ns ih =>
    rw [burstsOf, List.map_cons, ih, List.length_cons, List.range'_succ]
    rfl

/-- What is built takes the next ids. -/
theorem Move.tids {s t : State} {a : BusAct} {ph ph' : Phase} (hm : Move s ph a t ph') :
    (newBursts s a ph ph').map Packet.tid = List.range' s.nextTid (newBursts s a ph ph').length ∧
      t.nextTid = s.nextTid + (newBursts s a ph ph').length := by
  cases hm with
  | trySend ph req resp => exact ⟨rfl, by rw [trySendPacket_eq]; rfl⟩
  | read ports => exact ⟨rfl, rfl⟩
  | next k ports hk hp hw => exact ⟨rfl, rfl⟩
  | complete k ports hk hp hw => exact ⟨rfl, rfl⟩
  | answer ph k ports hk hp => cases ph <;> exact ⟨rfl, rfl⟩
  | fill tid data ph hr hph => exact ⟨rfl, afterRead_nextTid _⟩
  | window ports =>
    have htids := tids_burstsOf { s with events := [] } 0 s.nextTid (chunkSizes s.bufferIndex)
    have hlen := length_burstsOf { s with events := [] } 0 s.nextTid (chunkSizes s.bufferIndex)
    have hnew : newBursts s (.event 0 ports) .writeEvent .writing =
      (burstsOf { s with events := [] } 0 s.nextTid (chunkSizes s.bufferIndex)).map Packet.writeReq := rfl
    rw [hnew, List.map_map, List.length_map, hlen]
    refine ⟨htids, ?_⟩
    show s.nextTid + (windowBursts { s with events := [] }).length = _
    rw [windowBursts, hlen]

/-! ## The requests of a transfer -/

/-- A request of the transfer `r` beside the memory `mem`: it reads words of the source, or writes words of the destination
as the memory has them in the source. -/
inductive Asks (r : Transfer) (mem : Word → Word) : Packet → Prop
  | read {b : Burst ReadReq} (sized : Sized b) (request : DataMem.IsRequest .dma (.readReq b))
      (slave : ∃ g < r.words, b.dstIdx = slaveIndex (r.readAddr g))
      (beats : ∀ q ∈ b.payloads, q.op = .LW ∧ ∃ g < r.words, q.addr = r.readAddr g) : Asks r mem (.readReq b)
  | write {b : Burst WriteReq} (sized : Sized b) (request : DataMem.IsRequest .dma (.writeReq b))
      (slave : ∃ g < r.words, b.dstIdx = slaveIndex (r.writeAddr g))
      (beats : ∀ q ∈ b.payloads, ∃ g < r.words, beat q = r.beat mem g) : Asks r mem (.writeReq b)

theorem Asks.isRequest {r : Transfer} {mem : Word → Word} {p : Packet} (h : Asks r mem p) : IsRequest p := by
  rcases h with - | -
  · exact .inl ⟨_, rfl⟩
  · exact .inr ⟨_, rfl⟩

theorem Asks.request {r : Transfer} {mem : Word → Word} {p : Packet} (h : Asks r mem p) : DataMem.IsRequest .dma p := by
  rcases h with ⟨-, hreq, -, -⟩ | ⟨-, hreq, -, -⟩ <;> exact hreq

theorem Asks.length_le {r : Transfer} {mem : Word → Word} {p : Packet} (h : Asks r mem p) :
    (DataMem.Packet.reqs p).length ≤ 4 := by
  rcases h with ⟨hs, -, -, -⟩ | ⟨hs, -, -, -⟩
  all_goals
    have := hs.size
    simp only [DataMem.Packet.reqs, List.length_map]
    omega

/-- What a beat of a request is. -/
theorem Asks.req_cases {r : Transfer} {mem : Word → Word} {p : Packet} (h : Asks r mem p) {q : DataMem.Req}
    (hq : q ∈ DataMem.Packet.reqs p) :
    (∃ a g, q = .read a ∧ g < r.words ∧ a.op = .LW ∧ a.addr = r.readAddr g) ∨
      ∃ a g, q = .write a ∧ g < r.words ∧ a.op = .SW ∧ a.addr = r.writeAddr g ∧ a.data = mem (r.readAddr g) := by
  rcases h with ⟨-, -, -, hb⟩ | ⟨-, -, -, hb⟩
  · obtain ⟨a, ha, rfl⟩ := List.mem_map.mp hq
    obtain ⟨hop, g, hg, haddr⟩ := hb a ha
    exact .inl ⟨a, g, rfl, hg, hop, haddr⟩
  · obtain ⟨a, ha, rfl⟩ := List.mem_map.mp hq
    obtain ⟨g, hg, hbeat⟩ := hb a ha
    obtain ⟨hop, hrest⟩ := Prod.mk.inj hbeat
    obtain ⟨haddr, hdata⟩ := Prod.mk.inj hrest
    exact .inr ⟨a, g, rfl, hg, hop, haddr, hdata⟩

/-- The bursts issued since the start are requests of the transfer, under the ids from `n` on. -/
structure Asking (mem : Word → Word) (r : Transfer) (n : Nat) (s : State) : Prop where
  first : r.first ≤ s.issued.length
  tids : (s.issued.drop r.first).map Packet.tid = List.range' n (s.issued.drop r.first).length
  next : s.nextTid = n + (s.issued.drop r.first).length
  asks : ∀ p ∈ s.issued.drop r.first, Asks r mem p

section

variable {mem : Word → Word} {r : Transfer} {s t d : State} {ph ph' : Phase} {a : BusAct} {n : Nat}

/-- The read burst of a state with room in the buffer and words left. -/
theorem asks_readBurst (hp : Programmed r d) (hw : Phase.Words d .reading) (tid : Nat) :
    Asks r mem (.readReq (readBurst d tid)) := by
  obtain ⟨hroom, hcount, hleft⟩ := hw
  have hpos := nextChunk_pos hroom hleft
  have hle := (nextChunk_le d).2
  have hwords := hp.words
  have hlen : d.wordsTransferred + d.bufferIndex + nextChunk d ≤ r.words := by omega
  refine .read (readChunk_readIssued (fun _ => free) tid hroom hleft).sized ?_ ?_ fun q hq => ?_
  · constructor
    · simp [DataMem.Packet.reqs, readBurst_payloads, hpos.ne']
    · simp [DataMem.Packet.reqs, DataMem.Req.tid, Packet.tid, readBurst]
    · simp [DataMem.Packet.reqs, readBurst_payloads, DataMem.Req.caller, readBeat]
    · rfl
  · refine ⟨d.wordsTransferred + d.bufferIndex, by omega, ?_⟩
    rw [← Nat.add_zero (d.wordsTransferred + d.bufferIndex), ← hp.readBeat_addr tid 0]
    rfl
  · rw [readBurst_payloads] at hq
    obtain ⟨i, hi, rfl⟩ := List.mem_map.mp hq
    rw [List.mem_range] at hi
    exact ⟨rfl, _, by omega, hp.readBeat_addr tid i⟩

theorem mem_burstsOf {offset tid : Nat} {ns : List Nat} {b : Burst WriteReq} (h : b ∈ burstsOf d offset tid ns) :
    ∃ o i n, b = writeBurst d o i n ∧ n ∈ ns := by
  induction ns generalizing offset tid with
  | nil => cases h
  | cons m ns ih =>
    rcases List.mem_cons.mp h with rfl | h
    · exact ⟨_, _, _, rfl, List.mem_cons_self⟩
    · obtain ⟨o, i, n, hb, hn⟩ := ih h
      exact ⟨o, i, n, hb, List.mem_cons_of_mem m hn⟩

/-- The bursts of a window. -/
theorem Streaming.asks_window (h : Streaming mem r .writeEvent s) :
    ∀ p ∈ (windowBursts { s with events := [] }).map Packet.writeReq, Asks r mem p := by
  intro p hpm
  obtain ⟨b, hb, rfl⟩ := List.mem_map.mp hpm
  obtain ⟨⟨-, hcap⟩, hcount, hle⟩ := h.phase.words
  have hwords := h.programmed.words
  have hsized := (window_windowBursts (s := { s with events := [] }) hcap).turns.sized b hb
  -- the beats are words of the buffer, which are those of the source
  have hbeats : ∀ q ∈ b.payloads, ∃ g < r.words, beat q = r.beat mem g := by
    intro q hq
    have hmem : beat q ∈ ((windowBursts { s with events := [] }).map Packet.writeReq).flatMap packetBeats :=
      List.mem_flatMap.mpr ⟨_, hpm, List.mem_map_of_mem hq⟩
    rw [h.window_beats] at hmem
    obtain ⟨j, hj, hg⟩ := List.mem_map.mp hmem
    rw [List.mem_range] at hj
    exact ⟨_, by omega, hg.symm⟩
  obtain ⟨o, i, n, rfl, -⟩ := mem_burstsOf hb
  have hpos : 0 < n := by
    have hlen := hsized.size
    rw [length_writeBurst] at hlen
    omega
  refine .write hsized (DataMem.isRequest_writeBurst (constructMemWritepktBurst_eq _ o i hpos)) ?_ hbeats
  have hhead : { writeBeat { s with events := [] } o with caller := .dma, tid := i } ∈
      (writeBurst { s with events := [] } o i n).payloads := by
    obtain ⟨k, rfl⟩ : ∃ k, n = k + 1 := ⟨n - 1, by omega⟩
    simp [writeBurst, List.range'_succ]
  obtain ⟨g, hg, hbeat⟩ := hbeats _ hhead
  refine ⟨g, hg, ?_⟩
  rw [← show (writeBeat { s with events := [] } o).addr = r.writeAddr g from congrArg (fun x => x.2.1) hbeat]
  rfl

theorem Streaming.asks_new (h : Streaming mem r ph s) (hm : Move s ph a t ph') (hat : At ph' t) :
    ∀ p ∈ newBursts s a ph ph', Asks r mem p := by
  cases hm with
  | trySend ph req resp => simp [newBursts]
  | read ports =>
    intro p hp
    rw [List.mem_singleton.mp hp]
    exact asks_readBurst (h.programmed.withEvents []) h.phase.words s.nextTid
  | fill tid data ph hr hph => simp [newBursts]
  | window ports => exact h.asks_window
  | answer ph k ports hk hp => cases ph <;> simp [newBursts]
  | complete k ports hk hp hw => simp [newBursts]
  | next k ports hk hp hw =>
    intro p hp
    rw [List.mem_singleton.mp hp]
    exact asks_readBurst (h.programmed.nextWindow k) hat.words s.nextTid

/-- **One step of the requests.** -/
theorem Asking.move (ha : Asking mem r n s) (h : Streaming mem r ph s) (hm : Move s ph a t ph') (hat : At ph' t) :
    Asking mem r n t := by
  obtain ⟨htids, hnext⟩ := hm.tids
  have hdrop : t.issued.drop r.first = s.issued.drop r.first ++ newBursts s a ph ph' := by
    rw [hm.issued, List.drop_append_of_le_length ha.first]
  refine ⟨?_, ?_, ?_, ?_⟩
  · rw [hm.issued, List.length_append]
    exact ha.first.trans (Nat.le_add_right _ _)
  · rw [hdrop, List.map_append, ha.tids, htids, ha.next, List.length_append, List.range'_append_1]
  · rw [hdrop, hnext, ha.next, List.length_append, Nat.add_assoc]
  · rw [hdrop]
    intro p hp
    rcases List.mem_append.mp hp with hp | hp
    · exact ha.asks p hp
    · exact h.asks_new hm hat p hp

variable (mem) in
theorem asking_start (ports : Nat → Port) (s : State) :
    Asking mem (.of s) s.nextTid (readIssued ports (started s)) := by
  have hissued : (readIssued ports (started s)).issued.drop (Transfer.of s).first =
      [.readReq (readBurst (started s) s.nextTid)] := List.drop_left
  refine ⟨?_, ?_, ?_, ?_⟩
  · rw [readIssued_issued, List.length_append]
    exact Nat.le_add_right _ _
  · rw [hissued]
    rfl
  · rw [hissued]
    rfl
  · rw [hissued]
    intro p hp
    rw [List.mem_singleton.mp hp]
    exact asks_readBurst (d := started s) ⟨rfl, rfl, rfl, rfl, rfl, rfl⟩
      ⟨Nat.succ_pos _, rfl, started_totalWords_pos s⟩ _

end

end SocModel.Dma
