import SocModel.DataMem.Forward
import SocModel.Soc.DmaCopy

/-!
# When a transfer between the DMA controller and the data memory finishes

A window the bus took at once is never left. From every other state that a transfer reaches, it can go on to its end: the
packets and the clock go on until nothing but a call of the DMA or an answer to it is left, and these lower what the
transfer has to do.

* `Dma.phaseOf`, `Dma.todo` : the phase of a state, what is left to do, `Move.todo_lt` : a move other than a hand-over
  lowers it;
* `rank` : with what is on its way, `goes_on` : some action lowers it;
* `finishes_iff` : from which states the end can be reached.
-/

namespace SocModel.Dma

open Lib Bus

/-! ## What a transfer has left to do -/

/-- The phase that a state of a transfer is in. -/
def phaseOf (s : State) : Phase :=
  if s.done then .complete
  else match s.events, s.currentState with
    | .reads :: _, _ => .readEvent
    | .writes :: _, _ => .writeEvent
    | [], .writing => .writing
    | [], _ => .reading

/-- Words to read, then phases, then answers. -/
def todo (s : State) : Nat × Nat × Nat :=
  (s.totalWords - s.wordsToBuffer, (phaseOf s).rank, (writeBursts s).length)

/-- In a window the counter is not positive: the registers took each of its bursts at once, or it was passed over. -/
def Hung (s : State) : Prop :=
  s.done = false ∧ s.events = [] ∧ s.currentState = .writing ∧ s.pendingBusWriteResponses ≤ 0

section

variable {mem : Word → Word} {r : Transfer} {ph ph' : Phase} {s t : State} {a : BusAct}

theorem Streaming.phaseOf_eq (h : Streaming mem r ph s) : phaseOf s = ph := by
  have hd := h.phase.done
  have he := h.phase.events
  have hc := h.current
  unfold phaseOf
  rw [hd, he, hc]
  cases ph <;> rfl

/-- A state is in one phase. -/
theorem At.unique (h : At ph s) (h' : At ph' s) : ph = ph' := by
  have hd := h.done.symm.trans h'.done
  have he := h.events.symm.trans h'.events
  have hr := h.reads
  have hr' := h'.reads
  -- only a read burst without an answer tells the phases without a scheduled call apart
  cases ph <;> cases ph' <;> simp only [Phase.Reads] at hr hr' <;> first
    | rfl
    | exact absurd he (by decide)
    | exact absurd hd (by decide)
    | (obtain ⟨tid, hr⟩ := hr
       rw [hr'] at hr
       cases hr)
    | (obtain ⟨tid, hr'⟩ := hr'
       rw [hr] at hr'
       cases hr')

theorem Streaming.hung_iff (h : Streaming mem r ph s) : Hung s ↔ Trapped s := by
  constructor
  · rintro ⟨hd, he, hc, hp⟩
    obtain rfl : ph = .writing := by
      rw [← h.phaseOf_eq]
      unfold phaseOf
      rw [hd, he, hc]
      rfl
    exact ⟨h.phase, hp⟩
  · rintro ⟨hat, hp⟩
    obtain rfl := h.phase.unique hat
    exact ⟨hat.done, hat.events, h.current, hp⟩

theorem Streaming.progress_iff (h : Streaming mem r ph s) : Progress s ↔ ¬ Hung s := by
  rw [h.hung_iff]
  constructor
  · rintro ⟨ph', hat, hp⟩ ⟨hw, hle⟩
    have := hp (hat.unique hw)
    omega
  · intro hn
    refine ⟨ph, h.phase, fun hph => ?_⟩
    subst hph
    by_contra hlt
    exact hn ⟨h.phase, by omega⟩

theorem todo_trySend (req resp : Port) (s : State) : todo (trySendPacket req resp s) = todo s := by
  unfold todo
  rw [writeBursts_trySend, trySendPacket_eq]
  rfl

/-- A move other than a hand-over leaves less to do. -/
theorem Streaming.todo_lt (h : Streaming mem r ph s) (ht : Streaming mem r ph' t) (hm : Move s ph a t ph')
    (ha : ∀ req resp, a ≠ .trySend req resp) : Less (todo t) (todo s) := by
  have hs := h.phaseOf_eq
  have ht := ht.phaseOf_eq
  unfold todo
  rw [hs, ht]
  cases hm with
  | trySend ph req resp => exact absurd rfl (ha req resp)
  | read ports => exact less_rank (by decide)
  | window ports => exact less_rank (by decide)
  | complete k ports hk hp hw => exact less_rank (by decide)
  | next k ports hk hp hw => exact less_rank (by decide)
  | answer ph k ports hk hp =>
    have := length_writeBursts_answered hk
    exact less_queue (by omega)
  | fill tid data ph hr hph =>
    have hpos := nextChunk_pos h.phase.words.1 h.phase.words.2.2
    have hlt := h.phase.words.2.2
    refine less_words ?_
    unfold afterRead
    split <;> simp only [State.schedule, buffered] <;> omega

end

end SocModel.Dma

namespace SocModel.Soc

open Lib Bus
open Dma (Transfer Streaming Asks handed settled)

/-! ## What is on its way -/

/-- The packets on their way, the earlier ones heavier: a burst becomes up to four beats and one more event. -/
def DmaMemory.weight (s : DmaMemory) : Nat :=
  18 * s.dma.reqQ.length + 17 * s.requests.length + DataMem.backlog s.dm + s.responses.length

/-- What is left to do. -/
def DmaMemory.rank (s : DmaMemory) : (Nat × Nat × Nat) × Nat × Nat :=
  (Dma.todo s.dma, s.weight, DataMem.wait s.dm)

abbrev DmaMemory.Less : (Nat × Nat × Nat) × Nat × Nat → (Nat × Nat × Nat) × Nat × Nat → Prop :=
  Prod.Lex Dma.Less (Prod.Lex (· < ·) (· < ·))

theorem DmaMemory.wellFounded_less : WellFounded DmaMemory.Less :=
  WellFounded.prod_lex (WellFounded.prod_lex Nat.lt_wfRel.wf (WellFounded.prod_lex Nat.lt_wfRel.wf Nat.lt_wfRel.wf))
    (WellFounded.prod_lex Nat.lt_wfRel.wf Nat.lt_wfRel.wf)

/-- The transfer is complete, and every burst is answered. -/
def DmaMemory.Finished (s : DmaMemory) : Prop := s.dma.done = true ∧ Dma.writeBursts s.dma = []

section

variable {lat : Nat} {m : BaseMemory} {v : Store} {mem : Word → Word} {r : Transfer} {n : Nat} {s t : DmaMemory}

theorem less_of_weight_lt (hd : Dma.todo t.dma = Dma.todo s.dma) (h : t.weight < s.weight) :
    DmaMemory.Less t.rank s.rank := by
  unfold DmaMemory.rank
  rw [hd]
  exact Prod.Lex.right _ (Prod.Lex.left _ _ h)

namespace Carried

/-- A step of the run that leaves less to do. -/
def GoesOn (lat : Nat) (s : DmaMemory) : Prop :=
  ∃ a t, DmaMemory.step lat s a = .next t ∧ (Dma.Progress s.dma → Dma.Progress t.dma) ∧ DmaMemory.Less t.rank s.rank

/-- A call of the DMA, or an answer that reaches it. -/
theorem goesOn_dma (h : Carried lat m mem r n s) (hm : Placed m v mem r) {act : DmaMemory.Act} {a : Dma.BusAct}
    {d : Dma.State} {s' : DmaMemory} (ha : ∀ req resp, a ≠ .trySend req resp) (hc : Dma.QueuesAWrite s.dma a)
    (hs : Dma.busStep s.dma a = .next d)
    (hact : DmaMemory.step lat s act = s'.onDma (settled s.dma a) (Dma.busStep s.dma a)) : GoesOn lat s := by
  rw [hs] at hact
  obtain ⟨ph, hst⟩ := h.streaming
  obtain ⟨ph', hmove, hat⟩ := hst.phase.move hs
  have hcar := h.step hm hact
  obtain ⟨ph'', hst'⟩ := hcar.streaming
  obtain rfl := hat.unique hst'.phase
  exact ⟨act, _, hact, fun hp => hp.step hc hs, Prod.Lex.left _ _ (hst.todo_lt hst' hmove ha)⟩

theorem busStep_next (h : Carried lat m mem r n s) {a : Dma.BusAct} {x : Except Fault Dma.State}
    (hx : Dma.busStep s.dma a = .ofExcept x) : ∃ d, Dma.busStep s.dma a = .next d := by
  obtain ⟨ph, hst⟩ := h.streaming
  rcases x with e | d
  · exact absurd hx hst.phase.ne_fault
  · exact ⟨d, hx⟩

theorem goesOn_deliver (h : Carried lat m mem r n s) (hm : Placed m v mem r) (hr : s.responses ≠ []) : GoesOn lat s := by
  obtain ⟨p, ps, hp⟩ := List.exists_cons_of_ne_nil hr
  obtain ⟨a, hbus, hset, -, hans, -⟩ := h.take hm (hp ▸ List.mem_cons_self) fun _ => Dma.stalled
  obtain ⟨d, hd⟩ := h.busStep_next hbus
  have hact : DmaMemory.step lat s (.deliver 0 fun _ => Dma.stalled) =
      { s with responses := s.responses.eraseIdx 0, delivered := s.delivered ++ [p] }.onDma (settled s.dma a)
        (Dma.busStep s.dma a) := by
    rw [hset, hbus]
    simp only [DmaMemory.step, hp, List.getElem?_cons_zero]
  refine h.goesOn_dma hm ?_ ?_ hd hact
  · rintro req resp rfl
    rcases hans with ⟨k, data, hk⟩ | ⟨k, hk⟩ <;> cases hk
  · rcases hans with ⟨k, data, rfl⟩ | ⟨k, rfl⟩ <;> trivial

theorem goesOn_call (h : Carried lat m mem r n s) (hm : Placed m v mem r) (he : s.dma.events ≠ []) : GoesOn lat s := by
  obtain ⟨e, es, he⟩ := List.exists_cons_of_ne_nil he
  have hget : s.dma.events[0]? = some e := by rw [he]; rfl
  have hbus := Dma.busStep_event (fun _ => Dma.stalled) hget
  obtain ⟨d, hd⟩ := h.busStep_next hbus
  have hact : DmaMemory.step lat s (.call 0 fun _ => Dma.stalled) =
      s.onDma (settled s.dma (.event 0 fun _ => Dma.stalled)) (Dma.busStep s.dma (.event 0 fun _ => Dma.stalled)) := rfl
  refine h.goesOn_dma hm ?_ ?_ hd hact
  · intro req resp hc
    cases hc
  -- the window has a burst, and the stalled register makes it wait
  · intro hw
    obtain ⟨ph, hst⟩ := h.streaming
    have hev := hst.phase.events
    have hwords := hst.phase.words
    refine ⟨0, Dma.burstCount_pos ?_, rfl⟩
    rw [hev] at hw
    cases ph <;> simp only [Dma.Phase.events, List.getElem?_nil, List.getElem?_cons_zero, Option.some.injEq,
      reduceCtorEq] at hw
    exact hwords.1.1

/-- The data memory, or its clock. -/
theorem goesOn_dm (h : Carried lat m mem r n s) (hm : Placed m v mem r)
    (hw : s.dm.respQ ≠ [] ∨ s.dm.events ≠ [] ∨ s.dm.stepped = true) : GoesOn lat s := by
  have hserve : ∀ b ∈ DataMem.pendingBeats s.dm.events, ∃ m' x, DataMem.serveBeat b s.dm.base = .ok (m', x) :=
    fun b hb => h.serves hm hb
  obtain ⟨a, dm, hpops, hdm, hl⟩ := DataMem.exists_lighter lat h.inv.future hserve hw
  obtain ⟨act, hact⟩ : ∃ act, DmaMemory.step lat s act = s.onDm lat a := by
    rcases a with ⟨port, _ | p⟩ | ⟨k, port⟩ | port | _
    · exact ⟨.dmStep port none, rfl⟩
    · cases hpops
    · exact ⟨.event k port, rfl⟩
    · exact ⟨.retry port, rfl⟩
    · exact ⟨.tick, rfl⟩
  have hnext : s.onDm lat a = .next { s with dm, responses := s.responses ++ dm.sent.drop s.dm.sent.length } := by
    unfold DmaMemory.onDm
    rw [hdm]
    rfl
  refine ⟨act, _, hact.trans hnext, id, ?_⟩
  rcases hl with hlt | ⟨heq, hsent, hwait⟩
  · refine less_of_weight_lt rfl ?_
    simp only [DmaMemory.weight, List.length_append, List.length_drop]
    omega
  · refine Prod.Lex.right _ ?_
    have hweight : DmaMemory.weight { s with dm, responses := s.responses ++ dm.sent.drop s.dm.sent.length } =
        s.weight := by
      simp only [DmaMemory.weight, List.length_append, List.length_drop, hsent, heq]
      omega
    rw [hweight]
    exact Prod.Lex.right _ hwait

theorem goesOn_pop (h : Carried lat m mem r n s) (hst : s.dm.stepped = false) (hr : s.requests ≠ []) : GoesOn lat s := by
  obtain ⟨p, ps, hp⟩ := List.exists_cons_of_ne_nil hr
  have hasks := h.asking.asks p (h.left_subset p (List.mem_append_left _ (hp ▸ List.mem_cons_self)))
  obtain ⟨dm, hdm⟩ : ∃ dm, DataMem.step lat s.dm (.dmStep ⟨false, true⟩ (some p)) = .next dm := by
    cases hd : DataMem.step lat s.dm (.dmStep ⟨false, true⟩ (some p)) with
    | next dm => exact ⟨dm, rfl⟩
    | fault e => exact absurd hd (pop_ne_fault hasks s.dm _ e)
    | blocked =>
      simp only [DataMem.step, hst, Bool.false_eq_true, if_false] at hd
      exact absurd hd (Dma.ofExcept_ne_blocked _)
  have hact : DmaMemory.step lat s (.dmStep ⟨false, true⟩ (some 0)) =
      .next ⟨s.dma, ps, dm, s.responses ++ dm.sent.drop s.dm.sent.length, s.delivered⟩ := by
    simp only [DmaMemory.step, hp, List.getElem?_cons_zero, List.eraseIdx_cons_zero, DmaMemory.onDm, hdm,
      Outcome.bind_next]
  have hload := DataMem.pop_backlog hdm
  have hsize := hasks.length_le
  refine ⟨_, _, hact, id, less_of_weight_lt rfl ?_⟩
  simp only [DmaMemory.weight, hp, List.length_append, List.length_drop, List.length_cons]
  omega

theorem goesOn_trySend (h : Carried lat m mem r n s) (hq : s.dma.reqQ ≠ []) : GoesOn lat s := by
  obtain ⟨p, ps, hp⟩ := List.exists_cons_of_ne_nil hq
  have hasks : ∀ q ∈ s.dma.reqQ, Dma.IsRequest q := fun q hq =>
    (h.asking.asks q (h.places.subset (List.mem_append_right _ hq))).isRequest
  have hqueue := (Dma.hands_trySend Dma.free Dma.free hasks).queue.length_eq
  have hact : DmaMemory.step lat s (.trySend Dma.free Dma.free) = .next { s with
      dma := Dma.trySendPacket Dma.free Dma.free s.dma
      requests := s.requests ++ (handed s.dma (Dma.trySendPacket Dma.free Dma.free s.dma)).filter
        (dstIdx · = getIndex .dm) } := rfl
  refine ⟨_, _, hact, fun hpr => hpr.step (a := .trySend Dma.free Dma.free) trivial rfl,
    less_of_weight_lt (Dma.todo_trySend _ _ _) ?_⟩
  have hlen : (Dma.trySendPacket Dma.free Dma.free s.dma).reqQ = ps := by
    rw [Dma.trySendPacket_eq, hp]
    rfl
  have hle := List.length_filter_le (fun q => decide (dstIdx q = getIndex .dm))
    (handed s.dma (Dma.trySendPacket Dma.free Dma.free s.dma))
  rw [List.append_nil, List.length_append, hlen, hp, List.length_cons] at hqueue
  simp only [DmaMemory.weight, hlen, hp, List.length_append, List.length_cons]
  omega

/-! ## When nothing is on its way -/

/-- The data memory has answered whatever it popped. -/
theorem length_sent (h : Carried lat m mem r n s) (he : s.dm.events = []) (hq : s.dm.respQ = []) :
    s.dm.sent.length = s.dm.popped.length := by
  obtain ⟨ks, hnodup, hks, hall⟩ := h.tracked.answered
  have hopen : ∀ k, ¬ s.dm.Open k := by
    rintro k ⟨b, hb, -⟩
    rw [he] at hb
    cases hb
  have hperm : ks.Perm (List.range s.dm.popped.length) := by
    rw [List.perm_ext_iff_of_nodup hnodup List.nodup_range]
    intro k
    rw [hks, List.mem_range]
    exact ⟨fun hk => hk.1, fun hk => ⟨hk, hopen k⟩⟩
  have hlen := hall.length_eq
  rw [hq, List.append_nil] at hlen
  rw [← hlen, hperm.length_eq, List.length_range]

/-- Then no burst is on the bus. -/
theorem onBus_nil (h : Carried lat m mem r n s) (hreq : s.requests = []) (he : s.dm.events = [])
    (hq : s.dm.respQ = []) (hresp : s.responses = []) : Dma.onBus s.dma = [] := by
  have h1 := h.waits.length_eq
  have h2 := h.answers.length_eq
  have h3 := h.length_sent he hq
  refine List.length_eq_zero_iff.mp ?_
  simp only [DmaMemory.left, hreq, hresp, List.nil_append, List.length_map, List.length_append] at h1 h2
  omega

/-- **Something goes on** in a transfer that is not finished, and it leaves less to do. -/
theorem goes_on (h : Carried lat m mem r n s) (hm : Placed m v mem r) (hp : Dma.Progress s.dma)
    (hd : ¬ s.Finished) : GoesOn lat s := by
  by_cases hresp : s.responses = []
  swap
  · exact h.goesOn_deliver hm hresp
  by_cases hdm : s.dm.respQ ≠ [] ∨ s.dm.events ≠ [] ∨ s.dm.stepped = true
  · exact h.goesOn_dm hm hdm
  simp only [not_or, not_not, ne_eq, Bool.not_eq_true] at hdm
  obtain ⟨hq, he, hst⟩ := hdm
  by_cases hreq : s.requests = []
  swap
  · exact h.goesOn_pop hst hreq
  by_cases hqueue : s.dma.reqQ = []
  swap
  · exact h.goesOn_trySend hqueue
  by_cases hev : s.dma.events = []
  swap
  · exact h.goesOn_call hm hev
  -- nothing is left to happen, so the transfer is complete
  obtain ⟨hr, hw⟩ := List.append_eq_nil_iff.mp (h.onBus_nil hreq he hq hresp)
  have hr := List.map_eq_nil_iff.mp hr
  have hw := List.map_eq_nil_iff.mp hw
  obtain ⟨ph, hphase⟩ := h.streaming
  have hwrites : Dma.writeBursts s.dma = [] := by
    rw [Dma.writeBursts, hw, hqueue]
    rfl
  have hdone : s.dma.done = false := by
    rcases hdn : s.dma.done with _ | _
    · rfl
    · exact absurd ⟨hdn, hwrites⟩ hd
  have henabled : s.dma.enabled = true := by
    have h1 := hphase.phase.enabled
    have h2 := hphase.phase.done
    rw [hdone] at h2
    rw [h1]
    simpa using h2
  exact absurd ⟨henabled, hdone, hqueue, hr, hw, hev⟩ hp.not_stuck

theorem exists_finished (h : Carried lat m mem r n s) (hm : Placed m v mem r) (hp : Dma.Progress s.dma) :
    ∃ as t, Reaches (DmaMemory.step lat) s as t ∧ t.Finished := by
  refine exists_reaches_of_rank DmaMemory.wellFounded_less DmaMemory.rank
    (I := fun s => Carried lat m mem r n s ∧ Dma.Progress s.dma) ?_ ⟨h, hp⟩
  clear h hp
  rintro s ⟨h, hp⟩
  by_cases hd : s.Finished
  · exact .inl hd
  · obtain ⟨a, t, ht, hpt, hl⟩ := h.goes_on hm hp hd
    exact .inr ⟨a, t, ht, ⟨h.step hm ht, hpt hp⟩, hl⟩

/-- What a step does to the DMA is a step of the DMA. -/
theorem dma_step (h : Carried lat m mem r n s) (hm : Placed m v mem r) {a : DmaMemory.Act}
    (hs : DmaMemory.step lat s a = .next t) : t.dma = s.dma ∨ ∃ b, Dma.busStep s.dma b = .next t.dma := by
  have hdm : ∀ (u : DmaMemory) (act : DataMem.Act), u.dma = s.dma → u.onDm lat act = .next t → t.dma = s.dma := by
    intro u act hu hs
    obtain ⟨dm, -, rfl⟩ := onDm_eq_next hs
    exact hu
  have hdma : ∀ (u : DmaMemory) (d : Dma.State) (o : Outcome Fault Dma.State), u.onDma d o = .next t →
      o = .next t.dma := by
    intro u d o hs
    obtain ⟨dma, ho, ht⟩ := Outcome.bind_eq_next.mp hs
    rw [ho, ← Outcome.next.inj ht]
  rcases a with ⟨req, resp⟩ | ⟨k, ports⟩ | ⟨k, ports⟩ | ⟨port, _ | k⟩ | ⟨k, port⟩ | port | _
  · exact .inr ⟨_, hdma _ _ _ hs⟩
  · exact .inr ⟨_, hdma _ _ _ hs⟩
  · simp only [DmaMemory.step] at hs
    split at hs
    · cases hs
    next p hk =>
    obtain ⟨b, hbus, -⟩ := h.take hm (List.mem_of_getElem? hk) ports
    exact .inr ⟨b, hbus.trans (hdma _ _ _ hs)⟩
  · exact .inl (hdm s _ rfl hs)
  · simp only [DmaMemory.step] at hs
    split at hs
    · cases hs
    · exact .inl (hdm { s with requests := s.requests.eraseIdx k } _ rfl hs)
  · exact .inl (hdm s _ rfl hs)
  · exact .inl (hdm s _ rfl hs)
  · exact .inl (hdm s _ rfl hs)

/-- A window that is never left. -/
theorem not_finished (h : Carried lat m mem r n s) (hm : Placed m v mem r) (ht : Dma.Trapped s.dma)
    {as : List DmaMemory.Act} {u : DmaMemory} (hu : Reaches (DmaMemory.step lat) s as u) : ¬ u.Finished := by
  have hi := hu.inv' (I := fun u => Carried lat m mem r n u ∧ Dma.Trapped u.dma) (fun s a t hi hs => by
    refine ⟨hi.1.step hm hs, ?_⟩
    rcases hi.1.dma_step hm hs with heq | ⟨b, hb⟩
    · exact heq ▸ hi.2
    · exact hi.2.step hb) ⟨h, ht⟩
  rintro ⟨hd, -⟩
  rw [hi.2.1.done] at hd
  cases hd

end Carried

/-- **When a transfer finishes.** For every latency and from every state that a transfer of whole words reaches beside the
data memory, its end is within reach exactly when it is not in a window whose counter has come to nothing. -/
theorem dma_finishes_iff (lat : Nat) (s : Dma.State) (m : BaseMemory) (hr : Dma.AtRest s) (hv : Dma.Valid s m.size)
    (hw : (Dma.dstRect s).width % 4 = 0) (hd : AtDataMemory s) (ports : Nat → Port) (t : DmaMemory)
    (ht : DmaMemory.start ports s m = .ok t) (as : List DmaMemory.Act) (u : DmaMemory)
    (hu : Reaches (DmaMemory.step lat) t as u) :
    (∃ bs w, Reaches (DmaMemory.step lat) u bs w ∧ w.Finished ∧
      Dma.IsCopy (Dma.srcRect s) (Dma.dstRect s) m.mem w.dm.base.mem) ↔ ¬ Dma.Hung u.dma := by
  have hm := placed_of_valid hv hw hd
  have hcar : Carried lat m (wordAt m) (.of s) s.nextTid u := carried_of_reaches hr hm ht hu
  obtain ⟨ph, hst⟩ := hcar.streaming
  constructor
  · rintro ⟨bs, w, hbs, hfin, -⟩ hhung
    exact hcar.not_finished hm (hst.hung_iff.mp hhung) hbs hfin
  · intro hn
    obtain ⟨bs, w, hbs, hfin⟩ := hcar.exists_finished hm (hst.progress_iff.mpr hn)
    exact ⟨bs, w, hbs, hfin, ((carried_of_reaches hr hm ht (hu.trans hbs)).copying hv hw hd).whole hfin.1 hfin.2⟩

theorem dma_finishes_iff_fourBytes : ∃ t bs w, DmaMemory.start (fun _ => Dma.stalled) (Dma.oneRow 0x04040300) addresses =
    .ok t ∧ Reaches (DmaMemory.step 3) t bs w ∧ w.Finished ∧ w.dm.base.mem 66 = 2 := by
  have ht := start_eq (fun _ => Dma.stalled) (Dma.oneRow 0x04040300) addresses
  obtain ⟨bs, w, hbs, hfin, hcopy⟩ := (dma_finishes_iff 3 (Dma.oneRow 0x04040300) addresses ⟨rfl, rfl, rfl, rfl⟩
    valid_fourBytes (by decide) (atDataMemory_of_le valid_fourBytes (by decide)) (fun _ => Dma.stalled) _ ht [] _
    (.refl _)).mpr fun h => absurd h.2.2.1 (by decide)
  exact ⟨_, bs, w, ht, hbs, hfin, hcopy.1 0 (by decide) 2 (by decide)⟩

end

end SocModel.Soc
