import SocModel.Dma.Run

/-!
# When a DMA transfer completes

`scheduleWritesFromBuffer` counts the write bursts it queues and not those it pushes, `handleWriteCompletion`
counts down at every answer. So a window ends at the answer that makes up for its queued bursts: never when none
was queued, and early when only some were.

* `never_stuck` : a transfer each of whose windows queues a burst comes to rest by completing only;
* `Trapped.reaches` : a window that queues no burst is never left;
* `done_after_answers` : a transfer whose last window is pushed whole, or queued whole behind no unanswered
  burst, is done after the last answer only.
-/

namespace SocModel.Dma

open Lib Bus

/-! ## Progress -/

/-- The transfer is not complete and nothing is left to happen. -/
def Stuck (s : State) : Prop :=
  s.enabled = true ∧ s.done = false ∧ s.reqQ = [] ∧ s.outReads = [] ∧ s.outWrites = [] ∧ s.events = []

instance (s : State) : Decidable (Stuck s) := by unfold Stuck; infer_instance

/-- The call that writes a window finds a stalled or refusing register for at least one of its bursts. -/
def QueuesAWrite (s : State) : BusAct → Prop
  | .event k ports => s.events[k]? = some .writes →
      ∃ j < burstCount s.bufferIndex, (ports j).transfers = false
  | _ => True

/-- In a window, the counter is positive. -/
structure Progress (s : State) : Prop where
  phase : ∃ ph, At ph s ∧ (ph = .writing → 1 ≤ s.pendingBusWriteResponses)

theorem Progress.not_stuck {s : State} (h : Progress s) : ¬ Stuck s := by
  rintro ⟨-, hd, hq, hr, hw, he⟩
  obtain ⟨ph, ha, hp⟩ := h.phase
  have hev := ha.events
  have hdone := ha.done
  have hreads := ha.reads
  have hans := ha.answers
  cases ph with
  | readEvent => simp [he, Phase.events] at hev
  | writeEvent => simp [he, Phase.events] at hev
  | complete => simp [hd] at hdone
  | reading => simp [Phase.Reads, readBursts, hq, hr] at hreads
  | writing =>
    have := hp rfl
    simp [Phase.Answers, writeBursts, hq, hw] at hans
    omega

theorem Progress.step {s t : State} {a : BusAct} (h : Progress s) (hc : QueuesAWrite s a)
    (hs : busStep s a = .next t) : Progress t := by
  obtain ⟨ph, ha, hp⟩ := h.phase
  obtain ⟨ph', hm, hat⟩ := ha.move hs
  refine ⟨ph', hat, ?_⟩
  cases hm with
  | trySend ph req resp =>
    rw [trySendPacket_eq]
    exact hp
  | read ports => exact fun h => by cases h
  | fill tid data ph hr hph =>
    rintro rfl
    simp at hph
  | window ports =>
    have he : s.events[0]? = some .writes := by simp [ha.events, Phase.events]
    obtain ⟨j, hj, hf⟩ := hc he
    have hne : refused ports 0 (windowBursts { s with events := [] }) ≠ [] := by
      intro hnil
      have := (refused_eq_nil_iff _ _ _).mp hnil j (by simpa using hj)
      rw [Nat.zero_add, hf] at this
      cases this
    intro _
    have := List.length_pos_of_ne_nil hne
    simp only [windowIssued]
    omega
  | answer ph k ports hk hne =>
    intro hph
    have h1 := hp hph
    have h2 := hne hph
    simp only [answered]
    omega
  | complete k ports hk hp' hw => exact fun h => by cases h
  | next k ports hk hp' hw => exact fun h => by cases h

/-- **Main result.** A transfer each of whose windows queues a burst never gets stuck, for every configuration,
every answer of the registers and every order of the answers of the bus. -/
theorem never_stuck {s t : State} {ports : Nat → Port} (hs : Starts s ports t) (as : List BusAct)
    (hc : Along busStep QueuesAWrite t as) : Always busStep (fun _ => True) (fun u => ¬ Stuck u) t as :=
  Always.of_inv (fun _ => Progress.not_stuck) (fun _ _ _ hi hc hs => hi.step hc hs)
    (fun _ _ _ hi _ hs => by
      obtain ⟨ph, ha, -⟩ := hi.phase
      exact absurd hs ha.ne_fault)
    ⟨_, at_start hs, fun h => nomatch h⟩ hc

/-! ## A window without a queued burst -/

/-- A window whose counter is not positive. -/
def Trapped (s : State) : Prop := At .writing s ∧ s.pendingBusWriteResponses ≤ 0

theorem Trapped.of_window {s t : State} {k : Nat} {ports : Nat → Port} (h : At .writeEvent s)
    (hall : ∀ j < burstCount s.bufferIndex, (ports j).transfers = true)
    (hs : busStep s (.event k ports) = .next t) : Trapped t := by
  obtain ⟨ph', hm, ha⟩ := h.move hs
  cases hm
  refine ⟨ha, ?_⟩
  have hnil : refused ports 0 (windowBursts { s with events := [] }) = [] :=
    (refused_eq_nil_iff _ _ _).mpr fun j hj => by
      rw [Nat.zero_add]
      exact hall j (by simpa using hj)
  simp [windowIssued, hnil]

theorem Trapped.step {s t : State} {a : BusAct} (h : Trapped s) (hs : busStep s a = .next t) : Trapped t := by
  obtain ⟨ha, hp⟩ := h
  obtain ⟨ph', hm, hat⟩ := ha.move hs
  cases hm with
  | trySend ph req resp =>
    refine ⟨hat, ?_⟩
    rw [trySendPacket_eq]
    exact hp
  | answer ph k ports hk hne =>
    refine ⟨hat, ?_⟩
    simp only [answered]
    omega
  | complete k ports hk hp' hw => omega
  | next k ports hk hp' hw => omega

/-- A window that queues no burst is never left: the transfer is never done. -/
theorem Trapped.reaches {s t : State} {as : List BusAct} (h : Trapped s) (hr : Reaches busStep s as t) :
    t.enabled = true ∧ t.done = false := by
  have ht := hr.inv' (I := Trapped) (fun _ _ _ h hs => h.step hs) h
  exact ⟨ht.1.enabled, ht.1.done⟩

/-! ## Small transfers -/

/-- The module at rest, programmed to copy one row from address 0 to address 64. -/
def oneRow (cfg : Word) : State := { init with dstAddr := 64, dmaSizeCfg := cfg }

def free : Port := ⟨false, true⟩

def stalled : Port := ⟨true, false⟩

theorem oneRow_starts (cfg : Word) :
    Starts (oneRow cfg) (fun _ => free) (readIssued (fun _ => free) (started (oneRow cfg))) :=
  ⟨⟨rfl, rfl, rfl, rfl⟩, 1, rfl, writeRegister_enable _ _ rfl⟩

/-- A transfer of one word whose read and write are taken at once, and answered. -/
def takenAtOnce : List BusAct :=
  [.readResp 0 fun _ => 0, .event 0 fun _ => free, .writeResp 0 fun _ => free]

/-- The counter goes from 0 to -1 at the only answer. -/
theorem never_stuck_taken : ¬ ∀ (s t : State) (ports : Nat → Port), Starts s ports t → ∀ as : List BusAct,
    Always busStep (fun _ => True) (fun u => ¬ Stuck u) t as := by
  intro h
  exact (h _ _ _ (oneRow_starts 0x00000300) takenAtOnce).2.2.2 ⟨rfl, rfl, rfl, rfl, rfl, rfl⟩

/-- The same transfer with a write that waits in the queue. -/
def queuedFirst : List BusAct :=
  [.readResp 0 fun _ => 0, .event 0 fun _ => stalled, .trySend free free, .writeResp 0 fun _ => free]

theorem never_stuck_queued : Along busStep QueuesAWrite (readIssued (fun _ => free) (started (oneRow 0x00000300)))
      queuedFirst ∧
    Always busStep (fun _ => True) (fun u => ¬ Stuck u)
      (readIssued (fun _ => free) (started (oneRow 0x00000300))) queuedFirst := by
  have hc : Along busStep QueuesAWrite (readIssued (fun _ => free) (started (oneRow 0x00000300))) queuedFirst :=
    ⟨trivial, fun _ => ⟨0, by decide, rfl⟩, trivial, trivial, trivial⟩
  exact ⟨hc, never_stuck (oneRow_starts 0x00000300) queuedFirst hc⟩

/-! ## DONE -/

/-- DONE, if set, is set after every word was issued and every write burst answered. -/
def DoneIsLate (s : State) : Prop :=
  s.done = true → writeBursts s = [] ∧ s.wordsTransferred = s.totalWords

instance (s : State) : Decidable (DoneIsLate s) := by unfold DoneIsLate; infer_instance

/-- The call that writes the last window finds a register that takes all of its bursts, or one that takes none of
them while no earlier burst waits for its answer. -/
def LastWindowWhole (s : State) : BusAct → Prop
  | .event k ports => s.events[k]? = some .writes → s.totalWords ≤ s.wordsTransferred + s.bufferIndex →
      (∀ j < burstCount s.bufferIndex, (ports j).transfers = true) ∨
        (∀ j < burstCount s.bufferIndex, (ports j).transfers = false) ∧ writeBursts s = []
  | _ => True

/-- In the last window, the counter counts every write burst without an answer, or is not positive. -/
structure Counted (s : State) : Prop where
  phase : ∃ ph, At ph s ∧ (ph = .complete → writeBursts s = []) ∧
    (ph = .writing → s.totalWords ≤ s.wordsTransferred →
      s.pendingBusWriteResponses ≤ 0 ∨ s.pendingBusWriteResponses = (writeBursts s).length)

theorem Counted.doneIsLate {s : State} (h : Counted s) : DoneIsLate s := by
  intro hd
  obtain ⟨ph, ha, hw, -⟩ := h.phase
  have hdone := ha.done
  rw [hd] at hdone
  have hph : ph = .complete := by simpa using hdone.symm
  subst hph
  exact ⟨hw rfl, ha.words.2⟩

theorem Counted.step {s t : State} {a : BusAct} (h : Counted s) (hc : LastWindowWhole s a)
    (hs : busStep s a = .next t) : Counted t := by
  obtain ⟨ph, ha, hcomp, hp⟩ := h.phase
  obtain ⟨ph', hm, hat⟩ := ha.move hs
  refine ⟨ph', hat, ?_⟩
  cases hm with
  | trySend ph req resp =>
    rw [writeBursts_trySend, trySendPacket_eq]
    exact ⟨hcomp, hp⟩
  | read ports => exact ⟨fun h => (by cases h), fun h => (by cases h)⟩
  | fill tid data ph hr hph => rcases hph with rfl | rfl <;> exact ⟨fun h => (by cases h), fun h => (by cases h)⟩
  | window ports =>
    refine ⟨fun h => (by cases h), fun _ ht => ?_⟩
    have he : s.events[0]? = some .writes := by simp [ha.events, Phase.events]
    have hl := length_writeBursts_windowIssued ports { s with events := [] }
    have hlen := length_accepted_add_refused ports 0 (windowBursts { s with events := [] })
    rw [length_windowBursts] at hlen
    rcases hc he ht with hall | ⟨hnone, hnil⟩
    · have hr : refused ports 0 (windowBursts { s with events := [] }) = [] :=
        (refused_eq_nil_iff _ _ _).mpr fun j hj => by
          rw [Nat.zero_add]
          exact hall j (by simpa using hj)
      left
      simp [windowIssued, hr]
    · have hr : accepted ports 0 (windowBursts { s with events := [] }) = [] :=
        (accepted_eq_nil_iff _ _ _).mpr fun j hj => by
          rw [Nat.zero_add]
          exact hnone j (by simpa using hj)
      right
      have hnil' : writeBursts { s with events := [] } = [] := hnil
      rw [hl, hnil']
      rw [hr] at hlen
      simp only [windowIssued, List.length_nil, Nat.zero_add] at hlen ⊢
      rw [hlen]
  | answer ph k ports hk hne =>
    have hl := length_writeBursts_answered hk
    refine ⟨fun hph => absurd (hcomp hph) (writeBursts_ne_nil hk), fun hph ht => ?_⟩
    have := hp hph ht
    simp only [answered] at hl ⊢
    omega
  | complete k ports hk hp' hw =>
    have hl := length_writeBursts_answered hk
    refine ⟨fun _ => ?_, fun h => by cases h⟩
    have hone := hp rfl hw
    have : (writeBursts (answered s k)).length = 0 := by omega
    exact List.length_eq_zero_iff.mp this
  | next k ports hk hp' hw => exact ⟨fun h => (by cases h), fun h => (by cases h)⟩

/-- **Main result.** A transfer whose last window goes out whole reports DONE after the answer to every write
burst, for every configuration, every answer of the registers and every order of the answers of the bus. -/
theorem done_after_answers {s t : State} {ports : Nat → Port} (hs : Starts s ports t) (as : List BusAct)
    (hc : Along busStep LastWindowWhole t as) : Always busStep (fun _ => True) DoneIsLate t as :=
  Always.of_inv (fun _ => Counted.doneIsLate) (fun _ _ _ hi hc hs => hi.step hc hs)
    (fun _ _ _ hi _ hs => by
      obtain ⟨ph, ha, -⟩ := hi.phase
      exact absurd hs ha.ne_fault)
    ⟨_, at_start hs, fun h => (nomatch h), fun h => (nomatch h)⟩ hc

/-! ## Early and late -/

/-- A transfer of five words: of its two write bursts one is taken at once and answered, one is still queued. -/
def oneOfTwo : List BusAct :=
  [.readResp 0 fun _ => 0, .event 0 fun _ => free, .readResp 0 fun _ => 0,
    .event 0 fun j => if j = 0 then free else stalled, .writeResp 0 fun _ => free]

/-- The counter reaches 0 at the answer of the burst it does not count. -/
theorem done_after_answers_oneOfTwo : ¬ ∀ (s t : State) (ports : Nat → Port), Starts s ports t →
    ∀ as : List BusAct, Always busStep (fun _ => True) DoneIsLate t as := by
  intro h
  have hd := (h _ _ _ (oneRow_starts 0x00001300) oneOfTwo).2.2.2.2.2
  exact absurd (hd rfl).1 (by decide +kernel)

theorem done_after_answers_queued :
    Along busStep LastWindowWhole (readIssued (fun _ => free) (started (oneRow 0x00000300))) queuedFirst ∧
      Always busStep (fun _ => True) DoneIsLate (readIssued (fun _ => free) (started (oneRow 0x00000300)))
        queuedFirst := by
  have hc : Along busStep LastWindowWhole (readIssued (fun _ => free) (started (oneRow 0x00000300)))
      queuedFirst :=
    ⟨trivial, fun _ _ => .inr ⟨fun _ _ => rfl, rfl⟩, trivial, trivial, trivial⟩
  exact ⟨hc, done_after_answers (oneRow_starts 0x00000300) queuedFirst hc⟩

end SocModel.Dma
