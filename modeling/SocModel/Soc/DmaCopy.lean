import SocModel.Dma.Exact
import SocModel.Soc.DmaMemory

/-!
# A transfer between the DMA controller and the data memory

For every latency of the data memory, whatever is accepted and whenever, and in whatever order the crossbar delivers.

* `placed_of_valid` : a configuration of whole words puts its words in the memory;
* `Copying` : what holds of the memory at every moment, `dma_copies` : it holds in every run;
* `landed` : once DONE is set and no write burst waits for its answer, every word has arrived.
-/

namespace SocModel.Soc

open Lib Bus
open Dma (Transfer IsCopy Valid srcRect dstRect)

/-! ## Whole words -/

/-- The word at an address. -/
def wordAt (m : BaseMemory) (a : Word) : Word := BitVec.ofNat 32 (load m.mem a.toNat 4)

/-- The bytes of both rectangles are the data memory's on the crossbar. -/
def AtDataMemory (s : Dma.State) : Prop :=
  ∀ x, x ∈ (srcRect s).bytes ∨ x ∈ (dstRect s).bytes → slaveIndex (BitVec.ofNat 32 x) = getIndex .dm

/-- The destination with the source in it. -/
def withCopy (s : Dma.State) (m : Store) : Store :=
  copyBlocks (srcRect s).word (dstRect s).word 4 m m 0 (dstRect s).words

section

variable {s : Dma.State} {m : BaseMemory}

theorem words_pos (s : Dma.State) : 0 < (dstRect s).words :=
  Nat.mul_pos (by unfold Dma.Rect.wordsPerRow dstRect; dsimp only; omega) (Nat.succ_pos _)

theorem windows_withCopy (s : Dma.State) (m : Store) : Windows (srcRect s).word (dstRect s).word 4 m
    (dstRect s).words (dstRect s).words (dstRect s).words (withCopy s m) := by
  have h : Windows (srcRect s).word (dstRect s).word 4 m (dstRect s).words (dstRect s).words 0 m := .start
  have hn := h.next (words_pos s) (.inl rfl) (by rw [Nat.zero_add])
  rwa [Nat.zero_add] at hn

/-- A word of the destination holds the word of the source. -/
theorem withCopy_word (hv : Valid s m.size) (hw : (dstRect s).width % 4 = 0) {g b : Nat} (hg : g < (dstRect s).words)
    (hb : b < 4) : withCopy s m.mem ((dstRect s).word g + b) = m.mem ((srcRect s).word g + b) := by
  have hws : (srcRect s).width % 4 = 0 := by rw [hv.fits.width, hw]
  refine (windows_withCopy s m.mem).copied (fun g g' hg hg' => Dma.Rect.disjoint_words hw hv.fits.stride hg hg')
    (fun g g' hg hg' => ?_) g hg b hb
  exact hv.fits.disjoint.mono (Dma.Rect.words_subset hws (by rwa [hv.fits.words])) (Dma.Rect.words_subset hw hg')

theorem words_of (s : Dma.State) : (Transfer.of s).words = (dstRect s).words := (Dma.shape_started s).words

theorem readAddr_of (hv : Valid s m.size) {g : Nat} (hg : g < (dstRect s).words) :
    ((Transfer.of s).readAddr g).toNat = (srcRect s).word g := (Dma.shape_started s).read_addr hv.addressable hg

theorem writeAddr_of (hv : Valid s m.size) {g : Nat} (hg : g < (dstRect s).words) :
    ((Transfer.of s).writeAddr g).toNat = (dstRect s).word g := (Dma.shape_started s).write_addr hv.addressable hg

theorem placed_of_valid (hv : Valid s m.size) (hw : (dstRect s).width % 4 = 0) (hd : AtDataMemory s) :
    Placed m (withCopy s m.mem) (wordAt m) (.of s) := by
  have hle := hv.inRange hw
  have hws : (srcRect s).width % 4 = 0 := by rw [hv.fits.width, hw]
  refine ⟨fun g hg => ?_, fun g hg => ?_, fun g hg x hx t => ?_, fun g hg g' hg' => ?_, fun g hg => ?_⟩
  all_goals rw [words_of] at hg
  · refine BaseMemory.memRead_of_le ?_
    rw [readAddr_of hv hg]
    exact (hle g hg).1
  · rw [writeAddr_of hv hg]
    exact (hle g hg).2
  · rw [writeAddr_of hv hg] at hx ⊢
    obtain ⟨b, hb, rfl⟩ : ∃ b < 4, x = (dstRect s).word g + b := ⟨x - (dstRect s).word g, by
      simp only [mem_range] at hx
      omega⟩
    have hval : (wordAt m ((Transfer.of s).readAddr g)).toNat = load m.mem ((srcRect s).word g) 4 := by
      unfold wordAt
      rw [BitVec.toNat_ofNat, readAddr_of hv hg]
      exact Nat.mod_eq_of_lt (load_lt _ _ 4)
    rw [hval, store_load_apply _ _ _ _ hb, withCopy_word hv hw hg hb]
  · rw [words_of] at hg'
    rw [readAddr_of hv hg, writeAddr_of hv hg']
    exact hv.fits.disjoint.mono (Dma.Rect.words_subset hws (by rwa [hv.fits.words])) (Dma.Rect.words_subset hw hg')
  · have hr : (Transfer.of s).readAddr g = BitVec.ofNat 32 ((srcRect s).word g) := by
      rw [← readAddr_of hv hg, BitVec.ofNat_toNat, BitVec.setWidth_eq]
    have hwr : (Transfer.of s).writeAddr g = BitVec.ofNat 32 ((dstRect s).word g) := by
      rw [← writeAddr_of hv hg, BitVec.ofNat_toNat, BitVec.setWidth_eq]
    rw [hr, hwr]
    exact ⟨hd _ (.inl (Dma.Rect.word_mem (by rwa [hv.fits.words]))), hd _ (.inr (Dma.Rect.word_mem hg))⟩

/-- Below the devices every address is the data memory's. -/
theorem atDataMemory_of_le {size : Nat} (hv : Valid s size) (h : size ≤ DMA_MMIO_BASE) : AtDataMemory s := by
  intro x hx
  have hlt : x < size ∧ x < 2 ^ 32 := hx.elim (hv.src_lt x) (hv.dst_lt x)
  have hval : (BitVec.ofNat 32 x).toNat = x := by
    rw [BitVec.toNat_ofNat]
    exact Nat.mod_eq_of_lt hlt.2
  simp only [DMA_MMIO_BASE] at h
  unfold slaveIndex getIndex DMA_MMIO_BASE DMA_MMIO_END SA_MMIO_BASE SA_MMIO_END SA_MEMORY_BASE SA_MEMORY_END
  rw [hval, if_neg (by omega), if_neg (by omega)]

end

/-! ## The end of a transfer -/

section

variable {lat : Nat} {m : BaseMemory} {v : Store} {mem : Word → Word} {r : Transfer} {n : Nat} {s : DmaMemory}

namespace Carried

/-- No burst waits for an answer. -/
theorem quiet_of_answered (h : Carried lat m mem r n s) (hr : Dma.readBursts s.dma = [])
    (hw : Dma.writeBursts s.dma = []) : Dma.onBus s.dma = [] ∧ s.dma.reqQ = [] := by
  obtain ⟨hr1, hr2⟩ := List.append_eq_nil_iff.mp hr
  obtain ⟨hw1, hw2⟩ := List.append_eq_nil_iff.mp hw
  refine ⟨by rw [Dma.onBus, hr1, hw1]; rfl, List.eq_nil_iff_forall_not_mem.mpr fun p hp => ?_⟩
  have hasks := h.asking.asks p (h.places.subset (List.mem_append_right _ hp))
  rcases hasks.isRequest with ⟨b, rfl⟩ | ⟨b, rfl⟩
  · exact List.filterMap_eq_nil_iff.mp hr2 _ hp |> Option.some_ne_none _
  · exact List.filterMap_eq_nil_iff.mp hw2 _ hp |> Option.some_ne_none _

/-- Then every packet popped has been served whole, and none is on its way. -/
theorem answered_of_onBus (h : Carried lat m mem r n s) (hb : Dma.onBus s.dma = []) :
    s.requests = [] ∧ ∀ k < s.dm.popped.length, ¬ s.dm.Open k := by
  have hwaits := h.waits
  rw [hb, List.nil_append] at hwaits
  -- whatever left was answered by a packet that was popped
  have hans : ∀ p ∈ s.left, ∃ k x, s.dm.popped[k]? = some x ∧ ¬ s.dm.Open k ∧ x.2 = p := by
    intro p hp
    obtain ⟨y, hy, htid⟩ := List.mem_map.mp (hwaits.subset (List.mem_map_of_mem hp))
    have hsent : y ∈ s.dm.sent := h.answers.symm.subset (List.mem_append_right _ hy)
    obtain ⟨k, x, hk, hopen, ha⟩ := h.tracked.of_mem (List.mem_append_left _ hsent)
    exact ⟨k, x, hk, hopen, Asking.eq_of_tid h.asking (h.left_subset _ (h.popped_asks hk).1) (h.left_subset p hp)
      (ha.tid_eq.symm.trans htid)⟩
  constructor
  · refine List.eq_nil_iff_forall_not_mem.mpr fun p hp => ?_
    obtain ⟨k, x, hk, -, rfl⟩ := hans p (List.mem_append_left _ hp)
    have hnodup := ((h.places.map Packet.tid).nodup_iff).mpr (Asking.nodup h.asking)
    rw [List.map_append, DmaMemory.left, List.map_append] at hnodup
    refine List.disjoint_of_nodup_append hnodup.of_append_left (List.mem_map_of_mem hp) (List.mem_map_of_mem ?_)
    exact List.mem_map_of_mem (List.mem_of_getElem? hk)
  · intro k hk
    obtain ⟨k', x', hk', hopen, heq⟩ := hans _ (h.popped_asks (List.getElem?_eq_getElem hk)).1
    exact h.distinct.inj hk' (List.getElem?_eq_getElem hk) (congrArg Packet.tid heq) ▸ hopen

/-- **Every word has arrived** once the transfer is complete and no burst waits for an answer. -/
theorem landed (h : Carried lat m mem r n s) (hd : s.dma.done = true) (hw : Dma.writeBursts s.dma = []) {g : Nat}
    (hg : g < r.words) : range (r.writeAddr g).toNat 4 ⊆ DataMem.written (s.dm.served.map (·.beat)) := by
  obtain ⟨ph, hst⟩ := h.streaming
  have hdone := hst.phase.done
  rw [hd] at hdone
  obtain rfl : ph = .complete := of_decide_eq_true hdone.symm
  obtain ⟨hbus, hq⟩ := h.quiet_of_answered hst.phase.reads hw
  obtain ⟨hreq, hopen⟩ := h.answered_of_onBus hbus
  -- the beat that writes word `g` is one of a burst issued, hence of a packet popped
  have hmem : r.beat mem g ∈ Dma.beatsFrom r.first s.dma := by
    rw [hst.written, hst.phase.words.2, hst.programmed.words]
    exact List.mem_map_of_mem (List.mem_range.mpr hg)
  obtain ⟨p, hp, hbeat⟩ := List.mem_flatMap.mp hmem
  have hplace := h.places.symm.subset hp
  rw [hq, List.append_nil, DmaMemory.left, hreq, List.nil_append] at hplace
  obtain ⟨x, hx, rfl⟩ := List.mem_map.mp hplace
  obtain ⟨k, hget⟩ := List.getElem?_of_mem hx
  have hserved := h.inv.servedOf_eq hget (hopen k (List.getElem?_eq_some_iff.mp hget).1)
  rcases x with ⟨now, b | b | b | b⟩
  · cases hbeat
  · obtain ⟨q, hq, hqb⟩ := List.mem_map.mp hbeat
    obtain ⟨hop, hrest⟩ := Prod.mk.inj hqb
    obtain ⟨haddr, -⟩ := Prod.mk.inj hrest
    obtain ⟨i, hi⟩ := List.getElem?_of_mem (List.mem_map_of_mem (f := DataMem.Req.write) hq)
    have hin : (⟨k, i, now + i + lat, .write q⟩ : DataMem.Beat) ∈
        DataMem.beatsOf lat now k (DataMem.Packet.reqs (.writeReq b)) := DataMem.mem_beatsOf.mpr ⟨rfl, hi, rfl⟩
    rw [← hserved] at hin
    obtain ⟨y, hy, hyb⟩ := List.mem_map.mp hin
    intro a ha
    refine ⟨_, List.mem_map_of_mem (DataMem.mem_servedOf.mp hy).1, ?_⟩
    rw [hyb]
    refine ⟨rfl, ?_⟩
    dsimp only [DataMem.Req.bytes]
    rw [hop, haddr]
    exact ha
  · cases hbeat
  · cases hbeat

end Carried

end

/-! ## The start -/

section

variable {lat : Nat} {s : Dma.State} {m : BaseMemory} {v : Store} {mem : Word → Word} {t : DmaMemory}

theorem start_eq (ports : Nat → Port) (s : Dma.State) (m : BaseMemory) : DmaMemory.start ports s m =
    .ok ⟨Dma.readIssued ports (Dma.started s),
      (Dma.handed s (Dma.readIssued ports (Dma.started s))).filter (dstIdx · = getIndex .dm), DataMem.init m, [], []⟩ := by
  unfold DmaMemory.start
  rw [Dma.writeRegister_enable ports s rfl]
  rfl

theorem carried_start (hr : Dma.AtRest s) (hm : Placed m v mem (.of s)) {ports : Nat → Port}
    (ht : DmaMemory.start ports s m = .ok t) : Carried lat m mem (.of s) s.nextTid t := by
  rw [start_eq] at ht
  obtain rfl := (Except.ok.inj ht).symm
  have hasking := Dma.asking_start mem ports s
  have hands := Dma.hands_readIssued ports (Dma.started s)
  have hqueue := hands.queue
  have hissued : (Dma.readIssued ports (Dma.started s)).issued.drop (Transfer.of s).first =
      [.readReq (Dma.readBurst (Dma.started s) s.nextTid)] := List.drop_left
  rw [show (Dma.started s).reqQ = [] from hr.reqQ, List.nil_append] at hqueue
  have hbus := hands.onBus
  rw [show Dma.onBus (Dma.started s) = [] by
    unfold Dma.onBus
    rw [show (Dma.started s).outReads = [] from hr.outReads, show (Dma.started s).outWrites = [] from hr.outWrites]
    rfl, List.nil_append] at hbus
  have hfilter : (Dma.handed s (Dma.readIssued ports (Dma.started s))).filter (dstIdx · = getIndex .dm) =
      Dma.handed (Dma.started s) (Dma.readIssued ports (Dma.started s)) := by
    refine List.filter_eq_self.mpr fun p hp => decide_eq_true (hm.dst (hasking.asks p ?_))
    rw [hissued]
    exact hqueue.subset (List.mem_append_left _ hp)
  rw [hfilter]
  refine ⟨⟨_, Dma.streaming_start hr.ready ports mem⟩, hasking, DataMem.inv_init lat m, DataMem.tracked_init m, ?_, ?_,
    fun p hp => ?_, .nil⟩
  · rw [hissued, DmaMemory.left]
    exact (List.append_nil _).symm ▸ hqueue
  · rw [DmaMemory.left, List.append_nil]
    exact (List.append_nil _).symm ▸ hbus.symm.map _
  · rw [hissued]
    exact hqueue.subset (List.mem_append_left _ (hbus.subset hp))

/-- The bursts are in their places in every state that a transfer reaches. -/
theorem carried_of_reaches (hr : Dma.AtRest s) (hm : Placed m v mem (.of s)) {ports : Nat → Port}
    (ht : DmaMemory.start ports s m = .ok t) {as : List DmaMemory.Act} {u : DmaMemory}
    (hu : Reaches (DmaMemory.step lat) t as u) : Carried lat m mem (.of s) s.nextTid u :=
  hu.inv' (fun _ _ _ h hs => h.step hm hs) (carried_start hr hm ht)

end

/-! ## The copy -/

/-- At every moment of the transfer that `s` is programmed for, beside a data memory that had the bytes of `m`: nothing that
can happen faults, the bytes outside the destination are as they were, each word of the destination is as it was or the
word of the source, and once DONE is set and no write burst waits for its answer, the rectangle is copied. -/
structure Copying (lat : Nat) (s : Dma.State) (m : BaseMemory) (t : DmaMemory) : Prop where
  noFault : ∀ a e, DmaMemory.step lat t a ≠ .fault e
  frame : ∀ x, x ∉ (dstRect s).bytes → t.dm.base.mem x = m.mem x
  words : ∀ g < (dstRect s).words,
    (∀ b < 4, t.dm.base.mem ((dstRect s).word g + b) = m.mem ((dstRect s).word g + b)) ∨
      ∀ b < 4, t.dm.base.mem ((dstRect s).word g + b) = m.mem ((srcRect s).word g + b)
  whole : t.dma.done = true → Dma.writeBursts t.dma = [] → IsCopy (srcRect s) (dstRect s) m.mem t.dm.base.mem

section

variable {lat n : Nat} {s : Dma.State} {m : BaseMemory} {t : DmaMemory}

/-- The memory at every moment. -/
theorem Carried.copying (h : Carried lat m (wordAt m) (.of s) n t) (hv : Valid s m.size)
    (hw : (dstRect s).width % 4 = 0) (hd : AtDataMemory s) : Copying lat s m t := by
  have hm := placed_of_valid hv hw hd
  have hconf := h.confined hm
  have hframe : ∀ x, x ∉ (dstRect s).bytes → t.dm.base.mem x = m.mem x := by
    refine fun x hx => hconf.frame x fun hxw => hx ?_
    obtain ⟨g, hg, hxg, -⟩ := h.mem_written hxw
    rw [words_of] at hg
    rw [writeAddr_of hv hg] at hxg
    exact Dma.Rect.words_subset hw hg hxg
  -- the bytes of a word that was written are those of the source
  have hvalue : ∀ g < (dstRect s).words,
      range ((dstRect s).word g) 4 ⊆ DataMem.written (t.dm.served.map (·.beat)) →
      ∀ b < 4, t.dm.base.mem ((dstRect s).word g + b) = m.mem ((srcRect s).word g + b) := by
    intro g hg hsub b hb
    rw [hconf.value _ (hsub ⟨Nat.le_add_right _ _, by omega⟩), withCopy_word hv hw hg hb]
  refine ⟨fun a e => h.ne_fault hm a e, hframe, fun g hg => ?_, fun hdone hwrites => ⟨fun i hi c hc => ?_, hframe⟩⟩
  · by_cases hx : ∃ b < 4, (dstRect s).word g + b ∈ DataMem.written (t.dm.served.map (·.beat))
    · obtain ⟨b, hb, hx⟩ := hx
      obtain ⟨g', hg', hxg, hsub⟩ := h.mem_written hx
      rw [words_of] at hg'
      rw [writeAddr_of hv hg'] at hxg hsub
      have hmeet : ¬ Disjoint (range ((dstRect s).word g) 4) (range ((dstRect s).word g') 4) := fun hdis =>
        Set.disjoint_left.mp hdis ⟨Nat.le_add_right _ _, by omega⟩ hxg
      have heq : g' = g := by
        rcases Nat.lt_trichotomy g g' with hlt | heq | hlt
        · exact absurd (Dma.Rect.disjoint_words hw hv.fits.stride hlt hg') hmeet
        · exact heq.symm
        · exact absurd (Dma.Rect.disjoint_words hw hv.fits.stride hlt hg).symm hmeet
      exact .inr (hvalue g hg (heq ▸ hsub))
    · refine .inl fun b hb => hconf.frame _ fun hxw => hx ⟨b, hb, hxw⟩
  · have hws : (srcRect s).width % 4 = 0 := by rw [hv.fits.width, hw]
    have hg : (dstRect s).wordsPerRow * i + c / 4 < (dstRect s).words := by
      refine Dma.Rect.index_lt hi ?_
      unfold Dma.Rect.wordsPerRow
      omega
    rw [Dma.Rect.cell_eq_word hw hc, Dma.Rect.cell_eq_word hws (by rwa [hv.fits.width]), hv.fits.wordsPerRow]
    refine hvalue _ hg ?_ _ (Nat.mod_lt _ (by decide))
    rw [← writeAddr_of hv hg]
    exact h.landed hdone hwrites (by rwa [words_of])

end

/-- **A transfer copies its rectangle.** In every run of a transfer of whole words beside the data memory, for every latency
of the memory, whatever the registers take and in whatever order the packets are delivered. -/
theorem dma_copies (lat : Nat) (s : Dma.State) (m : BaseMemory) (hr : Dma.AtRest s) (hv : Valid s m.size)
    (hw : (dstRect s).width % 4 = 0) (hd : AtDataMemory s) (ports : Nat → Port) :
    ∃ t, DmaMemory.start ports s m = .ok t ∧
      ∀ as u, Reaches (DmaMemory.step lat) t as u → Copying lat s m u :=
  ⟨_, start_eq ports s m, fun _ _ hu => (carried_of_reaches hr (placed_of_valid hv hw hd) (start_eq ports s m) hu).copying
    hv hw hd⟩

/-- A memory whose bytes are their addresses. -/
def addresses : BaseMemory := ⟨128, fun x => BitVec.ofNat 8 x⟩

theorem valid_fourBytes : Valid (Dma.oneRow 0x04040300) addresses.size :=
  Dma.valid_oneRow (by decide) (by decide) (by decide)

theorem dma_copies_fourBytes : ∃ t, DmaMemory.start (fun _ => Dma.stalled) (Dma.oneRow 0x04040300) addresses = .ok t ∧
    ∀ as u, Reaches (DmaMemory.step 3) t as u → u.dma.done = true → Dma.writeBursts u.dma = [] →
      u.dm.base.mem 66 = 2 := by
  obtain ⟨t, ht, h⟩ := dma_copies 3 (Dma.oneRow 0x04040300) addresses ⟨rfl, rfl, rfl, rfl⟩ valid_fourBytes (by decide)
    (atDataMemory_of_le valid_fourBytes (by decide)) fun _ => Dma.stalled
  exact ⟨t, ht, fun as u hu hd hw => ((h as u hu).whole hd hw).1 0 (by decide) 2 (by decide)⟩

end SocModel.Soc
