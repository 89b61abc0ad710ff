import SocModel.Dma.Bursts
import SocModel.Dma.Exact

/-!
# Where the bursts of a transfer go

A packet is routed by the address of its first beat. The bursts of a transfer, of both kinds, are the groups of words
`chunkSizes` cuts the whole transfer into: four at a time from word 0 on, and the last three as two and one.

* `routesOf f o ns` : the slaves and addresses of bursts of the lengths `ns` for the words from `o` on;
* `within_routesOf_iff` : they stay inside one slave if no word changes the slave behind the first of its group;
* `Routed.move` : the bursts issued so far are a beginning of those of the whole transfer;
* `oneSlave_iff` : every burst of every run stays inside one slave iff the registers say so.
-/

namespace SocModel.Dma

open Lib Bus

/-! ## Groups of words -/

/-- A slave and the addresses of a burst sent to it. -/
abbrev Route := Nat × List Word

/-- The beats belong to the slave the burst is sent to. -/
def Within (x : Route) : Prop := ∀ a ∈ x.2, slaveIndex a = x.1

/-- The burst of `n` words from word `o` on. -/
def routeOf (f : Nat → Word) (o n : Nat) : Route := (slaveIndex (f o), (List.range n).map fun i => f (o + i))

def routesOf (f : Nat → Word) : Nat → List Nat → List Route
  | _, [] => []
  | o, n :: ns => routeOf f o n :: routesOf f (o + n) ns

theorem routesOf_append (f : Nat → Word) (o : Nat) (ns ms : List Nat) :
    routesOf f o (ns ++ ms) = routesOf f o ns ++ routesOf f (o + ns.sum) ms := by
  induction ns generalizing o with
  | nil => rfl
  | cons n ns ih => rw [List.cons_append, routesOf, routesOf, ih, List.sum_cons, List.cons_append, Nat.add_assoc]

/-- The word has the slave of the word before it. -/
def SameSlave (f : Nat → Word) (g : Nat) : Prop := slaveIndex (f g) = slaveIndex (f (g - 1))

/-- Word `g` of `n` is not the first one of its burst. -/
def Joined (n g : Nat) : Prop := g % 4 ≠ 0 ∧ ¬ (g % 4 = 2 ∧ g + 1 = n)

instance (n g : Nat) : Decidable (Joined n g) := inferInstanceAs (Decidable (_ ∧ _))

instance (f : Nat → Word) (g : Nat) : Decidable (SameSlave f g) := inferInstanceAs (Decidable (_ = _))

theorem within_routeOf_iff (f : Nat → Word) (o n : Nat) :
    Within (routeOf f o n) ↔ ∀ g, o < g → g < o + n → SameSlave f g := by
  have hmem : Within (routeOf f o n) ↔ ∀ i < n, slaveIndex (f (o + i)) = slaveIndex (f o) := by
    simp [Within, routeOf]
  rw [hmem]
  constructor
  · intro h g hg hn
    have h1 := h (g - o) (by omega)
    have h2 := h (g - 1 - o) (by omega)
    rw [show o + (g - o) = g by omega] at h1
    rw [show o + (g - 1 - o) = g - 1 by omega] at h2
    exact h1.trans h2.symm
  · intro h i hi
    induction i with
    | zero => rfl
    | succ i ih => exact (h (o + (i + 1)) (by omega) (by omega)).trans (ih (by omega))

/-- In the first group of `n` words only the first word is not joined. -/
theorem joined_iff {o n g : Nat} (ho : o % 4 = 0 ∨ o % 4 = 2 ∧ n = 1) (hg : o ≤ g) (hn : g < o + readChunk n) :
    Joined (o + n) g ↔ o < g := by
  unfold Joined
  unfold readChunk at hn
  split at hn <;> omega

theorem within_routesOf_iff (f : Nat → Word) {o n : Nat} (ho : n ≠ 0 → o % 4 = 0 ∨ o % 4 = 2 ∧ n = 1) :
    (∀ x ∈ routesOf f o (chunkSizes n), Within x) ↔
      ∀ g, o ≤ g → g < o + n → Joined (o + n) g → SameSlave f g := by
  induction n using Nat.strongRecOn generalizing o with
  | ind n ih =>
    rcases Nat.eq_zero_or_pos n with rfl | hpos
    · refine ⟨fun _ g hg hn => absurd hn (by omega), fun _ x hx => ?_⟩
      cases hx
    · have hcp := readChunk_pos hpos
      have hle := readChunk_le n
      have ho := ho hpos.ne'
      have hrest : n - readChunk n ≠ 0 →
          (o + readChunk n) % 4 = 0 ∨ (o + readChunk n) % 4 = 2 ∧ n - readChunk n = 1 := by
        unfold readChunk
        split <;> omega
      rw [chunkSizes_of_pos hpos, routesOf, List.forall_mem_cons, within_routeOf_iff, ih _ (by omega) hrest,
        show o + readChunk n + (n - readChunk n) = o + n by omega]
      constructor
      · rintro ⟨hhead, htail⟩ g hg hn hj
        rcases Nat.lt_or_ge g (o + readChunk n) with hlt | hge
        · exact hhead g ((joined_iff ho hg hlt).mp hj) hlt
        · exact htail g hge hn hj
      · intro h
        refine ⟨fun g hg hn => ?_, fun g hg hn hj => h g (by omega) hn hj⟩
        exact h g hg.le (by omega) ((joined_iff ho hg.le hn).mpr hg)

/-! ## The groups issued so far -/

/-- The lengths `ns` are those of the groups of the first `m` words of `n`. -/
def Groups (n m : Nat) (ns : List Nat) : Prop := ns.sum = m ∧ ns ++ chunkSizes (n - m) = chunkSizes n

theorem groups_nil (n : Nat) : Groups n 0 [] := ⟨rfl, rfl⟩

theorem Groups.whole {n : Nat} {ns : List Nat} (h : Groups n n ns) : ns = chunkSizes n := by
  have := h.2
  rwa [Nat.sub_self, chunkSizes_zero, List.append_nil] at this

theorem Groups.next {n m : Nat} {ns : List Nat} (h : Groups n m ns) (hm : m < n) :
    Groups n (m + readChunk (n - m)) (ns ++ [readChunk (n - m)]) := by
  obtain ⟨hs, ha⟩ := h
  refine ⟨by simp [hs], ?_⟩
  rw [← ha, chunkSizes_of_pos (show 0 < n - m by omega), List.append_assoc, List.singleton_append, Nat.sub_sub]

theorem chunkSizes_add {k : Nat} (hk : k % 4 = 0) (n : Nat) : chunkSizes (k + n) = chunkSizes k ++ chunkSizes n := by
  rw [chunkSizes, chunkSizes, chunkSizes, hk, show (k + n) / 4 = k / 4 + n / 4 by omega,
    show (k + n) % 4 = n % 4 by omega, ← List.replicate_append_replicate, if_neg (show ¬ 0 = 3 by decide), if_pos rfl,
    List.append_nil, List.append_assoc]

/-- The words of a window that is full, or the last one. -/
theorem Groups.window {n m k : Nat} {ns : List Nat} (h : Groups n m ns) (hk : k % 4 = 0 ∨ m + k = n)
    (hle : m + k ≤ n) : Groups n (m + k) (ns ++ chunkSizes k) := by
  obtain ⟨hs, ha⟩ := h
  refine ⟨by simp [hs, sum_chunkSizes], ?_⟩
  rw [← ha, List.append_assoc]
  congr 1
  rcases hk with hk | hk
  · rw [← chunkSizes_add hk]
    congr 1
    omega
  · rw [show n - (m + k) = 0 by omega, show n - m = k by omega, chunkSizes_zero, List.append_nil]

/-! ## The routes of a state -/

def readRoute (pkt : Packet) : Option Route := pkt.readReq?.map fun p => (p.dstIdx, p.payloads.map (·.addr))

def writeRoute (pkt : Packet) : Option Route := pkt.writeReq?.map fun p => (p.dstIdx, p.payloads.map (·.addr))

/-- The read bursts from `first` on. -/
def readRoutes (first : Nat) (s : State) : List Route := (s.issued.drop first).filterMap readRoute

/-- The write bursts from `first` on. -/
def writeRoutes (first : Nat) (s : State) : List Route := (s.issued.drop first).filterMap writeRoute

/-- Every beat of the packet belongs to the slave the packet is routed to. -/
def OneSlave (pkt : Packet) : Prop := ∀ a ∈ addresses pkt, slaveIndex a = dstOf pkt

theorem oneSlave_iff_routes (pkt : Packet) :
    OneSlave pkt ↔ (∀ x, readRoute pkt = some x → Within x) ∧ ∀ x, writeRoute pkt = some x → Within x := by
  cases pkt with
  | readReq p => simp [OneSlave, addresses_readReq, dstOf, readRoute, writeRoute, Packet.readReq?, Packet.writeReq?, Within]
  | writeReq p =>
    simp [OneSlave, addresses_writeReq, dstOf, readRoute, writeRoute, Packet.readReq?, Packet.writeReq?, Within]
  | _ => simp [OneSlave, addresses, packetReads, packetWrites, readRoute, writeRoute, Packet.readReq?, Packet.writeReq?]

theorem forall_oneSlave_iff (first : Nat) (s : State) : (∀ pkt ∈ s.issued.drop first, OneSlave pkt) ↔
    (∀ x ∈ readRoutes first s, Within x) ∧ ∀ x ∈ writeRoutes first s, Within x := by
  simp only [readRoutes, writeRoutes, List.mem_filterMap, oneSlave_iff_routes]
  constructor
  · intro h
    exact ⟨fun x ⟨pkt, hp, hx⟩ => (h pkt hp).1 x hx, fun x ⟨pkt, hp, hx⟩ => (h pkt hp).2 x hx⟩
  · rintro ⟨hr, hw⟩ pkt hp
    exact ⟨fun x hx => hr x ⟨pkt, hp, hx⟩, fun x hx => hw x ⟨pkt, hp, hx⟩⟩

theorem readRoutes_append {first : Nat} {s t : State} {ps : List Packet} (hi : t.issued = s.issued ++ ps)
    (hf : first ≤ s.issued.length) : readRoutes first t = readRoutes first s ++ ps.filterMap readRoute := by
  unfold readRoutes
  rw [hi, List.drop_append_of_le_length hf, List.filterMap_append]

theorem writeRoutes_append {first : Nat} {s t : State} {ps : List Packet} (hi : t.issued = s.issued ++ ps)
    (hf : first ≤ s.issued.length) : writeRoutes first t = writeRoutes first s ++ ps.filterMap writeRoute := by
  unfold writeRoutes
  rw [hi, List.drop_append_of_le_length hf, List.filterMap_append]

theorem filterMap_readRoute_writes (bs : List (Burst WriteReq)) :
    (bs.map Packet.writeReq).filterMap readRoute = [] := by
  simp [List.filterMap_map, Function.comp_def, readRoute, Packet.readReq?]

/-- The read burst of a state that follows `r`. -/
theorem Programmed.readRoute {r : Transfer} {s : State} (h : Programmed r s) (tid : Nat)
    (hw : s.wordsToBuffer = s.wordsTransferred + s.bufferIndex) :
    readRoute (.readReq (readBurst s tid)) = some (routeOf r.readAddr s.wordsToBuffer (nextChunk s)) := by
  have hp := h.packetReads tid hw
  have ha : wordAddr s.srcAddr s.wordsPerRow s.sourceStride s.wordsToBuffer = r.readAddr s.wordsToBuffer := by
    rw [h.src, h.row, h.sourceStride]
    rfl
  simp only [Dma.packetReads, Packet.readReq?, Option.map_some, Option.getD_some] at hp
  simp only [Dma.readRoute, Packet.readReq?, Option.map_some, hp, routeOf]
  rw [← ha, hw]
  rfl

/-- The write bursts of a state that follows `r`. -/
theorem Programmed.writeRoutes_burstsOf {r : Transfer} {s : State} (h : Programmed r s) (offset tid : Nat)
    (ns : List Nat) : ((burstsOf s offset tid ns).map Packet.writeReq).filterMap writeRoute =
      routesOf r.writeAddr (s.wordsTransferred + offset) ns := by
  have hb (j : Nat) : (writeBeat s j).addr = r.writeAddr (s.wordsTransferred + j) := by
    simp only [writeBeat, h.dst, h.row, h.destStride]
    rfl
  induction ns generalizing offset tid with
  | nil => rfl
  | cons n ns ih =>
    have hr : writeRoute (.writeReq (writeBurst s offset tid n)) =
        some (routeOf r.writeAddr (s.wordsTransferred + offset) n) := by
      simp [writeRoute, Packet.writeReq?, writeBurst, routeOf, hb, List.range'_eq_map_range, Function.comp_def,
        Nat.add_assoc]
    rw [burstsOf, List.map_cons, List.filterMap_cons_some hr, ih, routesOf, Nat.add_assoc]

theorem Programmed.writeRoutes {r : Transfer} {s : State} (h : Programmed r s) :
    ((windowBursts s).map Packet.writeReq).filterMap writeRoute =
      routesOf r.writeAddr s.wordsTransferred (chunkSizes s.bufferIndex) :=
  h.writeRoutes_burstsOf 0 s.nextTid (chunkSizes s.bufferIndex)

/-! ## The invariant -/

/-- Before a read the buffer holds whole groups, or one word is left; a window is whole groups, or the last one. -/
def Phase.Aligned (s : State) : Phase → Prop
  | readEvent | reading => s.bufferIndex % 4 = 0 ∨ s.totalWords ≤ s.wordsToBuffer + 1
  | writeEvent => s.bufferIndex % 4 = 0 ∨ s.wordsToBuffer = s.totalWords
  | _ => True

/-- The bursts since `r.first` are those of the first words of the transfer `r`. -/
structure Routed (r : Transfer) (ph : Phase) (s : State) : Prop where
  phase : At ph s
  programmed : Programmed r s
  first : r.first ≤ s.issued.length
  aligned : ph.Aligned s
  reads : ∃ ns, Groups r.words (requested ph s) ns ∧ readRoutes r.first s = routesOf r.readAddr 0 ns
  writes : ∃ ns, Groups r.words s.wordsTransferred ns ∧ writeRoutes r.first s = routesOf r.writeAddr 0 ns

/-- With room for a group the next read burst is the next group of the transfer. -/
theorem nextChunk_eq {s : State} (hb : s.bufferIndex < BUFFER_CAPACITY) (hw : s.wordsToBuffer < s.totalWords)
    (ha : s.bufferIndex % 4 = 0 ∨ s.totalWords ≤ s.wordsToBuffer + 1) :
    nextChunk s = readChunk (s.totalWords - s.wordsToBuffer) := by
  unfold nextChunk readChunk
  unfold BUFFER_CAPACITY at *
  split <;> split <;> omega

/-- A group that is answered leaves whole groups in the buffer, or at most one word to read. -/
theorem aligned_fill {s : State} (hb : s.bufferIndex < BUFFER_CAPACITY) (hw : s.wordsToBuffer < s.totalWords)
    (ha : s.bufferIndex % 4 = 0 ∨ s.totalWords ≤ s.wordsToBuffer + 1) :
    (s.bufferIndex + nextChunk s) % 4 = 0 ∨ s.totalWords ≤ s.wordsToBuffer + nextChunk s + 1 := by
  rw [nextChunk_eq hb hw ha]
  unfold readChunk
  split <;> omega

section Moves

variable {r : Transfer} {ph ph' : Phase} {s t : State}

/-- A read burst is issued. -/
theorem Routed.readIssued (ports : Nat → Port) (hat : At .reading (readIssued ports s)) (hp : Programmed r s)
    (hf : r.first ≤ s.issued.length) (ha : Phase.Aligned s .reading)
    (hr : ∃ ns, Groups r.words s.wordsToBuffer ns ∧ readRoutes r.first s = routesOf r.readAddr 0 ns)
    (hw : ∃ ns, Groups r.words s.wordsTransferred ns ∧ writeRoutes r.first s = routesOf r.writeAddr 0 ns) :
    Routed r .reading (readIssued ports s) where
  phase := hat
  programmed := ⟨hp.src, hp.dst, hp.row, hp.sourceStride, hp.destStride, hp.words⟩
  first := by
    rw [readIssued_issued, List.length_append]
    omega
  aligned := ha
  reads := by
    obtain ⟨ns, hg, hns⟩ := hr
    obtain ⟨hb, heq, hlt⟩ : s.bufferIndex < BUFFER_CAPACITY ∧
      s.wordsToBuffer = s.wordsTransferred + s.bufferIndex ∧ s.wordsToBuffer < s.totalWords := hat.words
    have hn := nextChunk_eq hb hlt ha
    refine ⟨ns ++ [nextChunk s], ?_, ?_⟩
    · show Groups r.words (s.wordsToBuffer + nextChunk s) (ns ++ [nextChunk s])
      rw [hn, hp.words]
      exact hg.next (hp.words ▸ hlt)
    · rw [readRoutes_append (readIssued_issued ports s) hf, hns, routesOf_append, Nat.zero_add, hg.1]
      rw [List.filterMap_cons_some (hp.readRoute s.nextTid heq)]
      rfl
  writes := by
    obtain ⟨ns, hg, hns⟩ := hw
    refine ⟨ns, hg, ?_⟩
    rw [writeRoutes_append (readIssued_issued ports s) hf, hns]
    exact List.append_nil _

/-- The answer to a read burst is buffered. -/
theorem Routed.fill {tid : Nat} {data : ReadReq → Word} (h : Routed r .reading s)
    (hph : ph' = .readEvent ∨ ph' = .writeEvent)
    (hat : At ph' (afterRead (buffered { s with outReads := [] } (nextChunk s) (answer s tid data))))
    (hp : Programmed r (afterRead (buffered { s with outReads := [] } (nextChunk s) (answer s tid data)))) :
    Routed r ph' (afterRead (buffered { s with outReads := [] } (nextChunk s) (answer s tid data))) := by
  obtain ⟨hb, heq, hlt⟩ := h.phase.words
  have hfill := aligned_fill hb hlt h.aligned
  have hle := (nextChunk_le s).1
  have hev := hat.events
  unfold afterRead at hat hp hev ⊢
  split at hev
  · next hc =>
    rw [if_pos hc] at hat hp ⊢
    obtain rfl : ph' = .readEvent := by
      rcases hph with rfl | rfl
      · rfl
      · simp [State.schedule, buffered, h.phase.events, Phase.events] at hev
    exact ⟨hat, hp, h.first, hfill, h.reads, h.writes⟩
  · next hc =>
    rw [if_neg hc] at hat hp ⊢
    obtain rfl : ph' = .writeEvent := by
      rcases hph with rfl | rfl
      · simp [State.schedule, buffered, h.phase.events, Phase.events] at hev
      · rfl
    refine ⟨hat, hp, h.first, ?_, h.reads, h.writes⟩
    -- the buffer is full, or the last word is in it
    show (s.bufferIndex + nextChunk s) % 4 = 0 ∨ s.wordsToBuffer + nextChunk s = s.totalWords
    simp only [buffered] at hc
    have hleft := (nextChunk_le s).2
    unfold BUFFER_CAPACITY at *
    omega

/-- A window is issued. -/
theorem Routed.windowIssued (ports : Nat → Port) (h : Routed r .writeEvent s)
    (hat : At .writing (windowIssued ports { s with events := [] }))
    (hp : Programmed r (windowIssued ports { s with events := [] })) :
    Routed r .writing (windowIssued ports { s with events := [] }) := by
  have hi : (Dma.windowIssued ports { s with events := [] }).issued =
    s.issued ++ (windowBursts { s with events := [] }).map .writeReq := rfl
  obtain ⟨-, heq, hle⟩ := h.phase.words
  obtain ⟨ns, hg, hns⟩ := h.reads
  obtain ⟨ms, hg', hms⟩ := h.writes
  refine ⟨hat, hp, ?_, trivial, ⟨ns, hg, ?_⟩, ⟨ms ++ chunkSizes s.bufferIndex, ?_, ?_⟩⟩
  · rw [hi, List.length_append]
    exact h.first.trans (Nat.le_add_right _ _)
  · rw [readRoutes_append hi h.first, filterMap_readRoute_writes, List.append_nil]
    exact hns
  · have hword := h.programmed.words
    show Groups r.words (s.wordsTransferred + s.bufferIndex) (ms ++ chunkSizes s.bufferIndex)
    exact hg'.window (h.aligned.imp id fun hlast => (by omega)) (by omega)
  · rw [writeRoutes_append hi h.first, hms, (h.programmed.withEvents []).writeRoutes, routesOf_append, Nat.zero_add,
      hg'.1]

/-- **One step.** -/
theorem Routed.move {a : BusAct} (h : Routed r ph s) (hm : Move s ph a t ph') (hat : At ph' t) : Routed r ph' t := by
  have hp := hm.programmed h.programmed
  have hal := h.aligned
  rcases hm with ⟨_, req, resp⟩ | ports | ⟨tid, data, _, hr, hph⟩ | ports | ⟨_, k, ports, hk, hne⟩ |
    ⟨k, ports, hk, hpend, hw⟩ | ⟨k, ports, hk, hpend, hw⟩
  · rw [trySendPacket_eq] at hat hp ⊢
    exact ⟨hat, hp, h.first, by cases ph <;> exact hal, h.reads, h.writes⟩
  · exact Routed.readIssued ports hat (h.programmed.withEvents []) h.first hal h.reads h.writes
  · exact h.fill hph hat hp
  · exact h.windowIssued ports hat hp
  · exact ⟨hat, hp, h.first, by cases ph <;> exact hal, h.reads, h.writes⟩
  · exact ⟨hat, hp, h.first, trivial, h.reads, h.writes⟩
  · exact Routed.readIssued ports hat (h.programmed.nextWindow _) h.first (.inl rfl) h.reads h.writes

end Moves

/-! ## Runs -/

/-- The transfer that ENABLE starts. -/
theorem routed_start {s t : State} {ports : Nat → Port} (h : Starts s ports t) : Routed (.of s) .reading t := by
  have hat := at_start h
  obtain rfl := h.eq
  have hd : (started s).issued.drop s.issued.length = [] := List.drop_length
  refine Routed.readIssued ports hat ⟨rfl, rfl, rfl, rfl, rfl, rfl⟩ le_rfl (.inl rfl) ⟨[], groups_nil _, ?_⟩
    ⟨[], groups_nil _, ?_⟩
  · rw [readRoutes, Transfer.of, hd]
    rfl
  · rw [writeRoutes, Transfer.of, hd]
    rfl

/-- When every word is issued for writing, every group was issued in both directions. -/
theorem Routed.whole {r : Transfer} {ph : Phase} {s : State} (h : Routed r ph s)
    (hw : s.wordsTransferred = s.totalWords) : readRoutes r.first s = routesOf r.readAddr 0 (chunkSizes r.words) ∧
      writeRoutes r.first s = routesOf r.writeAddr 0 (chunkSizes r.words) := by
  have hword := h.programmed.words
  have hreq : requested ph s = r.words := by
    have hp := h.phase.words
    unfold requested
    cases ph <;> simp only [Phase.Words, reduceCtorEq, if_true, if_false] at hp ⊢ <;> omega
  obtain ⟨ns, hg, hns⟩ := h.reads
  obtain ⟨ms, hg', hms⟩ := h.writes
  rw [hreq] at hg
  rw [hw, hword] at hg'
  rw [hns, hms, hg.whole, hg'.whole]
  exact ⟨rfl, rfl⟩

/-- Some run issues every word. -/
theorem Polite.exists_whole {ph : Phase} {s : State} (hp : Polite ph s) (ha : At ph s) :
    ∃ as u, Reaches busStep s as u ∧ u.wordsTransferred = u.totalWords := by
  by_cases hw : s.wordsTransferred < s.totalWords
  · let y : Sys := ⟨s, ⟨0, fun _ => 0⟩, fun _ => ⟨0, fun _ => 0⟩⟩
    rcases ha.busStep (y.busAct (nextAct s ph)) with hb | ⟨t, ph', ht, hm, hat⟩
    · exact absurd hb (nextAct_ne_blocked (s := y) ha)
    · obtain ⟨hpt, hlt⟩ := hp.advance ha hw hm
      obtain ⟨as, u, hr, hu⟩ := exists_whole hpt hat
      exact ⟨_ :: as, u, reaches_cons.mpr ⟨t, ht, hr⟩, hu⟩
  · refine ⟨[], s, rfl, ?_⟩
    have hwords := ha.words
    cases ph <;> simp only [Phase.Words] at hwords <;> omega
termination_by effort ph s
decreasing_by exact hlt

/-- The registers keep every burst inside one slave: no word of the source or of the destination has another slave
than the word before it, unless it is the first one of its burst. -/
structure Unsplit (r : Transfer) : Prop where
  reads : ∀ g < r.words, Joined r.words g → SameSlave r.readAddr g
  writes : ∀ g < r.words, Joined r.words g → SameSlave r.writeAddr g

theorem unsplit_iff (r : Transfer) : Unsplit r ↔ (∀ x ∈ routesOf r.readAddr 0 (chunkSizes r.words), Within x) ∧
    ∀ x ∈ routesOf r.writeAddr 0 (chunkSizes r.words), Within x := by
  have h (f : Nat → Word) : (∀ x ∈ routesOf f 0 (chunkSizes r.words), Within x) ↔
      ∀ g < r.words, Joined r.words g → SameSlave f g := by
    rw [within_routesOf_iff f fun _ => .inl rfl]
    simp only [Nat.zero_le, Nat.zero_add, forall_const]
  rw [h, h]
  exact ⟨fun hu => ⟨hu.reads, hu.writes⟩, fun hu => ⟨hu.1, hu.2⟩⟩

theorem Groups.forall_mem {n m : Nat} {ns : List Nat} (h : Groups n m ns) {f : Nat → Word}
    (hw : ∀ x ∈ routesOf f 0 (chunkSizes n), Within x) : ∀ x ∈ routesOf f 0 ns, Within x := by
  rw [← h.2, routesOf_append] at hw
  exact fun x hx => hw x (List.mem_append_left _ hx)

/-- **Main result.** In every run of a transfer every payload of every burst belongs to the slave its packet is routed
to, if and only if the registers at ENABLE let no burst meet two slaves. -/
theorem oneSlave_iff {s t : State} {ports : Nat → Port} (hs : Starts s ports t) :
    (∀ as u, Reaches busStep t as u → ∀ pkt ∈ u.issued.drop s.issued.length, OneSlave pkt) ↔ Unsplit (.of s) := by
  have hinv (as : List BusAct) (u : State) (hr : Reaches busStep t as u) : ∃ ph, Routed (.of s) ph u := by
    refine hr.inv' (I := fun v => ∃ ph, Routed (.of s) ph v) ?_ ⟨_, routed_start hs⟩
    rintro v a w ⟨ph, hv⟩ hvw
    obtain ⟨ph', hm, hat⟩ := hv.phase.move hvw
    exact ⟨ph', hv.move hm hat⟩
  constructor
  · intro h
    have hpol : Polite .reading t := by
      refine ⟨fun hph => (nomatch hph), fun _ => ?_⟩
      rw [hs.eq, writeBursts_readIssued]
      simp [writeBursts, started, decode, hs.1.outWrites, hs.1.reqQ]
    obtain ⟨as, u, hr, hw⟩ := hpol.exists_whole (at_start hs)
    obtain ⟨ph, hu⟩ := hinv as u hr
    obtain ⟨hreads, hwrites⟩ := hu.whole hw
    rw [unsplit_iff, ← hreads, ← hwrites]
    exact (forall_oneSlave_iff _ _).mp (h as u hr)
  · intro h as u hr
    obtain ⟨ph, hu⟩ := hinv as u hr
    obtain ⟨hreads, hwrites⟩ := (unsplit_iff _).mp h
    obtain ⟨ns, hg, hns⟩ := hu.reads
    obtain ⟨ms, hg', hms⟩ := hu.writes
    apply (forall_oneSlave_iff _ _).mpr
    exact ⟨hns ▸ hg.forall_mem hreads, hms ▸ hg'.forall_mem hwrites⟩

/-- Five words from 0 to 64. -/
theorem oneSlave_iff_fiveWords : Unsplit (.of (oneRow 0x00001300)) ∧
    ∀ as u, Reaches busStep (readIssued (fun _ => free) (started (oneRow 0x00001300))) as u →
      ∀ pkt ∈ u.issued.drop (oneRow 0x00001300).issued.length, OneSlave pkt := by
  have hu : Unsplit (.of (oneRow 0x00001300)) := ⟨by decide +kernel, by decide +kernel⟩
  exact ⟨hu, (oneSlave_iff (oneRow_starts 0x00001300)).mpr hu⟩

/-- Four words from 0 to the end of the data memory's addresses, two of them behind it. -/
def acrossRegions : State := { init with dstAddr := 0x1FFF8, dmaSizeCfg := 0x00000F00 }

/-- The words for the systolic array go to the data memory. -/
theorem not_oneSlave_acrossRegions : ¬ ∀ (s t : State) (ports : Nat → Port), Starts s ports t →
    ∀ as u, Reaches busStep t as u → ∀ pkt ∈ u.issued.drop s.issued.length, OneSlave pkt := by
  intro h
  have hs : Starts acrossRegions (fun _ => free) (readIssued (fun _ => free) (started acrossRegions)) :=
    ⟨⟨rfl, rfl, rfl, rfl⟩, 1, rfl, writeRegister_enable _ _ rfl⟩
  obtain ⟨u, hu, hp⟩ := Outcome.exists_of_holds
    (o := run busStep (readIssued (fun _ => free) (started acrossRegions))
      [.readResp 0 fun _ => 0, .event 0 fun _ => free])
    (P := fun u => u.issued.any fun pkt => (addresses pkt).any fun a => slaveIndex a != dstOf pkt) (by decide +kernel)
  obtain ⟨pkt, hpkt, hd⟩ := List.any_eq_true.mp hp
  obtain ⟨a, ha, hne⟩ := List.any_eq_true.mp hd
  exact bne_iff_ne.mp hne (h _ _ _ hs _ u hu pkt hpkt a ha)

end SocModel.Dma
