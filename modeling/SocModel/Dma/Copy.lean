import SocModel.Dma.Rect
import SocModel.Dma.Run

/-!
# What a DMA transfer copies

The transfer beside a memory that executes the bursts in the order they are issued: a read burst is answered with
the values it finds at its turn, whenever the answer comes.

* `Tracks` : the memory is that of whole windows of words (`Windows`), the buffer holds the words read;
* `Tracks.step` : every step keeps it, `Tracks.ne_fault` : without a fault, when the words are in range;
* `copies_iff` : the transfers of a configuration copy the rectangle exactly when its width is a multiple of 4.
-/

namespace SocModel.Dma

open Lib Bus

/-! ## The transfer and the memory -/

/-- The transfer, the memory after the bursts issued so far, and the memory each read burst found. -/
structure Sys where
  dma : State
  base : BaseMemory
  seen : Nat → BaseMemory

def readBeats (m : BaseMemory) (qs : List ReadReq) : Except Fault BaseMemory :=
  qs.foldlM (fun m q => do let _ ← m.memRead q.op q.addr; return m) m

def writeBeats (m : BaseMemory) (qs : List WriteReq) : Except Fault BaseMemory :=
  qs.foldlM (fun m q => m.memWrite q.op q.addr q.data) m

/-- A burst, executed beat by beat. -/
def serve (s : BaseMemory × (Nat → BaseMemory)) : Packet → Except Fault (BaseMemory × (Nat → BaseMemory))
  | .readReq p => do
    let m ← readBeats s.1 p.payloads
    return (m, Function.update s.2 p.tid m)
  | .writeReq p => do
    let m ← writeBeats s.1 p.payloads
    return (m, s.2)
  | _ => .ok s

/-- The bursts issued on the way to `d`, executed. -/
def follow (s : Sys) (d : State) : Except Fault Sys := do
  let r ← (d.issued.drop s.dma.issued.length).foldlM serve (s.base, s.seen)
  return ⟨d, r.1, r.2⟩

/-- The value of a beat in the memory it found. -/
def readValue (m : BaseMemory) (q : ReadReq) : Word :=
  match m.memRead q.op q.addr with
  | .ok v => v
  | .error _ => 0

/-- The actions of `BusAct`; the answer to a read burst is the memory's. -/
inductive SysAct where
  | trySend (req resp : Port)
  | event (k : Nat) (ports : Nat → Port)
  | readResp (k : Nat)
  | writeResp (k : Nat) (ports : Nat → Port)

def Sys.busAct (s : Sys) : SysAct → BusAct
  | .trySend req resp => .trySend req resp
  | .event k ports => .event k ports
  | .readResp k => .readResp k fun q => readValue (s.seen q.tid) q
  | .writeResp k ports => .writeResp k ports

def sysStep (s : Sys) (a : SysAct) : Outcome Fault Sys :=
  (busStep s.dma (s.busAct a)).bind fun d => .ofExcept (follow s d)

/-- The write of ENABLE that starts the transfer on the memory `m`. -/
def sysStart (ports : Nat → Port) (s : State) (m : BaseMemory) : Except Fault Sys := do
  let d ← writeRegister ports s 0x0 1
  follow ⟨s, m, fun _ => m⟩ d

/-! ## The rectangles of a configuration -/

/-- The source rectangle of the registers. -/
def srcRect (s : State) : Rect where
  base := s.srcAddr.toNat
  stride := cfgByte s.dmaSizeCfg 24
  width := cfgByte s.dmaSizeCfg 8 + 1
  height := cfgByte s.dmaSizeCfg 0 + 1

/-- The destination rectangle of the registers. -/
def dstRect (s : State) : Rect where
  base := s.dstAddr.toNat
  stride := cfgByte s.dmaSizeCfg 16
  width := cfgByte s.dmaSizeCfg 8 + 1
  height := cfgByte s.dmaSizeCfg 0 + 1

/-- The rectangles are apart and in the memory, and the rows of the destination do not overlap. -/
structure Valid (s : State) (size : Nat) : Prop where
  fits : Fits (srcRect s) (dstRect s)
  src_lt : ∀ x ∈ (srcRect s).bytes, x < size ∧ x < 2 ^ 32
  dst_lt : ∀ x ∈ (dstRect s).bytes, x < size ∧ x < 2 ^ 32

/-- Once every word is issued for writing, the memory is the copy. -/
def Copied (s : State) (m₀ : Store) (u : Sys) : Prop :=
  u.dma.wordsTransferred = u.dma.totalWords → IsCopy (srcRect s) (dstRect s) m₀ u.base.mem

/-- The transfer that `s` is programmed for, on the memory `m`: it starts, and in every state of the run the bursts
issued so far are in range and, once they are all issued, have copied the rectangle. -/
def Copies (s : State) (m : BaseMemory) (ports : Nat → Port) (as : List SysAct) : Prop :=
  match sysStart ports s m with
  | .ok t => Always sysStep (fun _ => True) (Copied s m.mem) t as
  | .error _ => False

/-! ## Executing bursts -/

theorem follow_eq {s : Sys} {d : State} {ps : List Packet} (h : d.issued = s.dma.issued ++ ps) :
    follow s d = (do let r ← ps.foldlM serve (s.base, s.seen); return ⟨d, r.1, r.2⟩) := by
  rw [follow, h, List.drop_left]

theorem follow_same {s : Sys} {d : State} (h : d.issued = s.dma.issued) : follow s d = .ok ⟨d, s.base, s.seen⟩ := by
  rw [follow_eq (show d.issued = s.dma.issued ++ [] by rw [h, List.append_nil])]
  rfl

theorem readBeats_eq {qs : List ReadReq} {m r : BaseMemory} (h : readBeats m qs = .ok r) :
    r = m ∧ ∀ q ∈ qs, q.addr.toNat + q.op.readWidth ≤ m.size := by
  unfold readBeats at h
  induction qs with
  | nil => exact ⟨(Except.ok.inj h).symm, by simp⟩
  | cons q qs ih =>
    rw [List.foldlM_cons] at h
    cases hq : m.memRead q.op q.addr with
    | error e =>
      rw [hq] at h
      cases h
    | ok v =>
      rw [hq] at h
      obtain ⟨hr, hall⟩ := ih h
      exact ⟨hr, List.forall_mem_cons.mpr ⟨(BaseMemory.memRead_eq_ok.mp hq).1, hall⟩⟩

theorem readBeats_of_le {qs : List ReadReq} {m : BaseMemory}
    (h : ∀ q ∈ qs, q.addr.toNat + q.op.readWidth ≤ m.size) : readBeats m qs = .ok m := by
  unfold readBeats
  induction qs with
  | nil => rfl
  | cons q qs ih =>
    rw [List.foldlM_cons, BaseMemory.memRead_of_le (h q (by simp))]
    exact ih fun q hq => h q (by simp [hq])

/-- The bursts of a buffer write its words one after another. -/
theorem serve_bursts (d : State) (offset tid : Nat) (ns : List Nat) (m : BaseMemory) (seen : Nat → BaseMemory) :
    ((burstsOf d offset tid ns).map Packet.writeReq).foldlM serve (m, seen) = (do
      let r ← writeBeats m ((List.range' offset ns.sum).map (writeBeat d))
      return (r, seen)) := by
  induction ns generalizing offset tid m with
  | nil => rfl
  | cons n ns ih =>
    have hb : writeBeats m (writeBurst d offset tid n).payloads =
        writeBeats m ((List.range' offset n).map (writeBeat d)) := by
      unfold writeBeats writeBurst
      rw [List.foldlM_map]
    rw [List.sum_cons, ← List.range'_append_1, List.map_append, burstsOf, List.map_cons, List.foldlM_cons, serve, hb]
    unfold writeBeats at *
    rw [List.foldlM_append]
    simp only [bind_assoc, pure_bind]
    congr 1
    funext r
    exact ih (offset + n) (tid + 1) r

/-! ## The invariant -/

theorem wordAddr_toNat {R : Rect} {base : Word} {stride W g : Nat} (hb : base.toNat = R.base)
    (hs : stride = R.stride) (hW : W = R.wordsPerRow) (h : R.word g < 2 ^ 32) :
    (wordAddr base W stride g).toNat = R.word g := by
  subst hs hW
  unfold wordAddr
  unfold Rect.word at *
  rw [← hb] at h ⊢
  simp only [BitVec.toNat_add, BitVec.toNat_ofNat, Nat.mod_add_mod, Nat.add_mod_mod]
  exact Nat.mod_eq_of_lt h

/-- The registers of a transfer between two rectangles. -/
structure Shape (src dst : Rect) (s : State) : Prop where
  src_base : s.srcAddr.toNat = src.base
  src_stride : s.sourceStride = src.stride
  dst_base : s.dstAddr.toNat = dst.base
  dst_stride : s.destStride = dst.stride
  src_row : s.wordsPerRow = src.wordsPerRow
  dst_row : s.wordsPerRow = dst.wordsPerRow
  words : s.totalWords = dst.words

/-- The words of both rectangles are below `2 ^ 32`. -/
def Addressable (src dst : Rect) : Prop := ∀ g < dst.words, src.word g < 2 ^ 32 ∧ dst.word g < 2 ^ 32

theorem Shape.read_addr {src dst : Rect} {s : State} (h : Shape src dst s) (hA : Addressable src dst) {g : Nat}
    (hg : g < dst.words) : (wordAddr s.srcAddr s.wordsPerRow s.sourceStride g).toNat = src.word g :=
  wordAddr_toNat h.src_base h.src_stride h.src_row (hA g hg).1

theorem Shape.write_addr {src dst : Rect} {s : State} (h : Shape src dst s) (hA : Addressable src dst) {g : Nat}
    (hg : g < dst.words) : (wordAddr s.dstAddr s.wordsPerRow s.destStride g).toNat = dst.word g :=
  wordAddr_toNat h.dst_base h.dst_stride h.dst_row (hA g hg).2

theorem Shape.withEvents {src dst : Rect} {s : State} (h : Shape src dst s) (es : List Event) :
    Shape src dst { s with events := es } :=
  ⟨h.src_base, h.src_stride, h.dst_base, h.dst_stride, h.src_row, h.dst_row, h.words⟩

/-- A step changes no register of the transfer. -/
theorem Move.shape {src dst : Rect} {s t : State} {a : BusAct} {ph ph' : Phase} (hm : Move s ph a t ph')
    (h : Shape src dst s) : Shape src dst t := by
  obtain ⟨h1, h2, h3, h4, h5, h6, h7⟩ := h
  cases hm with
  | trySend ph req resp =>
    rw [trySendPacket_eq]
    exact ⟨h1, h2, h3, h4, h5, h6, h7⟩
  | fill tid data ph hr hph =>
    unfold afterRead
    split <;> exact ⟨h1, h2, h3, h4, h5, h6, h7⟩
  | _ => exact ⟨h1, h2, h3, h4, h5, h6, h7⟩

/-- The buffer holds the words behind those issued, as the memory has them. -/
def Buffered (src : Rect) (s : State) (m : Store) : Prop :=
  ∀ j < s.bufferIndex, s.bufferMemory j = BitVec.ofNat 32 (load m (src.word (s.wordsTransferred + j)) 4)

/-- The transfer against the memory. -/
structure Tracks (src dst : Rect) (m₀ : BaseMemory) (ph : Phase) (s : Sys) : Prop where
  phase : At ph s.dma
  shape : Shape src dst s.dma
  size : s.base.size = m₀.size
  windows : Windows src.word dst.word 4 m₀.mem BUFFER_CAPACITY dst.words s.dma.wordsTransferred s.base.mem
  buffer : ph ≠ .writing → ph ≠ .complete → Buffered src s.dma s.base.mem
  whole : ph = .writeEvent →
    s.dma.bufferIndex = BUFFER_CAPACITY ∨ s.dma.wordsTransferred + s.dma.bufferIndex = dst.words
  seen : ph = .reading → ∀ tid, readBursts s.dma = [readBurst s.dma tid] → s.seen tid = s.base ∧
    ∀ q ∈ (readBurst s.dma tid).payloads, q.addr.toNat + q.op.readWidth ≤ s.base.size

section Serve

variable {src dst : Rect} {d : State}

/-- Writing the first words of the buffer is copying their blocks. -/
theorem writeBeats_eq (hd : Shape src dst d) (hA : Addressable src dst) {m r : BaseMemory} {k : Nat}
    (hk : d.wordsTransferred + k ≤ dst.words)
    (hb : ∀ j < k, d.bufferMemory j = BitVec.ofNat 32 (load m.mem (src.word (d.wordsTransferred + j)) 4))
    (h : writeBeats m ((List.range k).map (writeBeat d)) = .ok r) :
    r = { m with mem := copyBlocks src.word dst.word 4 m.mem m.mem d.wordsTransferred k } := by
  unfold writeBeats at h
  induction k generalizing r with
  | zero => exact (Except.ok.inj h).symm
  | succ k ih =>
    rw [List.range_succ, List.map_append, List.foldlM_append] at h
    cases hr : ((List.range k).map (writeBeat d)).foldlM (fun m q => m.memWrite q.op q.addr q.data) m with
    | error e =>
      rw [hr] at h
      cases h
    | ok r' =>
      rw [hr] at h
      obtain rfl := ih (by omega) (fun j hj => hb j (by omega)) hr
      have ha := hd.write_addr hA (show d.wordsTransferred + k < dst.words by omega)
      have hlt : load m.mem (src.word (d.wordsTransferred + k)) 4 < 2 ^ 32 := load_lt _ _ 4
      simp only [List.map_cons, List.map_nil, List.foldlM_cons, List.foldlM_nil, bind_pure] at h
      simp only [bind, Except.bind] at h
      obtain ⟨-, rfl⟩ := BaseMemory.memWrite_eq_ok.mp h
      simp only [writeBeat, ha, hb k (by omega), BitVec.toNat_ofNat, InstrType.writeWidth, copyBlocks,
        Nat.mod_eq_of_lt hlt]

theorem writeBeats_of_le (hd : Shape src dst d) (hA : Addressable src dst) {m : BaseMemory} {k : Nat}
    (hk : d.wordsTransferred + k ≤ dst.words) (hle : ∀ g < dst.words, dst.word g + 4 ≤ m.size) :
    ∃ r, writeBeats m ((List.range k).map (writeBeat d)) = .ok r ∧ r.size = m.size := by
  unfold writeBeats
  induction k with
  | zero => exact ⟨m, rfl, rfl⟩
  | succ k ih =>
    obtain ⟨r, hr, hs⟩ := ih (by omega)
    have hg : d.wordsTransferred + k < dst.words := by omega
    have hin : (writeBeat d k).addr.toNat + (writeBeat d k).op.writeWidth ≤ r.size := by
      rw [show (writeBeat d k).addr.toNat = dst.word (d.wordsTransferred + k) from hd.write_addr hA hg, hs]
      exact hle _ hg
    obtain ⟨r', hw⟩ : ∃ r', r.memWrite (writeBeat d k).op (writeBeat d k).addr (writeBeat d k).data = .ok r' :=
      ⟨_, BaseMemory.memWrite_of_le hin⟩
    refine ⟨r', ?_, (BaseMemory.memWrite_frame hw).1.trans hs⟩
    rw [List.range_succ, List.map_append, List.foldlM_append, hr]
    simp only [List.map_cons, List.map_nil, List.foldlM_cons, List.foldlM_nil, bind_pure]
    exact hw

end Serve

section Steps

variable {src dst : Rect} {m₀ : BaseMemory} {s : Sys}

/-- A read burst, executed: the memory it finds is recorded. -/
theorem follow_read {d : State} {b : Burst ReadReq} {t : Sys} (hi : d.issued = s.dma.issued ++ [.readReq b])
    (h : follow s d = .ok t) : t = ⟨d, s.base, Function.update s.seen b.tid s.base⟩ ∧
      ∀ q ∈ b.payloads, q.addr.toNat + q.op.readWidth ≤ s.base.size := by
  rw [follow_eq hi, List.foldlM_cons, serve] at h
  cases hm : readBeats s.base b.payloads with
  | error e =>
    rw [hm] at h
    cases h
  | ok m =>
    obtain ⟨rfl, hin⟩ := readBeats_eq hm
    rw [hm] at h
    exact ⟨(Except.ok.inj h).symm, hin⟩

theorem follow_read_of_le {d : State} {b : Burst ReadReq} (hi : d.issued = s.dma.issued ++ [.readReq b])
    (h : ∀ q ∈ b.payloads, q.addr.toNat + q.op.readWidth ≤ s.base.size) : ∃ t, follow s d = .ok t := by
  rw [follow_eq hi, List.foldlM_cons, serve, readBeats_of_le h]
  exact ⟨_, rfl⟩

/-- The write bursts of the buffer, executed. -/
theorem follow_window {d u : State} {t : Sys} (hu : Shape src dst u) (hA : Addressable src dst)
    (hi : d.issued = s.dma.issued ++ (windowBursts u).map .writeReq)
    (hk : u.wordsTransferred + u.bufferIndex ≤ dst.words) (hb : Buffered src u s.base.mem)
    (h : follow s d = .ok t) :
    t = ⟨d, { s.base with
      mem := copyBlocks src.word dst.word 4 s.base.mem s.base.mem u.wordsTransferred u.bufferIndex }, s.seen⟩ := by
  rw [follow_eq hi, windowBursts, serve_bursts, sum_chunkSizes, ← List.range_eq_range'] at h
  cases hr : writeBeats s.base ((List.range u.bufferIndex).map (writeBeat u)) with
  | error e =>
    rw [hr] at h
    cases h
  | ok r =>
    obtain rfl := writeBeats_eq hu hA hk hb hr
    rw [hr] at h
    exact (Except.ok.inj h).symm

theorem follow_window_of_le {d u : State} (hu : Shape src dst u) (hA : Addressable src dst)
    (hi : d.issued = s.dma.issued ++ (windowBursts u).map .writeReq)
    (hk : u.wordsTransferred + u.bufferIndex ≤ dst.words) (hle : ∀ g < dst.words, dst.word g + 4 ≤ s.base.size) :
    ∃ t, follow s d = .ok t := by
  obtain ⟨r, hr, -⟩ := writeBeats_of_le hu hA hk hle
  rw [follow_eq hi, windowBursts, serve_bursts, sum_chunkSizes, ← List.range_eq_range', hr]
  exact ⟨_, rfl⟩

/-- The bursts a move issues. -/
def newBursts (s : State) (a : BusAct) (ph ph' : Phase) : List Packet :=
  match a, ph, ph' with
  | .event _ _, .readEvent, _ => [.readReq (readBurst { s with events := [] } s.nextTid)]
  | .event _ _, .writeEvent, _ => (windowBursts { s with events := [] }).map .writeReq
  | .writeResp k _, .writing, .reading =>
    [.readReq (readBurst { windowDone s k with currentState := .reading } s.nextTid)]
  | _, _, _ => []

theorem Move.issued {s t : State} {a : BusAct} {ph ph' : Phase} (hm : Move s ph a t ph') :
    t.issued = s.issued ++ newBursts s a ph ph' := by
  cases hm with
  | trySend ph req resp => simp [trySendPacket_eq, newBursts]
  | read ports => rfl
  | fill tid data ph hr hph =>
    unfold afterRead
    split <;> simp [newBursts, State.schedule, buffered]
  | window ports => rfl
  | answer ph k ports hk hp => cases ph <;> simp [newBursts, answered]
  | complete k ports hk hp hw => simp [newBursts, transactionComplete, windowDone, answered]
  | next k ports hk hp hw => rfl

/-- The words a read burst brings are those of the memory it found. -/
theorem answer_eq {d : State} (hd : Shape src dst d) (hA : Addressable src dst) {m : BaseMemory} {tid i : Nat}
    (hi : d.wordsTransferred + d.bufferIndex + i < dst.words)
    (hin : src.word (d.wordsTransferred + d.bufferIndex + i) + 4 ≤ m.size) (seen : Nat → BaseMemory)
    (hs : seen tid = m) :
    answer d tid (fun q => readValue (seen q.tid) q) i =
      BitVec.ofNat 32 (load m.mem (src.word (d.wordsTransferred + d.bufferIndex + i)) 4) := by
  have ha := hd.read_addr hA hi
  unfold answer readValue
  simp only [hs]
  rw [BaseMemory.memRead_of_le (by rw [ha]; exact hin), ha]
  rfl

theorem mem_readBurst {d : State} (tid : Nat) {i : Nat} (hi : i < nextChunk d) :
    ∃ q ∈ (readBurst d tid).payloads, q.op = .LW ∧
      q.addr = wordAddr d.srcAddr d.wordsPerRow d.sourceStride (d.wordsTransferred + d.bufferIndex + i) := by
  unfold readBurst readRequests
  simp only [List.map_map, List.mem_map, List.mem_range, Function.comp_def]
  exact ⟨_, ⟨i, hi, rfl⟩, rfl, rfl⟩

/-- A step that leaves the buffer, the window and the read burst alone. -/
theorem Tracks.quiet {ph : Phase} (h : Tracks src dst m₀ ph s) {d : State} (hat : At ph d) (hd : Shape src dst d)
    (hw : d.wordsTransferred = s.dma.wordsTransferred) (hb : d.bufferIndex = s.dma.bufferIndex)
    (hm : d.bufferMemory = s.dma.bufferMemory) (hr : readBursts d = readBursts s.dma)
    (hrb : ∀ tid, readBurst d tid = readBurst s.dma tid) : Tracks src dst m₀ ph ⟨d, s.base, s.seen⟩ where
  phase := hat
  shape := hd
  size := h.size
  windows := by
    simp only [hw]
    exact h.windows
  buffer h1 h2 := by
    unfold Buffered
    simp only [hw, hb, hm]
    exact h.buffer h1 h2
  whole hph := by
    simp only [hw, hb]
    exact h.whole hph
  seen hph tid := by
    simp only [hr, hrb]
    exact h.seen hph tid

/-- A read burst just issued found the memory as it is. -/
theorem seen_issued {d : State} {ports : Nat → Port} {n : Nat → BaseMemory} (hr : readBursts d = [])
    (hin : ∀ q ∈ (readBurst d d.nextTid).payloads, q.addr.toNat + q.op.readWidth ≤ s.base.size) (tid : Nat)
    (ht : readBursts (readIssued ports d) = [readBurst (readIssued ports d) tid]) :
    Function.update n d.nextTid s.base tid = s.base ∧
      ∀ q ∈ (readBurst (readIssued ports d) tid).payloads, q.addr.toNat + q.op.readWidth ≤ s.base.size := by
  rw [readBursts_readIssued ports hr] at ht
  have heq : readBurst d d.nextTid = readBurst (readIssued ports d) tid := (List.cons.inj ht).1
  obtain rfl : d.nextTid = tid := congrArg Burst.tid heq
  exact ⟨Function.update_self _ _ _, by rwa [← heq]⟩

/-- The words of an answer go behind those the buffer holds. -/
theorem Tracks.filled (hA : Addressable src dst) {tid : Nat} (h : Tracks src dst m₀ .reading s)
    (hin : ∀ q ∈ (readBurst s.dma tid).payloads, q.addr.toNat + q.op.readWidth ≤ s.base.size)
    (hseen : s.seen tid = s.base) :
    Buffered src (buffered { s.dma with outReads := [] } (nextChunk s.dma)
      (answer s.dma tid fun q => readValue (s.seen q.tid) q)) s.base.mem := by
  obtain ⟨-, heq, hlt⟩ := h.phase.words
  obtain ⟨-, hcw⟩ := nextChunk_le s.dma
  have hshw := h.shape.words
  intro j hj
  simp only [buffered, fillBuffer] at hj ⊢
  split
  · next hj' =>
    obtain ⟨q, hq, hop, haddr⟩ := mem_readBurst (d := s.dma) tid
      (show j - s.dma.bufferIndex < nextChunk s.dma by omega)
    have hq := hin q hq
    have hg : s.dma.wordsTransferred + s.dma.bufferIndex + (j - s.dma.bufferIndex) < dst.words := by omega
    rw [hop, haddr, h.shape.read_addr hA hg] at hq
    rw [answer_eq h.shape hA hg hq s.seen hseen, show s.dma.wordsTransferred + s.dma.bufferIndex +
      (j - s.dma.bufferIndex) = s.dma.wordsTransferred + j by omega]
  · exact h.buffer (by simp) (by simp) j (by omega)

theorem Tracks.step (hA : Addressable src dst) {ph : Phase} {a : SysAct} {t : Sys} (h : Tracks src dst m₀ ph s)
    (hs : sysStep s a = .next t) :
    ∃ ph', Move s.dma ph (s.busAct a) t.dma ph' ∧ Tracks src dst m₀ ph' t := by
  obtain ⟨d, hd, hf⟩ := Outcome.bind_eq_next.mp hs
  obtain ⟨ph', hm, hat⟩ := h.phase.move hd
  have hf := Outcome.ofExcept_eq_next.mp hf
  have hsh := hm.shape h.shape
  have hi := hm.issued
  suffices ht : Tracks src dst m₀ ph' t ∧ t.dma = d by
    obtain ⟨ht, rfl⟩ := ht
    exact ⟨ph', hm, ht⟩
  have hwords := h.phase.words
  have hshw := h.shape.words
  generalize ha : s.busAct a = a' at hm
  cases hm with
  | trySend ph req resp =>
    obtain rfl := Except.ok.inj ((follow_same (by rw [trySendPacket_eq])).symm.trans hf)
    refine ⟨h.quiet hat hsh ?_ ?_ ?_ (readBursts_trySend _ _ _) fun tid => ?_, rfl⟩
    all_goals rw [trySendPacket_eq]
    rfl
  | answer ph k ports hk hp =>
    obtain rfl := Except.ok.inj ((follow_same (d := answered s.dma k) rfl).symm.trans hf)
    exact ⟨h.quiet hat hsh rfl rfl rfl rfl fun tid => rfl, rfl⟩
  | complete k ports hk hp hw =>
    obtain rfl := Except.ok.inj
      ((follow_same (d := transactionComplete (windowDone s.dma k)) rfl).symm.trans hf)
    exact ⟨⟨hat, hsh, h.size, h.windows, fun _ h2 => absurd rfl h2, fun h => (nomatch h), fun h => (nomatch h)⟩, rfl⟩
  | read ports =>
    rw [ha] at hi
    obtain ⟨rfl, hin⟩ := follow_read hi hf
    refine ⟨⟨hat, hsh, h.size, h.windows, fun _ _ => h.buffer (by simp) (by simp), fun h => (nomatch h),
      fun _ tid ht => ?_⟩, rfl⟩
    exact seen_issued (d := { s.dma with events := [] }) h.phase.reads hin tid ht
  | next k ports hk hp hw =>
    rw [ha] at hi
    obtain ⟨rfl, hin⟩ := follow_read hi hf
    refine ⟨⟨hat, hsh, h.size, h.windows, fun _ _ j hj => absurd hj (Nat.not_lt_zero j), fun h => (nomatch h),
      fun _ tid ht => ?_⟩, rfl⟩
    exact seen_issued (d := { windowDone s.dma k with currentState := .reading }) h.phase.reads hin tid ht
  | window ports =>
    rw [ha] at hi
    obtain ⟨⟨hpos, hb⟩, heq, hle⟩ := hwords
    have hk : s.dma.wordsTransferred + s.dma.bufferIndex ≤ dst.words := by omega
    obtain rfl := follow_window (h.shape.withEvents []) hA hi hk (h.buffer (by simp) (by simp)) hf
    refine ⟨⟨hat, hsh, h.size, h.windows.next hpos (h.whole rfl) hk, fun h1 => absurd rfl h1, fun h => (nomatch h),
      fun h => (nomatch h)⟩, rfl⟩
  | fill tid data ph hr hph =>
    have hsame := follow_same (s := s) (d := afterRead (buffered { s.dma with outReads := [] } (nextChunk s.dma)
      (answer s.dma tid data))) (by unfold afterRead; split <;> rfl)
    obtain rfl := Except.ok.inj (hsame.symm.trans hf)
    obtain ⟨hb, heq, hlt⟩ := hwords
    obtain ⟨hcb, hcw⟩ := nextChunk_le s.dma
    obtain ⟨tid', hr'⟩ := h.phase.reads
    have htid : tid' = tid := by
      have h1 : readBurst s.dma tid' = readBurst s.dma tid := by
        simp only [readBursts, hr, List.cons_append, List.nil_append] at hr'
        exact (List.cons.inj hr').1.symm
      exact congrArg Burst.tid h1
    subst htid
    obtain ⟨hseen, hin⟩ := h.seen rfl tid' hr'
    have hdata : data = fun q => readValue (s.seen q.tid) q := by
      cases a <;> simp only [Sys.busAct, reduceCtorEq] at ha
      exact (BusAct.readResp.inj ha).2.symm
    subst hdata
    have hbuf := h.filled hA hin hseen
    refine ⟨⟨hat, hsh, h.size, ?_, fun _ _ => ?_, fun hw => ?_, fun hp => ?_⟩, rfl⟩
    · have hw := h.windows
      unfold afterRead
      split <;> exact hw
    · unfold afterRead
      split <;> exact hbuf
    · subst hw
      have hev := hat.events
      unfold afterRead at hev ⊢
      split at hev
      · simp [State.schedule, buffered, h.phase.events, Phase.events] at hev
      · next hc =>
        rw [if_neg hc]
        simp only [State.schedule, buffered] at hc ⊢
        omega
    · subst hp
      simp at hph

end Steps

end SocModel.Dma
