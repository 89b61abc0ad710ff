import SocModel.Dma.Isolation
import SocModel.Isa.Exec
import SocModel.Lib.Registers
import SocModel.Sa.AddressMap
import SocModel.Sa.Runs
import SocModel.Sa.SizeCfg

/-!
# The configuration registers

The DMA and the systolic array are configured by writes of their registers, and software may read them back. Each
module decodes the writes and the reads in two switches of their own. The DMA stores what is written; the array adds 1
to the fields of its size registers and packs them for a read as they are.

* `Dma.regs_step`, `Sa.regs_step` : only a write of a register changes the bank;
* `WellWritten` : the last writes of the array's registers are those a driver makes;
* `readBack_iff` : along every run of either module that does not write ENABLE, a configuration register reads as it
  was last written, unless it is a size register of the array;
* `not_readBack_size` : a size register.
-/

namespace SocModel

open Lib Bus

namespace Dma

/-- The configuration registers. -/
structure Regs where
  srcAddr : Word
  dstAddr : Word
  dmaSizeCfg : Word
  deriving DecidableEq, Repr

def State.regs (s : State) : Regs := ⟨s.srcAddr, s.dstAddr, s.dmaSizeCfg⟩

def Regs.put (b : Regs) (r : Nat) (v : Word) : Regs :=
  match r with
  | 0x4 => { b with srcAddr := v }
  | 0x8 => { b with dstAddr := v }
  | 0xC => { b with dmaSizeCfg := v }
  | _ => b

/-- The write of a register that an action makes. -/
def write? (_ : State) : Act → Option (Nat × Word)
  | .writeMmio _ p _ => some (p.addr.toNat % 64, p.data)
  | _ => none

/-- The action does not write ENABLE. -/
def NoEnable (s : State) (a : Act) : Prop := ∀ w ∈ write? s a, w.1 ≠ 0x0

instance (s : State) (a : Act) : Decidable (NoEnable s a) :=
  inferInstanceAs (Decidable (∀ w ∈ write? s a, w.1 ≠ 0x0))

/-- SOURCE_INFO, DEST_INFO and DMA_SIZE_CFG. -/
def IsConfig (r : Nat) : Prop := r = 0x4 ∨ r = 0x8 ∨ r = 0xC

/-- A read of register `r` in the state `d` is answered with `v`. -/
def Returns (d : State) (r : Nat) (v : Word) : Prop :=
  ∀ (q : ReadReq) (recycled : Nat), q.addr.toNat % 64 = r → q.caller = .cpu ∨ q.caller = .sa →
    readMmio q recycled d = .ok { d with respQ := d.respQ ++ [.readResp (constructMemReadRespPkt
      [{ tid := q.tid, instr := q.instr, op := q.op, data := v, a1 := q.a1 }] .dma q.caller recycled)] }

/-! ## What leaves the bank of the DMA as it is -/

section

variable {s t : State} (ports : Nat → Port)

theorem regs_pushOrQueueWrite (port : Port) (p : Burst WriteReq) (s : State) :
    (pushOrQueueWrite port p s).regs = s.regs := by
  unfold pushOrQueueWrite
  split <;> rfl

theorem regs_writeLoop {fuel k offset : Nat} (h : writeLoop ports fuel k offset s = .ok t) : t.regs = s.regs := by
  induction fuel generalizing k offset s with
  | zero => exact Except.ok.inj h ▸ rfl
  | succ fuel ih =>
    unfold writeLoop at h
    split at h
    · obtain ⟨reqs, -, h⟩ := Except.bind_eq_ok.mp h
      obtain ⟨pkt, -, h⟩ := Except.bind_eq_ok.mp h
      rw [ih h, regs_pushOrQueueWrite]
      rfl
    · exact Except.ok.inj h ▸ rfl

theorem regs_issueWindow (h : issueWindow ports s = .ok t) : t.regs = s.regs := by
  obtain ⟨u, hu, h⟩ := Except.bind_eq_ok.mp h
  exact Except.ok.inj h ▸ (regs_writeLoop ports hu).trans rfl

theorem regs_scheduleReadsForBuffer (h : scheduleReadsForBuffer ports s = .ok t) : t.regs = s.regs := by
  unfold scheduleReadsForBuffer at h
  dsimp only at h
  split at h
  · split at h
    · exact Except.ok.inj h ▸ rfl
    · exact (regs_issueWindow ports h).trans rfl
  · obtain ⟨pkt, -, h⟩ := Except.bind_eq_ok.mp h
    refine Except.ok.inj h ▸ ?_
    split <;> rfl

theorem regs_scheduleWritesFromBuffer (h : scheduleWritesFromBuffer ports s = .ok t) : t.regs = s.regs := by
  unfold scheduleWritesFromBuffer at h
  split at h
  · split at h
    · exact Except.ok.inj h ▸ rfl
    · exact (regs_scheduleReadsForBuffer ports h).trans rfl
  · exact regs_issueWindow ports h

theorem regs_storeResponses {rs : List ReadResp} (h : rs.foldlM storeResponse s = .ok t) : t.regs = s.regs := by
  induction rs generalizing s with
  | nil => exact Except.ok.inj h ▸ rfl
  | cons r rs ih =>
    obtain ⟨u, hu, h⟩ := Except.bind_eq_ok.mp h
    rw [ih h]
    unfold storeResponse at hu
    split at hu
    · exact Except.ok.inj hu ▸ rfl
    · cases hu

theorem regs_handleReadResponse {p : Burst ReadResp} (h : handleReadResponse p s = .ok t) : t.regs = s.regs := by
  obtain ⟨u, hu, h⟩ := Except.bind_eq_ok.mp h
  have hregs := regs_storeResponses hu
  dsimp only at h
  split at h
  · exact Except.ok.inj h ▸ hregs
  · exact Except.ok.inj h ▸ hregs

theorem regs_handleWriteCompletion (h : handleWriteCompletion ports s = .ok t) : t.regs = s.regs := by
  unfold handleWriteCompletion at h
  dsimp only at h
  split at h
  · split at h
    · exact Except.ok.inj h ▸ rfl
    · exact (regs_scheduleReadsForBuffer ports h).trans rfl
  · exact Except.ok.inj h ▸ rfl

theorem regs_busStep {a : BusAct} (h : busStep s a = .next t) : t.regs = s.regs := by
  cases a with
  | trySend req resp =>
    cases h
    rw [trySendPacket_eq]
    rfl
  | event k ports =>
    simp only [busStep] at h
    split at h
    · cases h
    · next e he =>
      have h := Outcome.ofExcept_eq_next.mp h
      cases e with
      | reads => exact (regs_scheduleReadsForBuffer ports h).trans rfl
      | writes => exact (regs_scheduleWritesFromBuffer ports h).trans rfl
  | readResp k data =>
    simp only [busStep] at h
    split at h
    · cases h
    · exact (regs_handleReadResponse (Outcome.ofExcept_eq_next.mp h)).trans rfl
  | writeResp k ports =>
    simp only [busStep] at h
    split at h
    · cases h
    · exact (regs_handleWriteCompletion ports (Outcome.ofExcept_eq_next.mp h)).trans rfl

end

theorem regs_writeRegister {ports : Nat → Port} {s t : State} {addr : Nat} {data : Word} (h0 : addr ≠ 0)
    (h : writeRegister ports s addr data = .ok t) : t.regs = s.regs.put addr data := by
  unfold writeRegister at h
  split at h
  · exact absurd rfl h0
  all_goals first
    | exact Except.ok.inj h ▸ rfl
    | cases h

/-- **One step of the DMA.** -/
theorem regs_step (s : State) (a : Act) (t : State) (hc : NoEnable s a) (hs : step s a = .next t) :
    t.regs = (write? s a).elim s.regs fun w => s.regs.put w.1 w.2 := by
  cases a with
  | bus a => exact regs_busStep hs
  | readMmio p recycled =>
    obtain ⟨data, -, hs⟩ := Except.bind_eq_ok.mp (Outcome.ofExcept_eq_next.mp hs)
    rw [respond_eq hs]
    rfl
  | writeMmio ports p recycled =>
    obtain ⟨u, hu, q, rfl⟩ := writeMmio_eq (Outcome.ofExcept_eq_next.mp hs)
    have hregs : u.regs = s.regs.put (p.addr.toNat % 64) p.data := regs_writeRegister (hc _ rfl) hu
    exact hregs

/-- **Reading back from the DMA.** -/
theorem returns_of_lastWrite {s t : State} {as : List Act} (hr : Reaches step s as t) (hc : Along step NoEnable s as)
    {r : Nat} (hcfg : IsConfig r) {v : Word} (hw : lastWrite step write? r s as = some v) : Returns t r v := by
  have hfield : ∀ field : Regs → Word, (Sets Regs.put field fun r' => if r' = r then some id else none) →
      field t.regs = v := by
    intro field hf
    refine field_eq_of_lastWrite regs_step hf hr hc (r := r) (by simp) hw fun r' g v' hg hv => ?_
    split at hg
    · next heq =>
      subst heq
      rw [hw] at hv
      cases hg
      exact (Option.some.inj hv).symm
    · cases hg
  have hread : readRegister t r = .ok v := by
    rcases hcfg with rfl | rfl | rfl
    · refine congrArg Except.ok (hfield Regs.srcAddr fun b r v => ?_)
      unfold Regs.put
      split <;> simp_all
    · refine congrArg Except.ok (hfield Regs.dstAddr fun b r v => ?_)
      unfold Regs.put
      split <;> simp_all
    · refine congrArg Except.ok (hfield Regs.dmaSizeCfg fun b r v => ?_)
      unfold Regs.put
      split <;> simp_all
  intro q recycled hq hcaller
  rw [readMmio, hq, hread]
  exact if_pos hcaller

end Dma

namespace Sa

/-- The configuration registers that can be read. -/
structure Regs where
  M : Word
  K : Word
  N : Word
  aAddr : Word
  bAddr : Word
  cAddr : Word
  strideA : Word
  strideB : Word
  strideC : Word
  deriving DecidableEq, Repr

def State.regs (s : State) : Regs :=
  ⟨s.M, s.K, s.N, s.aAddr, s.bAddr, s.cAddr, s.strideA, s.strideB, s.strideC⟩

def Regs.put (b : Regs) (r : Register) (v : Word) : Regs :=
  match r with
  | .mataSize => { b with M := sizeHigh v, K := sizeLow v }
  | .matbSize => { b with K := sizeHigh v, N := sizeLow v }
  | .matcSize => { b with M := sizeHigh v, N := sizeLow v }
  | .aAddr => { b with aAddr := v }
  | .bAddr => { b with bAddr := v }
  | .cAddr => { b with cAddr := v }
  | .stride => { b with strideA := v &&& 0xFF, strideB := (v >>> 8) &&& 0xFF, strideC := (v >>> 16) &&& 0xFF }
  | _ => b

/-- The write of a register that an action makes. -/
def write? (s : State) : Act → Option (Register × Word)
  | .event k _ =>
    match s.events[k]? with
    | some (.writeMmio p) => (Register.ofAddr p.addr).map fun r => (r, p.data)
    | _ => none
  | _ => none

/-- The action does not write ENABLE. -/
def NoEnable (s : State) (a : Act) : Prop := ∀ w ∈ write? s a, w.1 ≠ .enable

instance (s : State) (a : Act) : Decidable (NoEnable s a) :=
  inferInstanceAs (Decidable (∀ w ∈ write? s a, w.1 ≠ .enable))

namespace Register

def isSize : Register → Bool
  | mataSize | matbSize | matcSize => true
  | _ => false

/-- The configuration registers that the read switch has. -/
def isConfig : Register → Bool
  | mataSize | matbSize | matcSize | aAddr | bAddr | cAddr | stride => true
  | _ => false

end Register

/-- A read of register `r` in the state `s` is answered with `v`. -/
def Returns (s : State) (r : Register) (v : Word) : Prop :=
  ∀ (q : ReadReq) (recycled : Nat), Register.ofAddr q.addr = some r →
    readMmio q recycled s = .ok (s.respond (.readResp (constructMemReadRespPkt
      [{ tid := q.tid, instr := q.instr, op := q.op, data := v, a1 := q.a1 }] .sa q.caller recycled)))

/-! ## What leaves the bank of the array as it is -/

theorem Handled.regs {s t : State} (h : Handled s t) : t.regs = s.regs := by
  obtain ⟨sram, pending, reqQ, respQ, events, nextTid, rfl⟩ := h
  rfl

theorem regs_launchNextTile {s t : State} (h : launchNextTile s = .ok t) : t.regs = s.regs := by
  rcases launchNextTile_cases h with ⟨-, rfl⟩ | ⟨task, q, aTile, bTile, -, rfl⟩ <;> rfl

@[simp] theorem regs_dmaWrite (addr data : Word) (s : State) : (dmaWrite addr data s).regs = s.regs := rfl

@[simp] theorem regs_schedule (es : List Event) (s : State) : (s.schedule es).regs = s.regs := rfl

theorem regs_programDma (src dst cfg : Word) (s : State) : (programDma src dst cfg s).regs = s.regs := by
  unfold programDma pokeDMAReady
  simp only [regs_schedule, regs_dmaWrite]

theorem regs_transferDone {s t : State} (h : transferDone s = .ok t) : t.regs = s.regs := by
  rcases transferDone_cases h with ⟨-, rfl⟩ | ⟨-, aMatrix, bMatrix, -, -, h⟩ | ⟨-, rfl⟩
  · exact (regs_programDma _ _ _ _).trans rfl
  · exact (regs_launchNextTile h).trans rfl
  · rfl

theorem regs_handleReadResponse {p : Burst ReadResp} {s t : State} (h : handleReadResponse p s = .ok t) :
    t.regs = s.regs := by
  rcases handleReadResponse_cases h with h | rfl
  · exact regs_transferDone h
  · exact regs_schedule _ s

theorem regs_accept {s t : State} {p : Packet} (h : accept s p = .ok t) : t.regs = s.regs := by
  cases p with
  | readReq p => exact (handled_acceptRead h).regs
  | writeReq p => exact (handled_acceptWrite h).regs
  | readResp p => exact regs_handleReadResponse h
  | writeResp p => exact Except.ok.inj h ▸ rfl

theorem regs_runTile {ghost : Nat → Valid8} {k : Nat} {rest : List TileEvent} {array : Array2} {s t : State}
    {e : TileEvent} (h : runTile ghost k rest array s e = .ok t) : t.regs = s.regs := by
  cases e with
  | preload c | propagate c | flush c => exact Except.ok.inj h ▸ rfl
  | deposit =>
    simp only [runTile, deposit] at h
    split at h
    · exact (regs_launchNextTile h).trans rfl
    · cases h

theorem regs_writeRegister {s t : State} {data : Word} {r : Register} (h0 : r ≠ .enable)
    (h : writeRegister s data r = .ok t) : t.regs = s.regs.put r data := by
  unfold writeRegister at h
  split at h
  · exact absurd rfl h0
  all_goals exact Except.ok.inj h ▸ rfl

/-- **One step of the array.** -/
theorem regs_step (s : State) (a : Act) (t : State) (hc : NoEnable s a) (hs : step s a = .next t) :
    t.regs = (write? s a).elim s.regs fun w => s.regs.put w.1 w.2 := by
  cases a with
  | trySend req resp =>
    cases hs
    rfl
  | accept p => exact regs_accept (Outcome.ofExcept_eq_next.mp hs)
  | event k recycled =>
    simp only [step] at hs
    split at hs
    · cases hs
    · next e he =>
      have hs := Outcome.ofExcept_eq_next.mp hs
      cases e with
      | writeMmio p =>
        obtain ⟨r, u, hr, hu, q, rfl⟩ := writeMmio_eq_ok hs
        have hw : write? s (.event k recycled) = some (r, p.data) := by
          simp only [write?, he, hr, Option.map_some]
        rw [hw]
        have hregs := regs_writeRegister (hc _ hw) hu
        exact hregs
      | sramRead p | sramWrite p | readMmio p | poll =>
        have hw : write? s (.event k recycled) = none := by simp only [write?, he]
        rw [hw]
        exact (handled_runEvent (fun p hp => by cases hp) hs).regs.trans rfl
  | tile k ghost =>
    simp only [step] at hs
    split at hs
    · exact regs_runTile (Outcome.ofExcept_eq_next.mp hs)
    · cases hs

/-! ## The values of the fields -/

/-- The word with the fields `h` and `l`, as a driver writes it to a size register. -/
def sizeWord (h l : BitVec 12) : Word := (h.setWidth 32 <<< 16) ||| l.setWidth 32

/-- Two fields side by side. -/
theorem toNat_shiftLeft_or {x y : Word} {n : Nat} (hx : x.toNat * 2 ^ n < 2 ^ 32) (hy : y.toNat < 2 ^ n) :
    ((x <<< n) ||| y).toNat = x.toNat * 2 ^ n + y.toNat := by
  rw [BitVec.toNat_or, BitVec.toNat_shiftLeft, Nat.shiftLeft_eq, Nat.mod_eq_of_lt hx, ← Nat.shiftLeft_eq,
    ← Nat.shiftLeft_add_eq_or_of_lt hy, Nat.shiftLeft_eq]

theorem toNat_setWidth12 (h : BitVec 12) : (h.setWidth 32).toNat = h.toNat := by
  have hlt := h.isLt
  rw [BitVec.toNat_setWidth]
  exact Nat.mod_eq_of_lt (by omega)

theorem toNat_sizeWord (h l : BitVec 12) : (sizeWord h l).toNat = h.toNat * 2 ^ 16 + l.toNat := by
  have hh := h.isLt
  have hl := l.isLt
  unfold sizeWord
  rw [toNat_shiftLeft_or (by rw [toNat_setWidth12]; omega) (by rw [toNat_setWidth12]; omega), toNat_setWidth12,
    toNat_setWidth12]

theorem toNat_and_FFF (w : Word) : (w &&& 0xFFF).toNat = w.toNat % 2 ^ 12 :=
  Nat.and_two_pow_sub_one_eq_mod w.toNat 12

theorem sizeHigh_sizeWord (h l : BitVec 12) : sizeHigh (sizeWord h l) = h.setWidth 32 + 1 := by
  have hh := h.isLt
  have hl := l.isLt
  refine congrArg (· + 1) (BitVec.eq_of_toNat_eq ?_)
  rw [toNat_and_FFF, BitVec.toNat_ushiftRight, Nat.shiftRight_eq_div_pow, toNat_sizeWord, toNat_setWidth12]
  omega

theorem sizeLow_sizeWord (h l : BitVec 12) : sizeLow (sizeWord h l) = l.setWidth 32 + 1 := by
  have hl := l.isLt
  refine congrArg (· + 1) (BitVec.eq_of_toNat_eq ?_)
  rw [toNat_and_FFF, toNat_sizeWord, toNat_setWidth12]
  omega

/-- The fields with 1 added are never the word that was written. -/
theorem sizeRead_ne (h l : BitVec 12) :
    ((h.setWidth 32 + 1 : Word) <<< 16) ||| (l.setWidth 32 + 1) ≠ sizeWord h l := by
  have hh := h.isLt
  have hl := l.isLt
  have hinc : ∀ x : BitVec 12, (x.setWidth 32 + 1 : Word).toNat = x.toNat + 1 := by
    intro x
    have hx := x.isLt
    rw [BitVec.toNat_add, toNat_setWidth12]
    exact Nat.mod_eq_of_lt (by simp; omega)
  have hh1 := hinc h
  have hl1 := hinc l
  intro heq
  have hn := congrArg BitVec.toNat heq
  rw [toNat_shiftLeft_or (by omega) (by omega), toNat_sizeWord, hh1, hl1] at hn
  omega

/-- The three strides, each masked twice, are the word that was written. -/
theorem strideRead_eq {v : Word} (h : v.toNat < 2 ^ 24) :
    ((v &&& 0xFF) &&& 0xFF : Word) ||| ((((v >>> 8) &&& 0xFF) &&& 0xFF) <<< 8) |||
      ((((v >>> 16) &&& 0xFF) &&& 0xFF) <<< 16) = v := by
  have hb : ∀ w : Word, ((w &&& 0xFF) &&& 0xFF).toNat = w.toNat % 256 := by
    intro w
    rw [toNat_and_FF_mod, toNat_and_FF_mod, Nat.mod_mod]
  have h8 := hb (v >>> 8)
  have h16 := hb (v >>> 16)
  have h0 := hb v
  rw [BitVec.toNat_ushiftRight, Nat.shiftRight_eq_div_pow] at h8 h16
  apply BitVec.eq_of_toNat_eq
  have hlow : (((((v >>> 8) &&& 0xFF) &&& 0xFF) <<< 8) ||| ((v &&& 0xFF) &&& 0xFF : Word)).toNat =
      v.toNat / 2 ^ 8 % 256 * 2 ^ 8 + v.toNat % 256 := by
    rw [toNat_shiftLeft_or (by omega) (by omega), h8, h0]
  rw [BitVec.or_comm, BitVec.or_comm ((v &&& 0xFF) &&& 0xFF), toNat_shiftLeft_or (by omega) (by omega), hlow, h16]
  omega

/-! ## The registers that set a field -/

namespace Register

def setsM : Register → Option (Word → Word)
  | mataSize | matcSize => some sizeHigh
  | _ => none

def setsK : Register → Option (Word → Word)
  | mataSize => some sizeLow
  | matbSize => some sizeHigh
  | _ => none

def setsN : Register → Option (Word → Word)
  | matbSize | matcSize => some sizeLow
  | _ => none

/-- One register of its own. -/
def setsBy (r : Register) (g : Word → Word) (r' : Register) : Option (Word → Word) := if r' = r then some g else none

end Register

open Register

theorem sets_M : Sets Regs.put Regs.M setsM := fun _ r _ => by cases r <;> rfl

theorem sets_K : Sets Regs.put Regs.K setsK := fun _ r _ => by cases r <;> rfl

theorem sets_N : Sets Regs.put Regs.N setsN := fun _ r _ => by cases r <;> rfl

/-- What a driver has written: size registers that agree on `M`, `K` and `N`, and strides of 8 bits. -/
structure WellWritten (last : Register → Option Word) : Prop where
  sizes : ∃ m k n : BitVec 12, (∀ v ∈ last .mataSize, v = sizeWord m k) ∧ (∀ v ∈ last .matbSize, v = sizeWord k n) ∧
    ∀ v ∈ last .matcSize, v = sizeWord m n
  stride : ∀ v ∈ last .stride, v.toNat < 2 ^ 24

section

variable {s t : State} {as : List Act} (hr : Reaches step s as t) (hc : Along step NoEnable s as)

include hr hc

/-- A field of one register holds what its last write made it. -/
theorem field_setsBy (field : Regs → Word) {r : Register} (g : Word → Word)
    (hf : Sets Regs.put field (r.setsBy g)) {v : Word} (hv : lastWrite step write? r s as = some v) :
    field t.regs = g v := by
  refine field_eq_of_lastWrite regs_step hf hr hc (r := r) (by simp [setsBy]) hv fun r' g' v' hg hv' => ?_
  unfold setsBy at hg
  split at hg
  · next heq =>
    subst heq
    rw [hv] at hv'
    rw [← Option.some.inj hv', ← Option.some.inj hg]
  · cases hg

/-- A size register reads as its fields with 1 added. -/
theorem read_size {m k n : BitVec 12} (ha : ∀ v ∈ lastWrite step write? .mataSize s as, v = sizeWord m k)
    (hb : ∀ v ∈ lastWrite step write? .matbSize s as, v = sizeWord k n)
    (hcs : ∀ v ∈ lastWrite step write? .matcSize s as, v = sizeWord m n) {r : Register} (hsize : r.isSize = true)
    {v : Word} (hv : lastWrite step write? r s as = some v) :
    ∃ x y, v = sizeWord x y ∧ readRegister t r = .ok ((x.setWidth 32 + 1) <<< 16 ||| (y.setWidth 32 + 1)) := by
  have hM : ∀ {r v}, setsM r ≠ none → lastWrite step write? r s as = some v → t.M = m.setWidth 32 + 1 := by
    intro r v hs hv
    refine field_eq_of_lastWrite regs_step sets_M hr hc hs hv fun r g v hg hv => ?_
    cases r <;> cases hg
    · rw [ha v hv, sizeHigh_sizeWord]
    · rw [hcs v hv, sizeHigh_sizeWord]
  have hK : ∀ {r v}, setsK r ≠ none → lastWrite step write? r s as = some v → t.K = k.setWidth 32 + 1 := by
    intro r v hs hv
    refine field_eq_of_lastWrite regs_step sets_K hr hc hs hv fun r g v hg hv => ?_
    cases r <;> cases hg
    · rw [ha v hv, sizeLow_sizeWord]
    · rw [hb v hv, sizeHigh_sizeWord]
  have hN : ∀ {r v}, setsN r ≠ none → lastWrite step write? r s as = some v → t.N = n.setWidth 32 + 1 := by
    intro r v hs hv
    refine field_eq_of_lastWrite regs_step sets_N hr hc hs hv fun r g v hg hv => ?_
    cases r <;> cases hg
    · rw [hb v hv, sizeLow_sizeWord]
    · rw [hcs v hv, sizeLow_sizeWord]
  cases r with
  | mataSize => exact ⟨m, k, ha v hv, by rw [readRegister, hM (by decide) hv, hK (by decide) hv]⟩
  | matbSize => exact ⟨k, n, hb v hv, by rw [readRegister, hK (by decide) hv, hN (by decide) hv]⟩
  | matcSize => exact ⟨m, n, hcs v hv, by rw [readRegister, hM (by decide) hv, hN (by decide) hv]⟩
  | _ => cases hsize

/-- The other configuration registers read as they were written. -/
theorem read_of_not_size (hstride : ∀ v ∈ lastWrite step write? .stride s as, v.toNat < 2 ^ 24) {r : Register}
    (hcfg : r.isConfig = true) (hsize : r.isSize = false) {v : Word} (hv : lastWrite step write? r s as = some v) :
    readRegister t r = .ok v := by
  cases r with
  | aAddr =>
    have h : t.aAddr = v := field_setsBy hr hc Regs.aAddr id (fun _ r _ => by cases r <;> rfl) hv
    rw [readRegister, h]
  | bAddr =>
    have h : t.bAddr = v := field_setsBy hr hc Regs.bAddr id (fun _ r _ => by cases r <;> rfl) hv
    rw [readRegister, h]
  | cAddr =>
    have h : t.cAddr = v := field_setsBy hr hc Regs.cAddr id (fun _ r _ => by cases r <;> rfl) hv
    rw [readRegister, h]
  | stride =>
    have hA : t.strideA = v &&& 0xFF :=
      field_setsBy hr hc Regs.strideA (fun v => v &&& 0xFF) (fun _ r _ => by cases r <;> rfl) hv
    have hB : t.strideB = (v >>> 8) &&& 0xFF :=
      field_setsBy hr hc Regs.strideB (fun v => (v >>> 8) &&& 0xFF) (fun _ r _ => by cases r <;> rfl) hv
    have hC : t.strideC = (v >>> 16) &&& 0xFF :=
      field_setsBy hr hc Regs.strideC (fun v => (v >>> 16) &&& 0xFF) (fun _ r _ => by cases r <;> rfl) hv
    rw [readRegister, hA, hB, hC]
    exact congrArg Except.ok (strideRead_eq (hstride v hv))
  | mataSize | matbSize | matcSize => cases hsize
  | enable | status | aAddrDm | bAddrDm | cAddrDm => cases hcfg

end

theorem Register.exists_ofAddr (r : Register) : ∃ addr, Register.ofAddr addr = some r := by
  have hlt := r.offset_lt
  refine ⟨BitVec.ofNat 32 r.offset, Register.ofAddr_eq_some.mpr ?_⟩
  rw [BitVec.toNat_ofNat]
  omega

theorem returns_iff {t : State} {r : Register} {x v : Word} (h : readRegister t r = .ok x) :
    Returns t r v ↔ x = v := by
  constructor
  · intro hret
    obtain ⟨addr, ha⟩ := r.exists_ofAddr
    have hq := hret { caller := .cpu, tid := 0, instr := {}, op := .LW, addr, a1 := {} } 0 ha
    simp only [readMmio, ha, h] at hq
    have hresp := congrArg State.respQ (Except.ok.inj hq)
    have hp := List.singleton_inj.mp (List.append_cancel_left hresp)
    have hb := congrArg Burst.payloads (Packet.readResp.inj hp)
    exact congrArg ReadResp.data (List.singleton_inj.mp hb)
  · rintro rfl
    intro q recycled ha
    simp only [readMmio, ha, h]
    rfl

/-- **Reading back from the array.** -/
theorem returns_iff_of_lastWrite {s t : State} {as : List Act} (hr : Reaches step s as t)
    (hc : Along step NoEnable s as) (hw : WellWritten fun r => lastWrite step write? r s as) {r : Register}
    (hcfg : r.isConfig = true) {v : Word} (hv : lastWrite step write? r s as = some v) :
    Returns t r v ↔ r.isSize = false := by
  cases hsize : r.isSize with
  | false => exact iff_of_true ((returns_iff (read_of_not_size hr hc hw.stride hcfg hsize hv)).mpr rfl) rfl
  | true =>
    obtain ⟨m, k, n, ha, hb, hcs⟩ := hw.sizes
    obtain ⟨x, y, rfl, hread⟩ := read_size hr hc ha hb hcs hsize hv
    refine iff_of_false (fun h => sizeRead_ne x y ((returns_iff hread).mp h)) (by decide)

end Sa

/-- **Configuration registers.** Along every run that does not write ENABLE, of either module, a configuration register
reads as it was last written, but for the size registers of the array. -/
theorem readBack_iff {s t : Dma.State} {as : List Dma.Act} (hr : Reaches Dma.step s as t)
    (hc : Along Dma.step Dma.NoEnable s as) {s' t' : Sa.State} {as' : List Sa.Act} (hr' : Reaches Sa.step s' as' t')
    (hc' : Along Sa.step Sa.NoEnable s' as') (hw : Sa.WellWritten fun r => lastWrite Sa.step Sa.write? r s' as') :
    (∀ r, Dma.IsConfig r → ∀ v, lastWrite Dma.step Dma.write? r s as = some v → Dma.Returns t r v) ∧
      ∀ r : Sa.Register, r.isConfig = true → ∀ v, lastWrite Sa.step Sa.write? r s' as' = some v →
        (Sa.Returns t' r v ↔ r.isSize = false) :=
  ⟨fun _ hcfg _ hv => Dma.returns_of_lastWrite hr hc hcfg hv,
    fun _ hcfg _ hv => Sa.returns_iff_of_lastWrite hr' hc' hw hcfg hv⟩

/-- The CPU writes `data` to the register of the array at `addr`, and the array serves it. -/
def saWrite (addr data : Word) : List Sa.Act :=
  [.accept (.writeReq (constructMemWritepktNonBurst {} .SW addr data .cpu 0)), .event 0 0]

/-- The CPU writes `data` to the register of the DMA at `addr`. -/
def dmaWrite (addr data : Word) : List Dma.Act :=
  [.writeMmio (fun _ => ⟨false, true⟩) { caller := .cpu, tid := 0, instr := {}, op := .SW, addr, data } 0]

theorem readBack_iff_stride : ∃ t t', Reaches Dma.step Dma.init (dmaWrite 0xF004 0x2000) t ∧
    Reaches Sa.step Sa.init (saWrite 0x12020 0x030201) t' ∧ Dma.Returns t 0x4 0x2000 ∧
      Sa.Returns t' .stride 0x030201 := by
  have hw : Sa.WellWritten fun r => lastWrite Sa.step Sa.write? r Sa.init (saWrite 0x12020 0x030201) := by
    refine ⟨⟨0, 0, 0, ?_, ?_, ?_⟩, fun v hv => Option.some.inj hv ▸ by decide⟩
    · intro v hv
      cases hv
    · intro v hv
      cases hv
    · intro v hv
      cases hv
  have h := @readBack_iff Dma.init _ (dmaWrite 0xF004 0x2000) rfl (by decide) Sa.init _ (saWrite 0x12020 0x030201) rfl
    (by decide) hw
  exact ⟨_, _, rfl, rfl, h.1 _ (.inl rfl) _ rfl, (h.2 .stride rfl _ rfl).mpr rfl⟩

/-- MATA_SIZE, written with the fields 1 and 2, reads 2 and 3. -/
theorem not_readBack_size : ¬ ∀ (s t : Sa.State) (as : List Sa.Act), Reaches Sa.step s as t →
    Along Sa.step Sa.NoEnable s as → (Sa.WellWritten fun r => lastWrite Sa.step Sa.write? r s as) →
      ∀ r : Sa.Register, r.isConfig = true → ∀ v, lastWrite Sa.step Sa.write? r s as = some v → Sa.Returns t r v := by
  intro h
  have hret := h Sa.init _ (saWrite 0x12008 0x10002) rfl (by decide) ⟨⟨1, 2, 0, ?_, ?_, ?_⟩, ?_⟩ .mataSize rfl _ rfl
  · have hread : (0x20003 : Word) = 0x10002 := (Sa.returns_iff rfl).mp hret
    exact absurd hread (by decide)
  · exact fun v hv => Option.some.inj hv ▸ by decide
  · intro v hv
    cases hv
  · intro v hv
    cases hv
  · intro v hv
    cases hv

end SocModel
