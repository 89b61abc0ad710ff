import Mathlib.Tactic.IntervalCases
import SocModel.Sa.Model

/-!
# The address map of the systolic array

The crossbar routes by `slaveIndex`, `step` tells the SRAM from the registers, the handlers check their own
bounds, and the registers are selected by the low six bits of an address.

* `servedBySram_iff` : an address of the SRAM reaches the SRAM handlers below 8000 bytes only, the number of words;
* `apart_iff` : two addresses of the register window select different registers when they differ in the low six
  bits or select none;
* `addressMap_iff` : both, `addressMap_enable` : an SRAM address that is ENABLE.
-/

namespace SocModel.Sa

open Lib Bus

/-- The bytes of the SRAM. -/
def InSram (a : Word) : Prop := SA_MEMORY_BASE ≤ a.toNat ∧ a.toNat < SA_MEMORY_BASE + 4 * SA_SRAM_SIZE

/-- The word-aligned addresses of the register window. -/
def InMmio (a : Word) : Prop := SA_MMIO_BASE ≤ a.toNat ∧ a.toNat ≤ SA_MMIO_END ∧ a.toNat % 4 = 0

/-- A request for `a` goes to the module, its beats go to the SRAM handlers, and these access byte
`a - SA_MEMORY_BASE`. -/
structure ServedBySram (a : Word) : Prop where
  routed : slaveIndex a = getIndex .sa
  reads : ∀ (s : State) (p : Burst ReadReq) (q : ReadReq) (qs : List ReadReq), p.payloads = q :: qs → q.addr = a →
    p.payloads.length = p.burstSize →
      accept s (.readReq p) =
        .ok ((s.expect p.tid p.payloads.length).schedule (p.payloads.map .sramRead))
  writes : ∀ (s : State) (p : Burst WriteReq) (q : WriteReq) (qs : List WriteReq), p.payloads = q :: qs → q.addr = a →
    p.payloads.length = p.burstSize →
      accept s (.writeReq p) =
        .ok ((s.expect p.tid p.payloads.length).schedule (p.payloads.map .sramWrite))
  loads : ∀ (sram : Store) (op : InstrType), 0 < op.readWidth → a.toNat - SA_MEMORY_BASE + op.readWidth ≤ memSize →
    sramRead sram op a = .ok (op.extend (load sram (a.toNat - SA_MEMORY_BASE) op.readWidth))
  stores : ∀ (sram : Store) (op : InstrType) (data : Word), 0 < op.writeWidth →
    a.toNat - SA_MEMORY_BASE + op.writeWidth ≤ memSize →
      sramWrite sram op a data = .ok (store sram (a.toNat - SA_MEMORY_BASE) op.writeWidth data.toNat)

/-- The two addresses never select the same register. -/
def Apart (x y : Word) : Prop := ∀ r, ¬ (Register.ofAddr x = some r ∧ Register.ofAddr y = some r)

/-! ## The SRAM -/

theorem inSram_routed {a : Word} (h : InSram a) : slaveIndex a = getIndex .sa := by
  unfold InSram SA_MEMORY_BASE SA_SRAM_SIZE at h
  unfold slaveIndex DMA_MMIO_BASE DMA_MMIO_END SA_MMIO_BASE SA_MMIO_END SA_MEMORY_BASE SA_MEMORY_END
  rw [if_neg (by omega), if_pos (by omega)]
  rfl

theorem sramRead_of_le {a : Word} (h : InSram a) (sram : Store) (op : InstrType) (hw : 0 < op.readWidth)
    (hle : a.toNat - SA_MEMORY_BASE + op.readWidth ≤ memSize) :
    sramRead sram op a = .ok (op.extend (load sram (a.toNat - SA_MEMORY_BASE) op.readWidth)) := by
  unfold InSram at h
  unfold sramRead
  rw [if_neg (by unfold memSize; omega), if_neg hw.ne', if_pos hle]

theorem sramWrite_of_le {a : Word} (h : InSram a) (sram : Store) (op : InstrType) (data : Word)
    (hw : 0 < op.writeWidth) (hle : a.toNat - SA_MEMORY_BASE + op.writeWidth ≤ memSize) :
    sramWrite sram op a data = .ok (store sram (a.toNat - SA_MEMORY_BASE) op.writeWidth data.toNat) := by
  unfold InSram at h
  unfold sramWrite
  rw [if_neg (by unfold memSize; omega), if_neg hw.ne', if_pos hle]

/-- A single beat for an address that `step` takes for a register goes to the registers. -/
theorem acceptWrite_register (s : State) {q : WriteReq} (h : toSram q.addr = false) (srcIdx dstIdx tid : Nat) :
    acceptWrite { burstLength := 0, payloads := [q], srcIdx, dstIdx, tid } s =
      .ok ((s.expect tid 1).schedule [.writeMmio q]) := by
  simp [acceptWrite, Burst.burstSize, h]

/-- `step` compares a number of bytes with the number of words. -/
theorem servedBySram_iff {a : Word} (ha : InSram a) :
    ServedBySram a ↔ a.toNat < SA_MEMORY_BASE + SA_SRAM_SIZE := by
  constructor
  · intro h
    by_contra hge
    have hsram : toSram a = false := decide_eq_false (by omega)
    have hw := h.writes init
      { burstLength := 0, payloads := [{ caller := .cpu, tid := 0, instr := {}, op := .SW, addr := a, data := 0 }]
        srcIdx := 0, dstIdx := 0, tid := 0 } _ [] rfl rfl rfl
    rw [accept, acceptWrite_register init hsram] at hw
    have hev := congrArg State.events (Except.ok.inj hw)
    simp [State.schedule, State.expect, init] at hev
  · intro hlt
    have hsram : toSram a = true := decide_eq_true ⟨ha.1, hlt⟩
    refine ⟨inSram_routed ha, fun s p q qs hp hq hl => ?_, fun s p q qs hp hq hl => ?_, sramRead_of_le ha,
      sramWrite_of_le ha⟩
    · subst hq
      have hl' : qs.length + 1 = p.burstSize := by rw [← hl, hp, List.length_cons]
      simp [accept, acceptRead, hp, hsram, hl']
    · subst hq
      have hl' : qs.length + 1 = p.burstSize := by rw [← hl, hp, List.length_cons]
      simp [accept, acceptWrite, hp, hsram, hl']

/-! ## The registers -/

/-- The offset of a register in a block of 64 bytes. -/
def Register.offset : Register → Nat
  | .enable => 0x0
  | .status => 0x4
  | .mataSize => 0x8
  | .matbSize => 0xC
  | .matcSize => 0x10
  | .aAddr => 0x14
  | .bAddr => 0x18
  | .cAddr => 0x1C
  | .stride => 0x20
  | .aAddrDm => 0x24
  | .bAddrDm => 0x28
  | .cAddrDm => 0x2C

theorem Register.ofAddr_eq_some {a : Word} {r : Register} :
    Register.ofAddr a = some r ↔ a.toNat % 64 = r.offset := by
  have h : (a &&& 0x3F).toNat = a.toNat % 64 := Nat.and_two_pow_sub_one_eq_mod a.toNat 6
  unfold Register.ofAddr
  rw [h]
  constructor
  · intro hr
    split at hr <;> cases hr <;> assumption
  · intro hr
    cases r <;> rw [hr] <;> rfl

theorem Register.exists_offset {o : Nat} (h : o < 0x30) (h4 : o % 4 = 0) : ∃ r : Register, o = r.offset := by
  interval_cases o <;> first
    | omega
    | exact ⟨.enable, rfl⟩
    | exact ⟨.status, rfl⟩
    | exact ⟨.mataSize, rfl⟩
    | exact ⟨.matbSize, rfl⟩
    | exact ⟨.matcSize, rfl⟩
    | exact ⟨.aAddr, rfl⟩
    | exact ⟨.bAddr, rfl⟩
    | exact ⟨.cAddr, rfl⟩
    | exact ⟨.stride, rfl⟩
    | exact ⟨.aAddrDm, rfl⟩
    | exact ⟨.bAddrDm, rfl⟩
    | exact ⟨.cAddrDm, rfl⟩

theorem Register.offset_lt (r : Register) : r.offset < 0x30 := by
  cases r <;> decide

/-- The window has 241 bytes and the registers repeat every 64. -/
theorem apart_iff {x y : Word} (hx : x.toNat % 4 = 0) :
    Apart x y ↔ x.toNat % 64 ≠ y.toNat % 64 ∨ 0x30 ≤ x.toNat % 64 := by
  unfold Apart
  simp only [Register.ofAddr_eq_some]
  constructor
  · intro h
    by_contra hc
    obtain ⟨r, hr⟩ := Register.exists_offset (o := x.toNat % 64) (by omega) (by omega)
    exact h r ⟨hr, by omega⟩
  · rintro h r ⟨h1, h2⟩
    have := r.offset_lt
    omega

/-- **Main result.** An SRAM address is served by the SRAM if and only if it is one of the first 8000 bytes, and two
addresses of the register window select different registers if and only if they differ in the low six bits or
select none. -/
theorem addressMap_iff (a x y : Word) (ha : InSram a) (hx : InMmio x) :
    (ServedBySram a ↔ a.toNat < SA_MEMORY_BASE + SA_SRAM_SIZE) ∧
      (Apart x y ↔ x.toNat % 64 ≠ y.toNat % 64 ∨ 0x30 ≤ x.toNat % 64) :=
  ⟨servedBySram_iff ha, apart_iff hx.2.2⟩

instance (a : Word) : Decidable (InSram a) := by unfold InSram; infer_instance

instance (a : Word) : Decidable (InMmio a) := by unfold InMmio; infer_instance

theorem addressMap_first :
    (ServedBySram 0x20000 ↔ (0x20000 : Word).toNat < SA_MEMORY_BASE + SA_SRAM_SIZE) ∧
      (Apart 0x12000 0x12004 ↔
        (0x12000 : Word).toNat % 64 ≠ (0x12004 : Word).toNat % 64 ∨ 0x30 ≤ (0x12000 : Word).toNat % 64) :=
  addressMap_iff 0x20000 0x12000 0x12004 (by decide) (by decide)

/-- Byte 8000 of the SRAM is ENABLE, and so is the word at 0x12040. -/
theorem addressMap_enable : ¬ ∀ a x y : Word, InSram a → InMmio x → InMmio y → x ≠ y →
    ServedBySram a ∧ Apart x y := by
  intro h
  obtain ⟨hs, ha⟩ := h 0x21F40 0x12000 0x12040 (by decide) (by decide) (by decide) (by decide)
  have hw := hs.writes init
    { burstLength := 0
      payloads := [{ caller := .cpu, tid := 0, instr := {}, op := .SW, addr := 0x21F40, data := 1 }]
      srcIdx := 0, dstIdx := 2, tid := 0 } _ [] rfl rfl rfl
  exact absurd (congrArg State.events (Except.ok.inj hw)) (by decide +kernel)

end SocModel.Sa
