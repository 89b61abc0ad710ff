import SocModel.Isa.Instr
import SocModel.Lib.Bytes

/-!
# The byte memory under both data memories

`BaseMemory.cc`, and the two switches that `DataMemory::memReadReqHandler` and `memWriteReqHandler` of the SoC
and of the 5-stage model share. An operation that is neither a load nor a store reads zero bytes and returns 0,
or writes nothing.

* `memRead_of_le`, `memWrite_of_le` : an access in range succeeds;
* `memWrite_frame` : a write changes the bytes it addresses only.
-/

namespace SocModel

open Lib

/-- The bytes a load reads; 0 for the other operations. -/
def InstrType.readWidth : InstrType → Nat
  | .LB | .LBU => 1
  | .LH | .LHU => 2
  | .LW => 4
  | _ => 0

/-- The bytes a store writes; 0 for the other operations. -/
def InstrType.writeWidth : InstrType → Nat
  | .SB => 1
  | .SH => 2
  | .SW => 4
  | _ => 0

/-- The value a load returns for the bytes it read. -/
def InstrType.extend (op : InstrType) (v : Nat) : Word :=
  match op with
  | .LB => (BitVec.ofNat 8 v).signExtend 32
  | .LH => (BitVec.ofNat 16 v).signExtend 32
  | .LBU | .LHU | .LW => BitVec.ofNat 32 v
  | _ => 0

/-- `BaseMemory`. -/
structure BaseMemory where
  size : Nat
  mem : Store

namespace BaseMemory

/-- `readData(addr, n)`; the sum does not wrap, `size_t` is 64 bits. -/
def readData (m : BaseMemory) (addr : Word) (n : Nat) : Except Fault Nat :=
  if addr.toNat + n ≤ m.size then .ok (load m.mem addr.toNat n) else .error .memoryRange

def writeData (m : BaseMemory) (addr : Word) (n : Nat) (data : Word) : Except Fault BaseMemory :=
  if addr.toNat + n ≤ m.size then .ok { m with mem := store m.mem addr.toNat n data.toNat }
  else .error .memoryRange

/-- The switches of `memReadReqHandler`. -/
def memRead (m : BaseMemory) (op : InstrType) (addr : Word) : Except Fault Word := do
  let v ← m.readData addr op.readWidth
  return op.extend v

/-- The switch of `memWriteReqHandler`; it checks the range of stores only. -/
def memWrite (m : BaseMemory) (op : InstrType) (addr data : Word) : Except Fault BaseMemory :=
  if op.writeWidth = 0 then .ok m else m.writeData addr op.writeWidth data

theorem memRead_of_le {m : BaseMemory} {op : InstrType} {addr : Word}
    (h : addr.toNat + op.readWidth ≤ m.size) :
    m.memRead op addr = .ok (op.extend (load m.mem addr.toNat op.readWidth)) := by
  rw [memRead, readData, if_pos h]
  rfl

theorem memWrite_of_le {m : BaseMemory} {op : InstrType} {addr data : Word}
    (h : addr.toNat + op.writeWidth ≤ m.size) :
    m.memWrite op addr data = .ok { m with mem := store m.mem addr.toNat op.writeWidth data.toNat } := by
  unfold memWrite
  split
  · next h0 => rw [h0, store_zero]
  · rw [writeData, if_pos h]

theorem memRead_eq_ok {m : BaseMemory} {op : InstrType} {addr v : Word} :
    m.memRead op addr = .ok v ↔
      addr.toNat + op.readWidth ≤ m.size ∧ v = op.extend (load m.mem addr.toNat op.readWidth) := by
  constructor
  · intro h
    by_cases hr : addr.toNat + op.readWidth ≤ m.size
    · rw [memRead_of_le hr] at h
      exact ⟨hr, (Except.ok.inj h).symm⟩
    · rw [memRead, readData, if_neg hr] at h
      cases h
  · rintro ⟨hr, rfl⟩
    exact memRead_of_le hr

theorem memWrite_eq_ok {m m' : BaseMemory} {op : InstrType} {addr data : Word} :
    m.memWrite op addr data = .ok m' ↔
      (op.writeWidth = 0 ∨ addr.toNat + op.writeWidth ≤ m.size) ∧
        m' = { m with mem := store m.mem addr.toNat op.writeWidth data.toNat } := by
  by_cases h0 : op.writeWidth = 0
  · simp only [memWrite, h0, if_true, Except.ok.injEq, store_zero, true_or, true_and]
    exact eq_comm
  · by_cases hr : addr.toNat + op.writeWidth ≤ m.size
    · simp only [memWrite_of_le hr, hr, Except.ok.injEq, or_true, true_and]
      exact eq_comm
    · simp [memWrite, writeData, h0, hr]

theorem memWrite_frame {m m' : BaseMemory} {op : InstrType} {addr data : Word}
    (h : m.memWrite op addr data = .ok m') :
    m'.size = m.size ∧ Frame m.mem m'.mem (range addr.toNat op.writeWidth) := by
  rw [(memWrite_eq_ok.mp h).2]
  exact ⟨rfl, Frame.store _ _ _ _⟩

end BaseMemory

end SocModel
