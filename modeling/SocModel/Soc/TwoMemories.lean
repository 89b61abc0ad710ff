import Mathlib.Algebra.BigOperators.Ring.Finset
import SocModel.DataMem.Model
import SocModel.Sa.Model

/-!
# The data memory and the SRAM of the array

Both serve loads and stores of one, two and four bytes, with handlers of their own: the data memory compares the sum of
address and width with its size, the array compares addresses and offsets with the end of its SRAM. Each is compared
with a reference that keeps no memory, only the accesses made so far: a byte is that of the last store that covers it.

* `lastByte`, `reference` : what a memory of a given size answers after a list of accesses;
* `DataMem.oneBeat`, `Sa.oneBeat` : one access of one beat through the handlers;
* `results_eq_answers` : the simulation rule;
* `two_memories` : both memories answer as the reference of their own size, and alike unless a store is split by the
  end of one of them, `two_memories_split` : such a store.
-/

namespace SocModel

open Lib Bus

namespace Soc

/-! ## Accesses -/

inductive LoadOp where
  | LB | LBU | LH | LHU | LW
  deriving DecidableEq, Repr

inductive StoreOp where
  | SB | SH | SW
  deriving DecidableEq, Repr

namespace LoadOp

def instr : LoadOp → InstrType
  | LB => .LB
  | LBU => .LBU
  | LH => .LH
  | LHU => .LHU
  | LW => .LW

def width : LoadOp → Nat
  | LB | LBU => 1
  | LH | LHU => 2
  | LW => 4

def signed : LoadOp → Bool
  | LB | LH => true
  | _ => false

/-- The word for the number `v` that the bytes spell: two's complement if the load is signed. -/
def value (op : LoadOp) (v : Nat) : Word :=
  if op.signed = true ∧ 256 ^ op.width ≤ 2 * v then BitVec.ofInt 32 (v - 256 ^ op.width) else BitVec.ofNat 32 v

end LoadOp

namespace StoreOp

def instr : StoreOp → InstrType
  | SB => .SB
  | SH => .SH
  | SW => .SW

def width : StoreOp → Nat
  | SB => 1
  | SH => 2
  | SW => 4

end StoreOp

/-- What a request carries beside the access. -/
structure Tag where
  caller : Caller
  tid : Nat
  instr : Instr
  a1 : Operand

inductive Access where
  | load (g : Tag) (op : LoadOp) (addr : Word)
  | store (g : Tag) (op : StoreOp) (addr data : Word)

namespace Access

def addr : Access → Word
  | load _ _ addr => addr
  | store _ _ addr _ => addr

def width : Access → Nat
  | load _ op _ => op.width
  | store _ op _ _ => op.width

/-- Every byte of the access lies in a memory of `size` bytes. -/
def Inside (size : Nat) (x : Access) : Prop := x.addr.toNat + x.width ≤ size

instance (size : Nat) (x : Access) : Decidable (x.Inside size) := inferInstanceAs (Decidable (_ ≤ _))

end Access

inductive Result where
  /-- No response is queued. -/
  | silent
  | rejected
  | done
  | value (v : Word)
  deriving DecidableEq, Repr

/-! ## The reference -/

/-- Byte `y` after the accesses `h`, the latest first: that of the last store inside the memory that covers it, or the
initial one. -/
def lastByte (size : Nat) (m : Nat → Byte) : List Access → Nat → Byte
  | [], y => m y
  | .load .. :: h, y => lastByte size m h y
  | .store g op addr data :: h, y =>
    if (Access.store g op addr data).Inside size ∧ addr.toNat ≤ y ∧ y < addr.toNat + op.width then
      (data >>> (8 * (y - addr.toNat))).setWidth 8
    else lastByte size m h y

/-- The answer to an access after the accesses `h`. -/
def reference (size : Nat) (m : Nat → Byte) (h : List Access) (x : Access) : Result :=
  if x.Inside size then
    match x with
    | .load _ op addr =>
      .value (op.value (∑ i ∈ Finset.range op.width, (lastByte size m h (addr.toNat + i)).toNat * 256 ^ i))
    | .store .. => .done
  else .rejected

/-- The answers to a list of accesses. -/
def answers (size : Nat) (m : Nat → Byte) : List Access → List Access → List Result
  | _, [] => []
  | h, x :: as => reference size m h x :: answers size m (x :: h) as

/-! ## The two memories -/

/-- The response that was queued. -/
def answerOf (old new : List Packet) : Result :=
  match new.drop old.length with
  | [.readResp p] => match p.payloads with
    | [r] => .value r.data
    | _ => .silent
  | [.writeResp _] => .done
  | _ => .silent

/-- What a handler's call comes to: its response, or a rejection that leaves the module as it is. -/
def finish {σ : Type} (respQ : σ → List Packet) (s : σ) : Except Fault σ → σ × Result
  | .ok t => (t, answerOf (respQ s) (respQ t))
  | .error _ => (s, .rejected)

def readReq (g : Tag) (op : LoadOp) (addr : Word) : ReadReq :=
  { caller := g.caller, tid := g.tid, instr := g.instr, op := op.instr, addr, a1 := g.a1 }

def writeReq (g : Tag) (op : StoreOp) (addr data : Word) : WriteReq :=
  { caller := g.caller, tid := g.tid, instr := g.instr, op := op.instr, addr, data }

end Soc

namespace DataMem

open Soc

/-- The tracker of a packet of `n` beats. -/
def State.expect (s : State) (tid n : Nat) : State :=
  { s with pending := Function.update s.pending tid (some { (s.pending tid).getD {} with expected := n }) }

/-- One access through the handlers, as the only beat of its packet. -/
def oneBeat (s : State) : Soc.Access → State × Result
  | .load g op addr =>
    let s := s.expect g.tid 1
    finish State.respQ s ((memReadReqHandler (readReq g op addr) s).map Prod.fst)
  | .store g op addr data =>
    let s := s.expect g.tid 1
    finish State.respQ s (memWriteReqHandler (writeReq g op addr data) s)

/-- No beat waits in a tracker, and the memory holds `m`. -/
structure Holds (s : State) (size : Nat) (m : Store) : Prop where
  base : s.base = ⟨size, m⟩
  pending : ∀ tid tk, s.pending tid = some tk → tk.rbeats = [] ∧ tk.wbeats = []

end DataMem

namespace Sa

open Soc

/-- The address on the bus of byte `a` of the SRAM. -/
def onBusWord (a : Word) : Word := BitVec.ofNat 32 SA_MEMORY_BASE + a

/-- One access through the handlers, as the only beat of its packet. -/
def oneBeat (s : State) : Soc.Access → State × Result
  | .load g op addr =>
    let s := s.expect g.tid 1
    finish State.respQ s (sramReadReqHandler (readReq g op (onBusWord addr)) s)
  | .store g op addr data =>
    let s := s.expect g.tid 1
    finish State.respQ s (sramWriteReqHandler (writeReq g op (onBusWord addr) data) s)

/-- No beat waits in a tracker, and the SRAM holds `m`. -/
structure Holds (s : State) (m : Store) : Prop where
  sram : s.sram = m
  pending : ∀ tid, (s.pending tid).rbeats = [] ∧ (s.pending tid).wbeats = []

end Sa

namespace Soc

/-! ## The reference on a store -/

/-- A load is the sum of its bytes. -/
theorem sum_bytes (m : Store) (a n : Nat) : ∑ i ∈ Finset.range n, (m (a + i)).toNat * 256 ^ i = load m a n := by
  induction n generalizing a with
  | zero => rfl
  | succ n ih =>
    have hshift : ∀ i, (m (a + (i + 1))).toNat * 256 ^ (i + 1) = 256 * ((m (a + 1 + i)).toNat * 256 ^ i) := by
      intro i
      rw [pow_succ, show a + (i + 1) = a + 1 + i by omega]
      ring
    rw [Finset.sum_range_succ', Finset.sum_congr rfl fun i _ => hshift i, ← Finset.mul_sum, ih, load, pow_zero,
      Nat.mul_one, Nat.add_comm]
    rfl

theorem lastByte_store {size : Nat} {m : Store} {h : List Access} (g : Tag) {op : StoreOp} {addr : Word} (data : Word)
    (hin : (Access.store g op addr data).Inside size) :
    lastByte size m (.store g op addr data :: h) = store (lastByte size m h) addr.toNat op.width data.toNat := by
  funext y
  simp only [lastByte, hin, true_and, store]
  split
  · apply BitVec.eq_of_toNat_eq
    rw [BitVec.toNat_setWidth, BitVec.toNat_ushiftRight, Nat.shiftRight_eq_div_pow, BitVec.toNat_ofNat, pow_mul]
    rfl
  · rfl

theorem lastByte_outside {size : Nat} {m : Store} {h : List Access} (g : Tag) {op : StoreOp} {addr : Word} (data : Word)
    (hout : ¬ (Access.store g op addr data).Inside size) :
    lastByte size m (.store g op addr data :: h) = lastByte size m h := by
  funext y
  simp only [lastByte, hout, false_and, if_false]

/-- A sign extension is the two's complement value. -/
theorem signExtend_ofNat {w v : Nat} (hv : v < 2 ^ w) : (BitVec.ofNat w v).signExtend 32 =
    if 2 ^ w ≤ 2 * v then BitVec.ofInt 32 (v - (2 ^ w : Nat)) else BitVec.ofNat 32 v := by
  rw [BitVec.signExtend, BitVec.toInt_eq_toNat_cond, BitVec.toNat_ofNat, Nat.mod_eq_of_lt hv]
  by_cases h : 2 ^ w ≤ 2 * v
  · rw [if_neg (by omega), if_pos h]
  · rw [if_pos (by omega), if_neg h]
    exact BitVec.ofInt_natCast 32 v

theorem extend_eq_value (op : LoadOp) {v : Nat} (hv : v < 256 ^ op.width) : op.instr.extend v = op.value v := by
  cases op with
  | LB => exact (signExtend_ofNat hv).trans (if_congr ⟨fun h => ⟨rfl, h⟩, And.right⟩ rfl rfl)
  | LH => exact (signExtend_ofNat hv).trans (if_congr ⟨fun h => ⟨rfl, h⟩, And.right⟩ rfl rfl)
  | LBU | LHU | LW => rfl

/-! ## Simulation -/

/-- The results of a list of accesses. -/
def results {σ : Type} (access : σ → Access → σ × Result) : σ → List Access → List Result
  | _, [] => []
  | s, x :: as => (access s x).2 :: results access (access s x).1 as

/-- The state after a list of accesses. -/
def after {σ : Type} (access : σ → Access → σ × Result) (s : σ) (as : List Access) : σ :=
  as.foldl (fun s x => (access s x).1) s

/-- **The simulation rule.** A module whose every access answers as the reference does so along every list. -/
theorem results_eq_answers {σ : Type} {access : σ → Access → σ × Result} {size : Nat} {m : Store}
    (R : List Access → σ → Prop)
    (hstep : ∀ h s x, R h s → (access s x).2 = reference size m h x ∧ R (x :: h) (access s x).1)
    {h : List Access} {s : σ} (hR : R h s) (as : List Access) :
    results access s as = answers size m h as ∧ R (as.reverse ++ h) (after access s as) := by
  induction as generalizing h s with
  | nil => exact ⟨rfl, hR⟩
  | cons x as ih =>
    obtain ⟨hr, hR⟩ := hstep h s x hR
    obtain ⟨hres, hR⟩ := ih hR
    rw [List.reverse_cons, List.append_assoc]
    exact ⟨by rw [results, answers, hr, hres], hR⟩

theorem answerOf_append (ps : List Packet) (p : Packet) : answerOf ps (ps ++ [p]) = answerOf [] [p] := by
  unfold answerOf
  rw [List.drop_left]
  rfl

section

variable {σ : Type} {respQ : σ → List Packet} {s t : σ} {y : Except Fault σ}

theorem finish_value {p : Burst ReadResp} {r : ReadResp} (h : y = .ok t) (hq : respQ t = respQ s ++ [.readResp p])
    (hp : p.payloads = [r]) : finish respQ s y = (t, .value r.data) := by
  rw [h, finish, hq, answerOf_append]
  simp only [answerOf, List.length_nil, List.drop_zero, hp]

theorem finish_done {p : Burst WriteResp} (h : y = .ok t) (hq : respQ t = respQ s ++ [.writeResp p]) :
    finish respQ s y = (t, .done) := by
  rw [h, finish, hq, answerOf_append]
  rfl

theorem finish_error {e : Fault} (h : y = .error e) : finish respQ s y = (s, .rejected) := by
  rw [h]
  rfl

end

/-- The answer of a store of bytes to an access, and what the access leaves. -/
def serve (size : Nat) (m : Store) (x : Access) : Result × Store :=
  if x.Inside size then
    match x with
    | .load _ op addr => (.value (op.instr.extend (load m addr.toNat op.width)), m)
    | .store _ op addr data => (.done, store m addr.toNat op.width data.toNat)
  else (.rejected, m)

theorem serve_lastByte (size : Nat) (m : Store) (h : List Access) (x : Access) :
    serve size (lastByte size m h) x = (reference size m h x, lastByte size m (x :: h)) := by
  unfold serve reference
  split
  · next hin =>
    cases x with
    | load g op addr =>
      simp only [sum_bytes]
      rw [extend_eq_value op (load_lt _ _ _)]
      rfl
    | store g op addr data => rw [lastByte_store g data hin]
  · next hout =>
    cases x with
    | load g op addr => rfl
    | store g op addr data => rw [lastByte_outside g data hout]

section

variable {σ : Type} {respQ : σ → List Packet} {s : σ} {y : Except Fault σ} {size : Nat} {m : Store}
  {R : σ → Store → Prop}

/-- A load is served when the handler answers it inside the memory, and fails outside. -/
theorem finish_serve_load (g : Tag) {op : LoadOp} {addr : Word} (hs : R s m)
    (hin : addr.toNat + op.width ≤ size → ∃ (t : σ) (p : Burst ReadResp) (r : ReadResp), y = .ok t ∧
      respQ t = respQ s ++ [.readResp p] ∧ p.payloads = [r] ∧ r.data = op.instr.extend (load m addr.toNat op.width) ∧
      R t m)
    (hout : ¬ addr.toNat + op.width ≤ size → ∃ e, y = .error e) :
    (finish respQ s y).2 = (serve size m (.load g op addr)).1 ∧
      R (finish respQ s y).1 (serve size m (.load g op addr)).2 := by
  by_cases ha : addr.toNat + op.width ≤ size
  · obtain ⟨t, p, r, hy, hq, hp, hr, ht⟩ := hin ha
    have hserve : serve size m (.load g op addr) = (.value r.data, m) := by
      rw [hr]
      exact if_pos ha
    rw [hserve, finish_value hy hq hp]
    exact ⟨rfl, ht⟩
  · obtain ⟨e, hy⟩ := hout ha
    have hserve : serve size m (.load g op addr) = (.rejected, m) := if_neg ha
    rw [hserve, finish_error hy]
    exact ⟨rfl, hs⟩

/-- A store is served when the handler stores its bytes inside the memory, and fails outside. -/
theorem finish_serve_store (g : Tag) {op : StoreOp} {addr data : Word} (hs : R s m)
    (hin : addr.toNat + op.width ≤ size → ∃ (t : σ) (p : Burst WriteResp), y = .ok t ∧
      respQ t = respQ s ++ [.writeResp p] ∧ R t (store m addr.toNat op.width data.toNat))
    (hout : ¬ addr.toNat + op.width ≤ size → ∃ e, y = .error e) :
    (finish respQ s y).2 = (serve size m (.store g op addr data)).1 ∧
      R (finish respQ s y).1 (serve size m (.store g op addr data)).2 := by
  by_cases ha : addr.toNat + op.width ≤ size
  · obtain ⟨t, p, hy, hq, ht⟩ := hin ha
    have hserve : serve size m (.store g op addr data) = (.done, store m addr.toNat op.width data.toNat) := if_pos ha
    rw [hserve, finish_done hy hq]
    exact ⟨rfl, ht⟩
  · obtain ⟨e, hy⟩ := hout ha
    have hserve : serve size m (.store g op addr data) = (.rejected, m) := if_neg ha
    rw [hserve, finish_error hy]
    exact ⟨rfl, hs⟩

end

/-- A module that serves every access as a store of bytes does. -/
theorem results_eq_answers_of_serve {σ : Type} {access : σ → Access → σ × Result} {size : Nat} {m : Store}
    (Holds : σ → Store → Prop)
    (hstep : ∀ s m x, Holds s m → (access s x).2 = (serve size m x).1 ∧ Holds (access s x).1 (serve size m x).2) {s : σ}
    (hs : Holds s m) (as : List Access) :
    results access s as = answers size m [] as ∧ Holds (after access s as) (lastByte size m as.reverse) := by
  have hrun := results_eq_answers (h := []) (fun h s => Holds s (lastByte size m h)) (fun h s x hR => by
    have hx := hstep s _ x hR
    rwa [serve_lastByte] at hx) hs as
  rwa [List.append_nil] at hrun

@[simp] theorem readWidth_instr (op : LoadOp) : op.instr.readWidth = op.width := by
  cases op <;> rfl

@[simp] theorem writeWidth_instr (op : StoreOp) : op.instr.writeWidth = op.width := by
  cases op <;> rfl

theorem LoadOp.width_pos (op : LoadOp) : 0 < op.width := by
  cases op <;> decide

theorem StoreOp.width_pos (op : StoreOp) : 0 < op.width := by
  cases op <;> decide

end Soc

namespace DataMem

open Soc

variable {s : State} {size : Nat} {m : Store}

theorem Holds.expect (h : Holds s size m) (tid : Nat) : Holds (s.expect tid 1) size m := by
  refine ⟨h.base, fun k tk hk => ?_⟩
  have hk : Function.update s.pending tid (some { (s.pending tid).getD {} with expected := 1 }) k = some tk := hk
  by_cases hkt : k = tid
  · subst hkt
    rw [Function.update_self] at hk
    cases hk
    cases hp : s.pending k with
    | none => exact ⟨rfl, rfl⟩
    | some tk => exact h.pending k tk hp
  · rw [Function.update_of_ne hkt] at hk
    exact h.pending k tk hk

/-- The tracker of the packet whose beat is served. -/
theorem Holds.tracker (h : Holds s size m) (tid : Nat) :
    ((s.expect tid 1).pending tid).getD {} = { expected := 1 } := by
  have htk : (s.expect tid 1).pending tid = some { (s.pending tid).getD {} with expected := 1 } :=
    Function.update_self _ _ _
  obtain ⟨hr, hw⟩ := (h.expect tid).pending tid _ htk
  rw [htk, Option.getD_some]
  dsimp only at hr hw
  simp only [hr, hw]

/-- The response of the only beat is queued. -/
def answered (s : State) (tid : Nat) (base : BaseMemory) (resp : Packet) : State :=
  { s with base, pending := Function.update s.pending tid none, respQ := s.respQ ++ [resp] }

theorem Holds.answered (h : Holds s size m) (tid : Nat) (m' : Store) (resp : Packet) :
    Holds (answered s tid ⟨size, m'⟩ resp) size m' := by
  refine ⟨rfl, fun k tk hk => ?_⟩
  have hk : Function.update s.pending tid none k = some tk := hk
  by_cases hkt : k = tid
  · rw [hkt, Function.update_self] at hk
    cases hk
  · rw [Function.update_of_ne hkt] at hk
    exact h.pending k tk hk

theorem memReadReqHandler_inside (h : Holds s size m) (g : Tag) {op : LoadOp} {addr : Word}
    (hin : addr.toNat + op.width ≤ size) : ∃ (p : Burst ReadResp) (r : ReadResp), p.payloads = [r] ∧
      r.data = op.instr.extend (load m addr.toNat op.width) ∧
      memReadReqHandler (readReq g op addr) (s.expect g.tid 1) =
        .ok (answered (s.expect g.tid 1) g.tid ⟨size, m⟩ (.readResp p), r.data) := by
  have hread : (s.expect g.tid 1).base.memRead op.instr addr = .ok (op.instr.extend (load m addr.toNat op.width)) := by
    rw [(h.expect g.tid).base, BaseMemory.memRead_of_le (by simpa using hin), readWidth_instr]
  have htk := h.tracker g.tid
  let r : ReadResp :=
    { tid := g.tid, instr := g.instr, op := op.instr, data := op.instr.extend (load m addr.toNat op.width), a1 := g.a1 }
  refine ⟨(constructMemReadRespPkt [r] .dm g.caller 0).setTID g.tid, r, rfl, rfl, ?_⟩
  rw [memReadReqHandler]
  simp only [readReq, hread, htk, bind, Except.bind, pure, Except.pure, State.collect, answered, List.nil_append,
    List.length_singleton, max_self, if_true, ← (h.expect g.tid).base, r]

theorem memWriteReqHandler_inside (h : Holds s size m) (g : Tag) {op : StoreOp} {addr : Word} (data : Word)
    (hin : addr.toNat + op.width ≤ size) : ∃ p : Burst WriteResp,
      memWriteReqHandler (writeReq g op addr data) (s.expect g.tid 1) =
        .ok (answered (s.expect g.tid 1) g.tid ⟨size, store m addr.toNat op.width data.toNat⟩ (.writeResp p)) := by
  have hwrite : (s.expect g.tid 1).base.memWrite op.instr addr data =
      .ok ⟨size, store m addr.toNat op.width data.toNat⟩ := by
    rw [(h.expect g.tid).base, BaseMemory.memWrite_of_le (by simpa using hin), writeWidth_instr]
  have htk := h.tracker g.tid
  refine ⟨(constructMemWriteRespPkt [{ tid := g.tid, instr := g.instr }] .dm g.caller 0).setTID g.tid, ?_⟩
  rw [memWriteReqHandler]
  simp only [writeReq, hwrite, htk, bind, Except.bind, pure, Except.pure, State.collect, answered, List.nil_append,
    List.length_singleton, max_self, if_true]

theorem memReadReqHandler_outside (h : Holds s size m) (g : Tag) {op : LoadOp} {addr : Word}
    (hout : ¬ addr.toNat + op.width ≤ size) :
    memReadReqHandler (readReq g op addr) (s.expect g.tid 1) = .error .memoryRange := by
  have hread : (s.expect g.tid 1).base.memRead op.instr addr = .error .memoryRange := by
    rw [(h.expect g.tid).base, BaseMemory.memRead, BaseMemory.readData, if_neg (by simpa using hout)]
    rfl
  rw [memReadReqHandler]
  simp only [readReq, hread]
  rfl

theorem memWriteReqHandler_outside (h : Holds s size m) (g : Tag) {op : StoreOp} {addr : Word} (data : Word)
    (hout : ¬ addr.toNat + op.width ≤ size) :
    memWriteReqHandler (writeReq g op addr data) (s.expect g.tid 1) = .error .memoryRange := by
  have hwrite : (s.expect g.tid 1).base.memWrite op.instr addr data = .error .memoryRange := by
    rw [(h.expect g.tid).base, BaseMemory.memWrite, if_neg (by simpa using op.width_pos.ne'), BaseMemory.writeData,
      if_neg (by simpa using hout)]
  rw [memWriteReqHandler]
  simp only [writeReq, hwrite]
  rfl

/-- **The data memory** serves every access as a store of bytes does. -/
theorem oneBeat_serve (s : State) (m : Store) (x : Soc.Access) (h : Holds s size m) :
    (oneBeat s x).2 = (serve size m x).1 ∧ Holds (oneBeat s x).1 size (serve size m x).2 := by
  cases x with
  | load g op addr =>
    refine finish_serve_load (R := fun s m => Holds s size m) g (h.expect g.tid) (fun hin => ?_) fun hout =>
      ⟨_, congrArg (Except.map Prod.fst) (memReadReqHandler_outside h g hout)⟩
    obtain ⟨p, r, hp, hr, hm⟩ := memReadReqHandler_inside h g hin
    exact ⟨_, p, r, congrArg (Except.map Prod.fst) hm, rfl, hp, hr, (h.expect g.tid).answered g.tid m _⟩
  | store g op addr data =>
    refine finish_serve_store (R := fun s m => Holds s size m) g (h.expect g.tid) (fun hin => ?_) fun hout =>
      ⟨_, memWriteReqHandler_outside h g data hout⟩
    obtain ⟨p, hm⟩ := memWriteReqHandler_inside h g data hin
    exact ⟨_, p, hm, rfl, (h.expect g.tid).answered g.tid _ _⟩

end DataMem

namespace Sa

open Soc

variable {s : State} {m : Store}

theorem Holds.expect (h : Holds s m) (tid : Nat) : Holds (s.expect tid 1) m := by
  refine ⟨h.sram, fun k => ?_⟩
  have hk : (s.expect tid 1).pending k = Function.update s.pending tid { s.pending tid with expected := 1 } k := rfl
  rw [hk]
  by_cases hkt : k = tid
  · rw [hkt, Function.update_self]
    exact h.pending tid
  · rw [Function.update_of_ne hkt]
    exact h.pending k

theorem Holds.tracker (h : Holds s m) (tid : Nat) : (s.expect tid 1).pending tid = { expected := 1 } := by
  have htk : (s.expect tid 1).pending tid = { s.pending tid with expected := 1 } := Function.update_self _ _ _
  obtain ⟨hr, hw⟩ := h.pending tid
  rw [htk]
  simp only [hr, hw]

/-- The response of the only beat is queued. -/
def answered (s : State) (tid : Nat) (sram : Store) (resp : Packet) : State :=
  { s with sram, pending := Function.update s.pending tid {}, respQ := s.respQ ++ [resp] }

theorem Holds.answered (h : Holds s m) (tid : Nat) (m' : Store) (resp : Packet) :
    Holds (answered s tid m' resp) m' := by
  refine ⟨rfl, fun k => ?_⟩
  have hk : (Sa.answered s tid m' resp).pending k = Function.update s.pending tid {} k := rfl
  rw [hk]
  by_cases hkt : k = tid
  · rw [hkt, Function.update_self]
    exact ⟨rfl, rfl⟩
  · rw [Function.update_of_ne hkt]
    exact h.pending k

/-- The tests of the two handlers, in terms of the byte of the SRAM. -/
theorem toNat_onBusWord (a : Word) :
    (¬ ((onBusWord a).toNat < SA_MEMORY_BASE ∨ SA_MEMORY_BASE + memSize ≤ (onBusWord a).toNat) ↔ a.toNat < memSize) ∧
      (a.toNat < memSize → (onBusWord a).toNat - SA_MEMORY_BASE = a.toNat) := by
  have ha := a.isLt
  unfold onBusWord memSize SA_SRAM_SIZE SA_MEMORY_BASE
  rw [BitVec.toNat_add, BitVec.toNat_ofNat]
  omega

theorem sramRead_onBusWord (m : Store) (op : LoadOp) (a : Word) : sramRead m op.instr (onBusWord a) =
    if a.toNat + op.width ≤ memSize then .ok (op.instr.extend (load m a.toNat op.width)) else .error .memoryRange := by
  obtain ⟨hrange, hoff⟩ := toNat_onBusWord a
  have hw := op.width_pos
  unfold sramRead
  rw [readWidth_instr]
  by_cases ha : a.toNat < memSize
  · rw [if_neg (hrange.mpr ha), if_neg hw.ne', hoff ha]
  · rw [if_pos (not_not.mp fun hn => ha (hrange.mp hn)), if_neg (by omega)]

theorem sramWrite_onBusWord (m : Store) (op : StoreOp) (a data : Word) : sramWrite m op.instr (onBusWord a) data =
    if a.toNat + op.width ≤ memSize then .ok (store m a.toNat op.width data.toNat) else .error .memoryRange := by
  obtain ⟨hrange, hoff⟩ := toNat_onBusWord a
  have hw := op.width_pos
  unfold sramWrite
  rw [writeWidth_instr]
  by_cases ha : a.toNat < memSize
  · rw [if_neg (hrange.mpr ha), if_neg hw.ne', hoff ha]
  · rw [if_pos (not_not.mp fun hn => ha (hrange.mp hn)), if_neg (by omega)]

theorem sramReadReqHandler_inside (h : Holds s m) (g : Tag) {op : LoadOp} {addr : Word}
    (hin : addr.toNat + op.width ≤ memSize) : ∃ (p : Burst ReadResp) (r : ReadResp), p.payloads = [r] ∧
      r.data = op.instr.extend (load m addr.toNat op.width) ∧
      sramReadReqHandler (readReq g op (onBusWord addr)) (s.expect g.tid 1) =
        .ok (answered (s.expect g.tid 1) g.tid m (.readResp p)) := by
  have hread := sramRead_onBusWord m op addr
  rw [if_pos hin, ← (h.expect g.tid).sram] at hread
  have htk := h.tracker g.tid
  let r : ReadResp :=
    { tid := g.tid, instr := g.instr, op := op.instr, data := op.instr.extend (load m addr.toNat op.width), a1 := g.a1 }
  refine ⟨(constructMemReadRespPkt [r] .sa g.caller 0).setTID g.tid, r, rfl, rfl, ?_⟩
  rw [sramReadReqHandler]
  simp only [readReq, hread, htk, bind, Except.bind, pure, Except.pure, State.collect, answered, List.nil_append,
    List.length_singleton, if_true, State.respond, ← (h.expect g.tid).sram, r]

theorem sramWriteReqHandler_inside (h : Holds s m) (g : Tag) {op : StoreOp} {addr : Word} (data : Word)
    (hin : addr.toNat + op.width ≤ memSize) : ∃ p : Burst WriteResp,
      sramWriteReqHandler (writeReq g op (onBusWord addr) data) (s.expect g.tid 1) =
        .ok (answered (s.expect g.tid 1) g.tid (store m addr.toNat op.width data.toNat) (.writeResp p)) := by
  have hwrite := sramWrite_onBusWord m op addr data
  rw [if_pos hin, ← (h.expect g.tid).sram] at hwrite
  have htk := h.tracker g.tid
  refine ⟨(constructMemWriteRespPkt [{ tid := g.tid, instr := g.instr }] .sa g.caller 0).setTID g.tid, ?_⟩
  rw [sramWriteReqHandler]
  simp only [writeReq, hwrite, htk, bind, Except.bind, pure, Except.pure, State.collect, answered, List.nil_append,
    List.length_singleton, if_true, State.respond, ← (h.expect g.tid).sram]

theorem sramReadReqHandler_outside (h : Holds s m) (g : Tag) {op : LoadOp} {addr : Word}
    (hout : ¬ addr.toNat + op.width ≤ memSize) :
    sramReadReqHandler (readReq g op (onBusWord addr)) (s.expect g.tid 1) = .error .memoryRange := by
  have hread := sramRead_onBusWord m op addr
  rw [if_neg hout, ← (h.expect g.tid).sram] at hread
  rw [sramReadReqHandler]
  simp only [readReq, hread]
  rfl

theorem sramWriteReqHandler_outside (h : Holds s m) (g : Tag) {op : StoreOp} {addr : Word} (data : Word)
    (hout : ¬ addr.toNat + op.width ≤ memSize) :
    sramWriteReqHandler (writeReq g op (onBusWord addr) data) (s.expect g.tid 1) = .error .memoryRange := by
  have hwrite := sramWrite_onBusWord m op addr data
  rw [if_neg hout, ← (h.expect g.tid).sram] at hwrite
  rw [sramWriteReqHandler]
  simp only [writeReq, hwrite]
  rfl

/-- **The SRAM** serves every access as a store of bytes does. -/
theorem oneBeat_serve (s : State) (m : Store) (x : Soc.Access) (h : Holds s m) :
    (oneBeat s x).2 = (serve memSize m x).1 ∧ Holds (oneBeat s x).1 (serve memSize m x).2 := by
  cases x with
  | load g op addr =>
    refine finish_serve_load g (h.expect g.tid) (fun hin => ?_) fun hout => ⟨_, sramReadReqHandler_outside h g hout⟩
    obtain ⟨p, r, hp, hr, hm⟩ := sramReadReqHandler_inside h g hin
    exact ⟨_, p, r, hm, rfl, hp, hr, (h.expect g.tid).answered g.tid m _⟩
  | store g op addr data =>
    refine finish_serve_store g (h.expect g.tid) (fun hin => ?_) fun hout =>
      ⟨_, sramWriteReqHandler_outside h g data hout⟩
    obtain ⟨p, hm⟩ := sramWriteReqHandler_inside h g data hin
    exact ⟨_, p, hm, rfl, (h.expect g.tid).answered g.tid _ _⟩

end Sa

namespace Soc

/-! ## Two sizes -/

/-- A store that a memory of one size accepts, that of the other size rejects, and that covers a byte of both. -/
def Access.Split (n k : Nat) : Access → Prop
  | .load .. => False
  | .store g op addr data =>
    ((Access.store g op addr data).Inside n ∧ ¬ (Access.store g op addr data).Inside k ∧ addr.toNat < k) ∨
      ((Access.store g op addr data).Inside k ∧ ¬ (Access.store g op addr data).Inside n ∧ addr.toNat < n)

instance (n k : Nat) (x : Access) : Decidable (x.Split n k) := by
  cases x <;> unfold Access.Split <;> infer_instance

/-- Without such a store, the two sizes agree on the bytes of both. -/
theorem lastByte_congr {n k : Nat} {m : Store} {h : List Access} (hs : ∀ x ∈ h, ¬ x.Split n k) {y : Nat} (hn : y < n)
    (hk : y < k) : lastByte n m h y = lastByte k m h y := by
  induction h with
  | nil => rfl
  | cons x h ih =>
    have ih := ih fun x hx => hs x (List.mem_cons_of_mem _ hx)
    cases x with
    | load g op addr => exact ih
    | store g op addr data =>
      have hx := hs _ List.mem_cons_self
      simp only [Access.Split, not_or, not_and, not_lt] at hx
      unfold lastByte
      by_cases hc : addr.toNat ≤ y ∧ y < addr.toNat + op.width
      · have hin : (Access.store g op addr data).Inside n ↔ (Access.store g op addr data).Inside k := by
          constructor
          · intro hi
            by_contra hni
            have := hx.1 hi hni
            omega
          · intro hi
            by_contra hni
            have := hx.2 hi hni
            omega
        simp only [hin, ih]
      · simp only [hc, and_false, if_false, ih]

theorem reference_congr {n k : Nat} {m : Store} {h : List Access} (hs : ∀ x ∈ h, ¬ x.Split n k) {x : Access}
    (hn : x.Inside n) (hk : x.Inside k) : reference n m h x = reference k m h x := by
  unfold reference
  rw [if_pos hn, if_pos hk]
  cases x with
  | load g op addr =>
    have hn : addr.toNat + op.width ≤ n := hn
    have hk : addr.toNat + op.width ≤ k := hk
    simp only
    rw [Finset.sum_congr rfl fun i hi => ?_]
    have hi := Finset.mem_range.mp hi
    rw [lastByte_congr hs (by omega) (by omega)]
  | store g op addr data => rfl

theorem answers_congr {n k : Nat} {m : Store} {h as : List Access} (hh : ∀ x ∈ h, ¬ x.Split n k)
    (hs : ∀ x ∈ as, ¬ x.Split n k) {i : Nat} {x : Access} (hx : as[i]? = some x) (hn : x.Inside n) (hk : x.Inside k) :
    (answers n m h as)[i]? = (answers k m h as)[i]? := by
  induction as generalizing h i with
  | nil => rfl
  | cons y as ih =>
    cases i with
    | zero =>
      cases hx
      exact congrArg some (reference_congr hh hn hk)
    | succ i =>
      refine ih (h := y :: h) (fun z hz => ?_) (fun z hz => hs z (List.mem_cons_of_mem _ hz)) hx
      rcases List.mem_cons.mp hz with rfl | hz
      · exact hs z List.mem_cons_self
      · exact hh z hz

/-- The two memories answer a list of accesses alike, wherever an access lies in both. -/
def Alike (d : DataMem.State) (s : Sa.State) (size : Nat) (as : List Access) : Prop :=
  ∀ (i : Nat) (x : Access), as[i]? = some x → x.Inside size → x.Inside Sa.memSize →
    (results DataMem.oneBeat d as)[i]? = (results Sa.oneBeat s as)[i]?

/-- **Two memories, one semantics.** Each memory answers every list of accesses as the byte map of its own size, and
holds that map after it; the two answer alike unless a store is split by the end of one of them. -/
theorem two_memories {d : DataMem.State} {s : Sa.State} {size : Nat} {m : Store} (hd : DataMem.Holds d size m)
    (hs : Sa.Holds s m) (as : List Access) :
    (results DataMem.oneBeat d as = answers size m [] as ∧
      (after DataMem.oneBeat d as).base = ⟨size, lastByte size m as.reverse⟩) ∧
    (results Sa.oneBeat s as = answers Sa.memSize m [] as ∧
      (after Sa.oneBeat s as).sram = lastByte Sa.memSize m as.reverse) ∧
    ((∀ x ∈ as, ¬ x.Split size Sa.memSize) → Alike d s size as) := by
  have h1 := results_eq_answers_of_serve (fun s m => DataMem.Holds s size m) DataMem.oneBeat_serve hd as
  have h2 := results_eq_answers_of_serve Sa.Holds Sa.oneBeat_serve hs as
  refine ⟨⟨h1.1, h1.2.base⟩, ⟨h2.1, h2.2.sram⟩, fun hsplit i x hx hn hk => ?_⟩
  rw [h1.1, h2.1]
  exact answers_congr (fun _ h => by cases h) hsplit hx hn hk

/-! ## The last bytes of the SRAM -/

theorem dmHolds_init (size : Nat) : DataMem.Holds (DataMem.init ⟨size, fun _ => 0⟩) size fun _ => 0 :=
  ⟨rfl, fun _ _ h => by cases h⟩

theorem saHolds_init : Sa.Holds Sa.init fun _ => 0 := ⟨rfl, fun _ => ⟨rfl, rfl⟩⟩

def cpuTag : Tag := { caller := .cpu, tid := 0, instr := {}, a1 := {} }

/-- A word of ones at `addr`, and a load of its first byte. -/
def onesAt (addr : Word) : List Access := [.store cpuTag .SW addr 0xFFFFFFFF, .load cpuTag .LB addr]

theorem two_memories_last :
    results DataMem.oneBeat (DataMem.init ⟨65536, fun _ => 0⟩) (onesAt 31996) = [.done, .value 0xFFFFFFFF] ∧
      Alike (DataMem.init ⟨65536, fun _ => 0⟩) Sa.init 65536 (onesAt 31996) := by
  have h := two_memories (dmHolds_init 65536) saHolds_init (onesAt 31996)
  exact ⟨h.1.1.trans (by decide), h.2.2 (by decide)⟩

/-- The word at 31998 fits the data memory of 65536 bytes and not the SRAM of 32000 bytes. -/
theorem two_memories_split : ¬ ∀ (d : DataMem.State) (s : Sa.State) (size : Nat) (m : Store), DataMem.Holds d size m →
    Sa.Holds s m → ∀ as, Alike d s size as := by
  intro h
  have hl := h _ _ 65536 _ (dmHolds_init 65536) saHolds_init (onesAt 31998) 1 (.load cpuTag .LB 31998) rfl (by decide)
    (by decide)
  exact absurd hl (by decide)

end Soc

end SocModel
