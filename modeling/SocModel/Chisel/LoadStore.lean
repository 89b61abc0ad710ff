import SocModel.Chisel.DataMem

/-!
# What loads and stores do to the data memory

`DataMem.scala` on sequences of requests, with the latency it is built with. A request is seen in one cycle; what the
wires carry in the cycles it takes is arbitrary.

* `Access.value`, `Access.effect` : what a load returns and a store changes by definition;
* `Serves` : the data memory does that, request by request;
* `turns_iff` : exactly when `LBU` and `LHU` find their bytes at the address rounded down to a word, too.
-/

namespace SocModel.Chisel

/-! ## Accesses -/

inductive MemOp where
  | LB | LBU | LH | LHU | LW | SB | SH | SW
  deriving DecidableEq, Repr

namespace MemOp

/-- `funct3` of the instruction. -/
def funct3 : MemOp → BitVec 3
  | LB | SB => 0
  | LH | SH => 1
  | LW | SW => 2
  | LBU => 4
  | LHU => 5

def isStore : MemOp → Bool
  | SB | SH | SW => true
  | _ => false

/-- The bytes of the access. -/
def size : MemOp → Nat
  | LB | LBU | SB => 1
  | LH | LHU | SH => 2
  | LW | SW => 4

end MemOp

structure Access where
  op : MemOp
  addr : Addr
  data : Word
  deriving DecidableEq, Repr

namespace Access

/-- The wires that the controller and the datapath drive. -/
def req (a : Access) : MemReq where
  memR := !a.op.isStore
  memW := a.op.isStore
  length := 0#1 ++ a.op.funct3
  raddr := a.addr
  waddr := a.addr
  wdata := a.data

/-- The value of a load: the bytes at the address, little-endian, extended. -/
def value (a : Access) (m : Bytes) : Word :=
  match a.op with
  | .LB => (m a.addr).signExtend 32
  | .LBU => 0#24 ++ m a.addr
  | .LH => (m (a.addr + 1) ++ m a.addr).signExtend 32
  | .LHU => 0#16 ++ m (a.addr + 1) ++ m a.addr
  | .LW => m (a.addr + 3) ++ m (a.addr + 2) ++ m (a.addr + 1) ++ m a.addr
  | _ => 0

/-- The memory after the access: a store writes byte `k` of its data `k` bytes behind the address. -/
def effect (a : Access) (m : Bytes) : Bytes := fun x =>
  if a.op.isStore = true ∧ (x - a.addr).toNat < a.op.size then a.data.extractLsb' (8 * (x - a.addr).toNat) 8 else m x

/-- The address is a multiple of the size. -/
def Aligned (a : Access) : Prop := a.addr.toNat % a.op.size = 0

instance (a : Access) : Decidable a.Aligned := by unfold Aligned; infer_instance

end Access

/-! ## Requests one after the other -/

/-- The latency that `top` leaves at its default. -/
def MEM_LATENCY : Nat := 5

/-- A cycle without a request, or an access, with what the wires carry in the four cycles after it. -/
inductive Turn where
  | pause (wires : MemReq)
  | access (a : Access) (wires : Fin 4 → MemReq)

/-- The data memory in the cycle that answers an access. -/
def answering (d : DataMem) (a : Access) (wires : Fin 4 → MemReq) : DataMem :=
  ((((d.next MEM_LATENCY a.req).next MEM_LATENCY (wires 0)).next MEM_LATENCY (wires 1)).next MEM_LATENCY (wires 2))

/-- The registers after a turn. -/
def Turn.after (d : DataMem) : Turn → DataMem
  | .pause wires => d.next MEM_LATENCY { wires with memR := false, memW := false }
  | .access a wires => (answering d a wires).next MEM_LATENCY (wires 3)

/-- A turn does what it should: the access is answered, a load with its value; the memory changes by its effect. -/
def ServesTurn (d : DataMem) : Turn → Prop
  | .pause wires => (Turn.after d (.pause wires)).memory = d.memory
  | .access a wires => (answering d a wires).valid MEM_LATENCY = true ∧
    (a.op.isStore = false → (answering d a wires).dataReg = a.value d.memory) ∧
    (Turn.after d (.access a wires)).memory = a.effect d.memory

def Serves : DataMem → List Turn → Prop
  | _, [] => True
  | d, t :: ts => ServesTurn d t ∧ Serves (t.after d) ts

/-- Nothing is under way. -/
def Ready (d : DataMem) : Prop := d.state = .idle ∧ d.counter = 0

/-- The bytes at the address rounded down to a word are those at the address, if the access is an unsigned load of
less than a word. -/
def AccessExact (m : Bytes) (a : Access) : Prop :=
  match a.op with
  | .LBU => m (a.addr &&& ~~~3) = m a.addr
  | .LHU => m (a.addr &&& ~~~3) = m a.addr ∧ m ((a.addr &&& ~~~3) + 1) = m (a.addr + 1)
  | _ => True

/-- That is so at each access of the sequence, in the memory as the accesses before it left it. -/
def Exact : Bytes → List Turn → Prop
  | _, [] => True
  | m, .pause _ :: ts => Exact m ts
  | m, .access a _ :: ts => AccessExact m a ∧ Exact (a.effect m) ts

/-! ## One access -/

section

variable {d : DataMem} (hd : Ready d) (a : Access) (wires : Fin 4 → MemReq)
include hd

theorem answering_load (h : a.op.isStore = false) : answering d a wires = { d with
    readAddrReg := a.addr
    lengthReg := 0#1 ++ a.op.funct3
    dataReg := readData d.memory (0#1 ++ a.op.funct3) a.addr
    state := .wait
    counter := 4 } := by
  obtain ⟨hs, hc⟩ := hd
  simp only [answering, DataMem.next, hs, hc, DataMem.accept, Access.req, h, MEM_LATENCY, DataMem.tick]
  rfl

theorem answering_store (h : a.op.isStore = true) : answering d a wires = { d with
    writeAddrReg := a.addr
    writeDataReg := a.data
    lengthReg := 0#1 ++ a.op.funct3
    memory := storeBytes d.memory (0#1 ++ a.op.funct3) a.addr a.data
    state := .wait
    counter := 4 } := by
  obtain ⟨hs, hc⟩ := hd
  simp only [answering, DataMem.next, hs, hc, DataMem.accept, Access.req, h, MEM_LATENCY, DataMem.tick]
  rfl

end

/-! ## Alignment -/

theorem and_not_of_and_eq_zero {x m : Addr} (h : x &&& m = 0) : x &&& ~~~m = x := by
  apply BitVec.eq_of_getLsbD_eq
  intro k hk
  have hbit := congrArg (fun v => BitVec.getLsbD v k) h
  simp only [BitVec.getLsbD_and] at hbit
  rw [BitVec.getLsbD_and, BitVec.getLsbD_not, decide_eq_true hk]
  cases hx : x.getLsbD k <;> cases hm : m.getLsbD k <;> simp_all

theorem and_not_one {x : Addr} (h : x.toNat % 2 = 0) : x &&& ~~~1 = x := by
  refine and_not_of_and_eq_zero (BitVec.eq_of_toNat_eq ?_)
  exact (Nat.and_two_pow_sub_one_eq_mod x.toNat 1).trans h

theorem and_not_three {x : Addr} (h : x.toNat % 4 = 0) : x &&& ~~~3 = x := by
  refine and_not_of_and_eq_zero (BitVec.eq_of_toNat_eq ?_)
  exact (Nat.and_two_pow_sub_one_eq_mod x.toNat 2).trans h

theorem alignedAddr_eq {a : Access} (h : a.Aligned) (hu : a.op ≠ .LBU) (hu' : a.op ≠ .LHU) :
    alignedAddr (0#1 ++ a.op.funct3) a.addr = a.addr := by
  unfold Access.Aligned at h
  cases hop : a.op <;> rw [hop] at h hu hu'
  case LBU => exact absurd rfl hu
  case LHU => exact absurd rfl hu'
  case LB => rfl
  case SB => rfl
  case LH => exact and_not_one h
  case SH => exact and_not_one h
  case LW => exact and_not_three h
  case SW => exact and_not_three h

theorem readData_iff {a : Access} (h : a.Aligned) (hl : a.op.isStore = false) (m : Bytes) :
    readData m (0#1 ++ a.op.funct3) a.addr = a.value m ↔ AccessExact m a := by
  have haddr := alignedAddr_eq h
  unfold readData Access.value AccessExact
  cases hop : a.op <;> rw [hop] at hl haddr
  case LB => exact iff_of_true (by rw [haddr (by decide) (by decide)]; rfl) trivial
  case LH => exact iff_of_true (by rw [haddr (by decide) (by decide)]; rfl) trivial
  case LW => exact iff_of_true (by rw [haddr (by decide) (by decide)]; rfl) trivial
  case LBU => exact BitVec.append_right_inj (0#24)
  case LHU =>
    have hinj : ∀ x y x' y' : BitVec 8, 0#16 ++ x ++ y = 0#16 ++ x' ++ y' ↔ y = y' ∧ x = x' := by
      intro x y x' y'
      constructor
      · intro hxy
        have hy : y = y' := by
          have hlow := congrArg (fun v => BitVec.setWidth 8 v) hxy
          simpa only [BitVec.setWidth_append_eq_right] using hlow
        subst hy
        exact ⟨rfl, (BitVec.append_right_inj (0#16)).mp ((BitVec.append_left_inj y).mp hxy)⟩
      · rintro ⟨rfl, rfl⟩
        rfl
    exact hinj _ _ _ _
  all_goals exact absurd hl (by decide)

/-! ## Stores -/

/-- `m` with the first `k` bytes of `f` from `a` on. -/
def overlay (m : Bytes) (a : Addr) (f : Nat → BitVec 8) (k : Nat) : Bytes := fun x =>
  if (x - a).toNat < k then f (x - a).toNat else m x

/-- One more byte. -/
theorem update_overlay (m : Bytes) (a : Addr) (f : Nat → BitVec 8) {k : Nat} (hk : k < 2 ^ 15) :
    Function.update (overlay m a f k) (a + BitVec.ofNat 15 k) (f k) = overlay m a f (k + 1) := by
  funext x
  unfold overlay
  by_cases hx : x = a + BitVec.ofNat 15 k
  · have hsub : (x - a).toNat = k := by
      rw [hx, BitVec.add_comm, BitVec.add_sub_cancel, BitVec.toNat_ofNat, Nat.mod_eq_of_lt hk]
    rw [hx, Function.update_self, ← hx, hsub, if_pos (Nat.lt_succ_self k)]
  · have hsub : (x - a).toNat ≠ k := by
      intro h
      refine hx ?_
      rw [← h, BitVec.ofNat_toNat, BitVec.setWidth_eq, BitVec.add_comm, BitVec.sub_add_cancel]
    rw [Function.update_of_ne hx]
    by_cases hlt : (x - a).toNat < k
    · rw [if_pos hlt, if_pos (Nat.lt_succ_of_lt hlt)]
    · rw [if_neg hlt, if_neg (by omega)]

theorem overlay_zero (m : Bytes) (a : Addr) (f : Nat → BitVec 8) : overlay m a f 0 = m := rfl

theorem overlay_one (m : Bytes) (a : Addr) (f : Nat → BitVec 8) :
    Function.update m a (f 0) = overlay m a f 1 := by
  have h := update_overlay m a f (k := 0) (by decide)
  rwa [overlay_zero, show a + BitVec.ofNat 15 0 = a from BitVec.add_zero a] at h

theorem overlay_two (m : Bytes) (a : Addr) (f : Nat → BitVec 8) :
    Function.update (Function.update m a (f 0)) (a + 1) (f 1) = overlay m a f 2 := by
  rw [overlay_one]
  exact update_overlay m a f (by decide)

theorem overlay_four (m : Bytes) (a : Addr) (f : Nat → BitVec 8) :
    Function.update (Function.update (Function.update (Function.update m a (f 0)) (a + 1) (f 1)) (a + 2) (f 2))
      (a + 3) (f 3) = overlay m a f 4 := by
  rw [overlay_two]
  have h2 := update_overlay m a f (k := 2) (by decide)
  have h3 := update_overlay m a f (k := 3) (by decide)
  rw [← h2] at h3
  exact h3

theorem extractLsb'_setWidth (data : Word) {w i : Nat} (hw : i + 8 ≤ w) (hw' : w ≤ 32) :
    ((data.extractLsb' 0 w).setWidth 32).extractLsb' i 8 = data.extractLsb' i 8 := by
  apply BitVec.eq_of_getLsbD_eq
  intro k hk
  simp only [BitVec.getLsbD_extractLsb', BitVec.getLsbD_setWidth, Nat.zero_add]
  simp [hk, show i + k < w by omega, show i + k < 32 by omega]

/-- A store writes its bytes. -/
theorem storeBytes_eq {a : Access} (h : a.Aligned) (hs : a.op.isStore = true) (m : Bytes) :
    storeBytes m (0#1 ++ a.op.funct3) a.addr a.data = a.effect m := by
  have haddr := alignedAddr_eq h
  have heffect : a.effect m = overlay m a.addr (fun k => a.data.extractLsb' (8 * k) 8) a.op.size := by
    funext x
    simp only [Access.effect, overlay, hs, true_and]
  rw [heffect]
  unfold storeBytes
  cases hop : a.op <;> rw [hop] at hs haddr
  case SB =>
    rw [haddr (by decide) (by decide)]
    refine Eq.trans ?_ (overlay_one m a.addr _)
    exact congrArg (Function.update m a.addr) (extractLsb'_setWidth a.data (w := 8) (i := 0) (by decide) (by decide))
  case SH =>
    rw [haddr (by decide) (by decide)]
    refine Eq.trans ?_ (overlay_two m a.addr _)
    have h0 := extractLsb'_setWidth a.data (w := 16) (i := 0) (by decide) (by decide)
    have h1 := extractLsb'_setWidth a.data (w := 16) (i := 8) (by decide) (by decide)
    rw [show 8 * 0 = 0 from rfl, show 8 * 1 = 8 from rfl, ← h0, ← h1]
    rfl
  case SW =>
    rw [haddr (by decide) (by decide)]
    exact overlay_four m a.addr fun k => a.data.extractLsb' (8 * k) 8
  all_goals exact absurd hs (by decide)

/-! ## Sequences -/

theorem Turn.after_ready {d : DataMem} (hd : Ready d) (t : Turn) : Ready (t.after d) := by
  cases t with
  | pause wires =>
    obtain ⟨hs, hc⟩ := hd
    simp only [Turn.after, DataMem.next, hs, hc, DataMem.accept, MEM_LATENCY]
    exact ⟨rfl, rfl⟩
  | access a wires =>
    cases h : a.op.isStore with
    | false =>
      unfold Turn.after
      dsimp only
      rw [answering_load hd a wires h]
      exact ⟨rfl, rfl⟩
    | true =>
      unfold Turn.after
      dsimp only
      rw [answering_store hd a wires h]
      exact ⟨rfl, rfl⟩

/-- One turn does what it should, exactly then. -/
theorem servesTurn_access_iff {d : DataMem} (hd : Ready d) {a : Access} (ha : a.Aligned) (wires : Fin 4 → MemReq) :
    ServesTurn d (.access a wires) ↔ AccessExact d.memory a := by
  unfold ServesTurn Turn.after
  dsimp only
  cases h : a.op.isStore with
  | false =>
    have heffect : a.effect d.memory = d.memory := by
      funext x
      simp [Access.effect, h]
    rw [answering_load hd a wires h, heffect, ← readData_iff ha h]
    constructor
    · intro hserves
      exact hserves.2.1 rfl
    · intro hval
      exact ⟨rfl, fun _ => hval, rfl⟩
  | true =>
    have hexact : AccessExact d.memory a := by
      unfold AccessExact
      cases hop : a.op <;> rw [hop] at h <;> trivial
    rw [answering_store hd a wires h]
    refine iff_of_true ⟨rfl, fun h => absurd h (by decide), ?_⟩ hexact
    exact storeBytes_eq ha h d.memory

/-- The memory after a turn that does what it should. -/
theorem ServesTurn.memory {d : DataMem} {t : Turn} (h : ServesTurn d t) : (t.after d).memory =
    match t with
    | .pause _ => d.memory
    | .access a _ => a.effect d.memory := by
  cases t with
  | pause wires => exact h
  | access a wires => exact h.2.2

/-- **Main result.** A sequence of aligned accesses is served as defined exactly when each `LBU` and `LHU` of it finds
its bytes at the address rounded down to a word. -/
theorem turns_iff {d : DataMem} (hd : Ready d) {ts : List Turn}
    (ha : ∀ a wires, Turn.access a wires ∈ ts → a.Aligned) : Serves d ts ↔ Exact d.memory ts := by
  induction ts generalizing d with
  | nil => exact Iff.rfl
  | cons t ts ih =>
    have hrest := ih (t.after_ready hd) fun a wires hmem => ha a wires (List.mem_cons_of_mem _ hmem)
    cases t with
    | pause wires =>
      have hturn : ServesTurn d (.pause wires) := by
        obtain ⟨hs, hc⟩ := hd
        simp only [ServesTurn, Turn.after, DataMem.next, hs, hc, DataMem.accept, MEM_LATENCY]
        rfl
      rw [hturn.memory] at hrest
      exact ⟨fun h => hrest.mp h.2, fun h => ⟨hturn, hrest.mpr h⟩⟩
    | access a wires =>
      have hturn := servesTurn_access_iff hd (ha a wires List.mem_cons_self) wires
      constructor
      · rintro ⟨h, hs⟩
        rw [h.memory] at hrest
        exact ⟨hturn.mp h, hrest.mp hs⟩
      · rintro ⟨h, hs⟩
        have h := hturn.mpr h
        rw [h.memory] at hrest
        exact ⟨h, hrest.mpr hs⟩

/-- A store of a byte, then loads of it and of the word. -/
def sampleTurns : List Turn :=
  [.access ⟨.SB, 5, 0x80⟩ fun _ => ⟨false, false, 0, 0, 0, 0⟩, .access ⟨.LB, 5, 0⟩ fun _ => ⟨false, false, 0, 0, 0, 0⟩,
    .access ⟨.LW, 4, 0⟩ fun _ => ⟨false, false, 0, 0, 0, 0⟩]

theorem turns_iff_sample : Serves { memory := fun _ => 0 } sampleTurns ↔ Exact (fun _ => 0) sampleTurns :=
  turns_iff (d := { memory := fun _ => 0 }) ⟨rfl, rfl⟩ fun a wires h => by
    simp only [sampleTurns, List.mem_cons, List.not_mem_nil, or_false, Turn.access.injEq] at h
    rcases h with ⟨rfl, -⟩ | ⟨rfl, -⟩ | ⟨rfl, -⟩ <;> decide

/-- With 1 in byte 5 of a memory of zeros, `LBU` at 5 returns 0. -/
theorem not_serves_lbu : ¬ Serves { memory := fun x => if x = 5 then 1 else 0 }
    [.access ⟨.LBU, 5, 0⟩ fun _ => ⟨false, false, 0, 0, 0, 0⟩] := by
  rintro ⟨⟨-, h, -⟩, -⟩
  exact absurd (h rfl) (by decide)

end SocModel.Chisel
