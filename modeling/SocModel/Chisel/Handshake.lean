import Mathlib.Order.Nat
import SocModel.Chisel.DataMem

/-!
# The handshake of the data memory

`DataMem.scala` for every latency that it can be built with. A request is held on the wires until it is answered;
between two requests there may be cycles without one.

* `hold`, `writes` : the registers and the writes while a request is held;
* `ServesTurn`, `Serves` : a request is answered in the cycle of its latency and in no other, done once, and a read is
  answered with its own data;
* `servesTurn_of_three_le`, `servesTurn_two_iff`, `servesTurn_one_iff` : one turn, by the latency;
* `serves_iff_works` : the sequences that are served.
-/

namespace SocModel.Chisel.Handshake

/-! ## Requests -/

/-- A cycle without a request, or a read or a write that is held until its answer. Only the two request wires are
fixed. -/
inductive Turn where
  | pause (wires : MemReq)
  | read (wires : MemReq)
  | write (wires : MemReq)

namespace Turn

def req : Turn → MemReq
  | pause w => { w with memR := false, memW := false }
  | read w => { w with memR := true, memW := false }
  | write w => { w with memR := false, memW := true }

/-- The cycles that a turn takes. -/
def cycles (memLatency : Nat) : Turn → Nat
  | pause _ => 1
  | read _ | write _ => memLatency

end Turn

/-- A write that `sWrite` does. -/
structure Write where
  length : BitVec 4
  addr : Addr
  data : Word
  deriving DecidableEq, Repr

def Write.apply (memory : Bytes) (w : Write) : Bytes := storeBytes memory w.length w.addr w.data

/-- The write of a cycle. -/
def written (d : DataMem) : List Write :=
  if d.state = .write then [⟨d.lengthReg, d.writeAddrReg, d.writeDataReg⟩] else []

section

variable (memLatency : Nat) (req : MemReq)

/-- The registers after `k` cycles with the request on the wires. -/
def hold (d : DataMem) : Nat → DataMem
  | 0 => d
  | k + 1 => (hold d k).next memLatency req

/-- The writes of the first `k` cycles. -/
def writes (d : DataMem) : Nat → List Write
  | 0 => []
  | k + 1 => writes d k ++ written (hold memLatency req d k)

/-- `Valid` is up in the last of the request's cycles and in no other. -/
def AnsweredOnce (d : DataMem) : Prop :=
  ∀ k < memLatency, (hold memLatency req d k).valid memLatency = decide (k + 1 = memLatency)

end

/-- The registers after a turn. -/
def Turn.after (memLatency : Nat) (t : Turn) (d : DataMem) : DataMem :=
  hold memLatency t.req d (t.cycles memLatency)

/-- A turn does what it should: without a request nothing is answered and nothing written; a read is answered once,
with the value at its address, and writes nothing; a write is answered once and done once. Each of them ends in
`sIdle`. -/
def ServesTurn (memLatency : Nat) (d : DataMem) (t : Turn) : Prop :=
  (t.after memLatency d).state = .idle ∧
    match t with
    | .pause _ => d.valid memLatency = false ∧ writes memLatency t.req d 1 = []
    | .read w => AnsweredOnce memLatency t.req d ∧ writes memLatency t.req d memLatency = [] ∧
        (hold memLatency t.req d (memLatency - 1)).dataReg = readData d.memory w.length w.raddr
    | .write w => AnsweredOnce memLatency t.req d ∧
        writes memLatency t.req d memLatency = [⟨w.length, w.waddr, w.wdata⟩]

def Serves (memLatency : Nat) : DataMem → List Turn → Prop
  | _, [] => True
  | d, t :: ts => ServesTurn memLatency d t ∧ Serves memLatency (t.after memLatency d) ts

/-- Nothing is under way. -/
def Idle (d : DataMem) : Prop := d.state = .idle ∧ d.counter = 0

section

variable {memLatency : Nat}

/-- The memory is what the writes have made of it. -/
theorem memory_next (req : MemReq) (d : DataMem) :
    (d.next memLatency req).memory = (written d).foldl Write.apply d.memory := by
  unfold DataMem.next written
  rcases hst : d.state with _ | _ | _ | _
  · by_cases hv : d.counter = memLatency - 1 <;> simp [hv]
  · simp
  · simp [Write.apply]
  · simp

theorem memory_hold (req : MemReq) (d : DataMem) (k : Nat) :
    (hold memLatency req d k).memory = (writes memLatency req d k).foldl Write.apply d.memory := by
  induction k with
  | zero => rfl
  | succ k ih => rw [hold, memory_next, ih, writes, List.foldl_append]

/-! ## Latencies from 2 on -/

/-- `counter` is wide enough to reach `memLatency - 1`. -/
theorem lt_counterWidth (k : Nat) (hk : k < memLatency) : k < 2 ^ counterWidth memLatency := by
  have hle : k ≤ memLatency - 1 := by omega
  have hbits : memLatency - 1 < 2 ^ bitLength (memLatency - 1) := by
    unfold bitLength
    split
    · omega
    · exact Nat.lt_log2_self
  have hmono : 2 ^ bitLength (memLatency - 1) ≤ 2 ^ counterWidth memLatency :=
    Nat.pow_le_pow_right (by decide) (Nat.le_max_right _ _)
  omega

variable {d : DataMem} {t : Turn}

/-- The registers once the request is accepted and done. -/
def done (t : Turn) (d : DataMem) : DataMem :=
  match t with
  | .pause _ => d
  | .read w => { d with readAddrReg := w.raddr, lengthReg := w.length, dataReg := readData d.memory w.length w.raddr }
  | .write w =>
    { d with writeAddrReg := w.waddr, writeDataReg := w.wdata, lengthReg := w.length,
             memory := storeBytes d.memory w.length w.waddr w.wdata }

def Turn.isPause : Turn → Bool
  | .pause _ => true
  | _ => false

section

variable (hd : Idle d) (hp : t.isPause = false)
include hd hp

omit hp in
theorem hold_one (hL : 2 ≤ memLatency) : hold memLatency t.req d 1 = d.accept t.req := by
  obtain ⟨hs, hc⟩ := hd
  have hne : ¬ 0 = memLatency - 1 := by omega
  simp only [hold, DataMem.next, hs, hc, hne, if_false]

/-- In the second cycle the request is done, and the last cycle is this one or `sWait` follows. -/
theorem hold_two (hL : 2 ≤ memLatency) : hold memLatency t.req d 2 =
    if 1 = memLatency - 1 then { done t d with state := .idle, counter := 0 }
    else { done t d with state := .wait, counter := 2 } := by
  have hmod : 2 < memLatency → (1 + 1) % 2 ^ counterWidth memLatency = 2 := fun h =>
    Nat.mod_eq_of_lt (lt_counterWidth 2 h)
  rw [hold, hold_one hd hL]
  cases t with
  | pause w => exact nomatch hp
  | read w | write w =>
    by_cases h1 : 1 = memLatency - 1
    · have h1' : memLatency - 1 = 1 := h1.symm
      simp only [Turn.req, DataMem.accept, if_true, Bool.false_eq_true, if_false, DataMem.next, DataMem.tick, h1', done]
    · have h1' : ¬ 1 = memLatency - 1 := h1
      simp only [Turn.req, DataMem.accept, if_true, Bool.false_eq_true, if_false, DataMem.next, DataMem.tick, h1', done,
        hmod (by omega)]

/-- In `sWait` only the counter moves. -/
theorem hold_wait (k : Nat) (h2 : 2 ≤ k) (hk : k < memLatency) :
    hold memLatency t.req d k = { done t d with state := .wait, counter := k } := by
  induction k, h2 using Nat.le_induction with
  | base => rw [hold_two hd hp (by omega), if_neg (by omega)]
  | succ k h2 ih =>
    have hne : ¬ k = memLatency - 1 := by omega
    rw [hold, ih (by omega)]
    simp only [DataMem.next, DataMem.tick, hne, if_false, Nat.mod_eq_of_lt (lt_counterWidth (k + 1) hk)]

/-- The request ends after its latency. -/
theorem hold_end (hL : 2 ≤ memLatency) :
    hold memLatency t.req d memLatency = { done t d with state := .idle, counter := 0 } := by
  by_cases h2 : memLatency = 2
  · subst h2
    rw [hold_two hd hp (Nat.le_refl 2), if_pos rfl]
  · obtain ⟨k, rfl⟩ : ∃ k, memLatency = k + 1 := ⟨memLatency - 1, by omega⟩
    rw [hold, hold_wait hd hp k (by omega) (by omega)]
    simp only [DataMem.next, DataMem.tick, Nat.add_sub_cancel, if_true]

/-- The counter counts the cycles. -/
theorem counter_hold (hL : 2 ≤ memLatency) (k : Nat) (hk : k < memLatency) :
    (hold memLatency t.req d k).counter = k := by
  match k with
  | 0 => exact hd.2
  | 1 =>
    rw [hold_one hd hL]
    cases t with
    | pause w => exact nomatch hp
    | read w | write w => rfl
  | k + 2 => rw [hold_wait hd hp (k + 2) (by omega) hk]

theorem answeredOnce (hL : 2 ≤ memLatency) : AnsweredOnce memLatency t.req d := by
  intro k hk
  rw [DataMem.valid, counter_hold hd hp hL k hk, beq_eq_decide, decide_eq_decide]
  omega

theorem written_hold_wait (k : Nat) (h2 : 2 ≤ k) (hk : k < memLatency) :
    written (hold memLatency t.req d k) = [] := by
  rw [hold_wait hd hp k h2 hk]
  rfl

/-- A request writes in its second cycle if at all. -/
theorem writes_hold (hL : 2 ≤ memLatency) :
    writes memLatency t.req d memLatency = written (d.accept t.req) := by
  have htwo : writes memLatency t.req d 2 = written (d.accept t.req) := by
    have hidle : written d = [] := if_neg (by rw [hd.1]; decide)
    rw [writes, writes, writes, hold_one hd hL, hold, hidle, List.nil_append, List.nil_append]
  have hwait : ∀ k, 2 ≤ k → k ≤ memLatency → writes memLatency t.req d k = written (d.accept t.req) := by
    intro k h2
    induction k, h2 using Nat.le_induction with
    | base => exact fun _ => htwo
    | succ k h2 ih =>
      intro hk
      rw [writes, ih (by omega), written_hold_wait hd hp k h2 (by omega), List.append_nil]
  exact hwait memLatency hL (Nat.le_refl _)

end

/-- The registers after a turn; a cycle without a request changes nothing. -/
theorem after_eq (hd : Idle d) (hL : 2 ≤ memLatency) :
    t.after memLatency d = { done t d with state := .idle, counter := 0 } := by
  cases t with
  | pause w =>
    obtain ⟨hs, hc⟩ := hd
    have hne : ¬ 0 = memLatency - 1 := by omega
    simp only [Turn.after, Turn.cycles, hold, Turn.req, DataMem.next, hs, hc, hne, if_false, DataMem.accept,
      Bool.false_eq_true, done]
  | read w | write w => exact hold_end hd rfl hL

theorem idle_after (hd : Idle d) (hL : 2 ≤ memLatency) : Idle (t.after memLatency d) := by
  rw [after_eq hd hL]
  exact ⟨rfl, rfl⟩

/-- What a turn asks besides the data of a read holds from latency 2 on. -/
theorem servesTurn_iff_dataReg (hd : Idle d) (hL : 2 ≤ memLatency) : ServesTurn memLatency d t ↔
    ∀ w, t = .read w → (hold memLatency t.req d (memLatency - 1)).dataReg = readData d.memory w.length w.raddr := by
  have hidle := (idle_after (t := t) hd hL).1
  cases t with
  | pause w =>
    have hvalid : d.valid memLatency = false := by
      rw [DataMem.valid, hd.2, beq_eq_false_iff_ne]
      omega
    have hwrites : writes memLatency (Turn.pause w).req d 1 = [] := if_neg (by rw [hold, hd.1]; decide)
    exact iff_of_true ⟨hidle, hvalid, hwrites⟩ fun _ h => by cases h
  | read w =>
    constructor
    · rintro ⟨-, -, -, hdata⟩ w' h
      cases h
      exact hdata
    · intro hdata
      exact ⟨hidle, answeredOnce hd rfl hL, writes_hold hd rfl hL, hdata w rfl⟩
  | write w => exact iff_of_true ⟨hidle, answeredOnce hd rfl hL, writes_hold hd rfl hL⟩ fun _ h => by cases h

/-- From latency 3 on the data register has the read's value when the read is answered. -/
theorem servesTurn_of_three_le (hd : Idle d) (hL : 3 ≤ memLatency) : ServesTurn memLatency d t := by
  rw [servesTurn_iff_dataReg hd (by omega)]
  rintro w rfl
  rw [hold_wait hd rfl (memLatency - 1) (by omega) (by omega)]
  rfl

/-- With latency 2 a read is answered in `sRead` itself, where the data register has still the value before it. -/
theorem servesTurn_two_iff (hd : Idle d) :
    ServesTurn 2 d t ↔ ∀ w, t = .read w → readData d.memory w.length w.raddr = d.dataReg := by
  rw [servesTurn_iff_dataReg hd (Nat.le_refl 2)]
  apply forall_congr'
  intro w
  apply forall_congr'
  rintro rfl
  rw [hold_one hd (Nat.le_refl 2)]
  exact eq_comm

/-! ## Latency 1 -/

/-- A request that finds the counter at 0 is answered at once and dropped, and a cycle without a request puts the
counter back to 0: `sIdle` follows, and nothing is done. -/
theorem after_one (hs : d.state = .idle) (hc : d.counter = 0 ∨ t.isPause = true) :
    (t.after 1 d).state = .idle ∧ (t.after 1 d).memory = d.memory ∧ (t.after 1 d).dataReg = d.dataReg ∧
      (t.after 1 d).counter = if t.isPause then 0 else 1 := by
  have hnext : t.after 1 d = d.next 1 t.req := by cases t <;> rfl
  rw [hnext, DataMem.next, hs]
  dsimp only
  by_cases h0 : d.counter = 1 - 1
  · rw [if_pos h0]
    cases t <;> exact ⟨rfl, rfl, rfl, rfl⟩
  · rw [if_neg h0]
    cases t with
    | pause w => exact ⟨hs, rfl, rfl, rfl⟩
    | read w | write w => exact absurd hc (not_or.mpr ⟨h0, Bool.false_ne_true⟩)

/-- With latency 1 `Valid` is up whenever the counter is 0, and no request gets beyond `sIdle`. -/
theorem servesTurn_one_iff (hs : d.state = .idle) : ServesTurn 1 d t ↔
    match t with
    | .pause _ => d.counter ≠ 0
    | .read w => d.counter = 0 ∧ readData d.memory w.length w.raddr = d.dataReg
    | .write _ => False := by
  have hwrites : writes 1 t.req d 1 = [] := if_neg (by rw [hold, hs]; decide)
  have hvalid : d.valid 1 = decide (d.counter = 0) := beq_eq_decide _ _
  have hanswered : AnsweredOnce 1 t.req d → d.counter = 0 := by
    intro h
    have h0 := h 0 (by decide)
    rw [hold, hvalid] at h0
    exact of_decide_eq_true h0
  cases t with
  | pause w =>
    constructor
    · rintro ⟨-, hno, -⟩
      rw [hvalid] at hno
      exact of_decide_eq_false hno
    · intro hc
      exact ⟨(after_one hs (.inr rfl)).1, by rw [hvalid]; exact decide_eq_false hc, hwrites⟩
  | read w =>
    constructor
    · rintro ⟨-, hans, -, hdata⟩
      exact ⟨hanswered hans, hdata.symm⟩
    · rintro ⟨hc, hdata⟩
      refine ⟨(after_one hs (.inl hc)).1, ?_, hwrites, hdata.symm⟩
      intro k hk
      obtain rfl : k = 0 := by omega
      rw [hold, hvalid]
      exact decide_eq_true hc
  | write w =>
    refine iff_of_false ?_ id
    rintro ⟨-, -, hw⟩
    exact absurd (hwrites.symm.trans hw) (List.cons_ne_nil _ _).symm

/-! ## Sequences -/

/-- Every read finds the value `v`, in the memory as the writes before it left it. -/
def SameReads (v : Word) : Bytes → List Turn → Prop
  | _, [] => True
  | m, .pause _ :: ts => SameReads v m ts
  | m, .read w :: ts => readData m w.length w.raddr = v ∧ SameReads v m ts
  | m, .write w :: ts => SameReads v (storeBytes m w.length w.waddr w.wdata) ts

/-- Reads of the value `v` and single cycles without a request in turn, beginning with a read if `first`. -/
def Spaced (v : Word) (m : Bytes) : Bool → List Turn → Prop
  | _, [] => True
  | true, .read w :: ts => readData m w.length w.raddr = v ∧ Spaced v m false ts
  | false, .pause _ :: ts => Spaced v m true ts
  | _, _ => False

theorem serves_of_three_le (hd : Idle d) (hL : 3 ≤ memLatency) (ts : List Turn) : Serves memLatency d ts := by
  induction ts generalizing d with
  | nil => trivial
  | cons t ts ih => exact ⟨servesTurn_of_three_le hd hL, ih (idle_after hd (by omega))⟩

theorem serves_two_iff (hd : Idle d) (ts : List Turn) : Serves 2 d ts ↔ SameReads d.dataReg d.memory ts := by
  induction ts generalizing d with
  | nil => exact Iff.rfl
  | cons t ts ih =>
    rw [Serves, ih (idle_after hd (Nat.le_refl 2)), after_eq hd (Nat.le_refl 2), servesTurn_two_iff hd]
    cases t with
    | pause w => exact and_iff_right fun _ h => nomatch h
    | read w =>
      rw [SameReads]
      constructor
      · rintro ⟨hval, hrest⟩
        -- the register keeps its value: the read finds the same
        have hval := hval w rfl
        exact ⟨hval, by rwa [done, hval] at hrest⟩
      · rintro ⟨hval, hrest⟩
        refine ⟨?_, by rwa [done, hval]⟩
        rintro w' ⟨⟩
        exact hval
    | write w => exact and_iff_right fun _ h => nomatch h

theorem serves_one_iff (hs : d.state = .idle) (hc : d.counter = 0 ∨ d.counter = 1) (ts : List Turn) :
    Serves 1 d ts ↔ Spaced d.dataReg d.memory (d.counter == 0) ts := by
  induction ts generalizing d with
  | nil => cases h : d.counter == 0 <;> exact Iff.rfl
  | cons t ts ih =>
    rw [Serves, servesTurn_one_iff hs]
    cases t with
    | pause w =>
      obtain ⟨hs', hm, hr, hc'⟩ := after_one (t := .pause w) hs (.inr rfl)
      have hrest := ih hs' (.inl hc')
      rw [hm, hr, hc'] at hrest
      rw [hrest]
      rcases hc with h | h
      · rw [h]
        exact iff_of_false (fun h' => h'.1 rfl) id
      · rw [h]
        exact and_iff_right Nat.one_ne_zero
    | read w =>
      rcases hc with h | h
      · obtain ⟨hs', hm, hr, hc'⟩ := after_one (t := .read w) hs (.inl h)
        have hrest := ih hs' (.inr hc')
        rw [hm, hr, hc'] at hrest
        rw [hrest, h]
        exact and_congr_left' (and_iff_right rfl)
      · rw [h]
        exact iff_of_false (fun h' => absurd h'.1.1 (by decide)) id
    | write w =>
      have hno : ¬ Spaced d.dataReg d.memory (d.counter == 0) (.write w :: ts) := by
        cases d.counter == 0 <;> exact id
      exact iff_of_false (fun h => h.1) hno

/-- When a sequence of requests is served. -/
def Works (memLatency : Nat) (d : DataMem) (ts : List Turn) : Prop :=
  3 ≤ memLatency ∨ memLatency = 2 ∧ SameReads d.dataReg d.memory ts ∨
    memLatency = 1 ∧ Spaced d.dataReg d.memory true ts

/-- **The handshake.** Latencies from 3 on serve every sequence of held requests. Latency 2 serves those whose reads
all find the value that is in the data register already, latency 1 those of such reads with single cycles between
them. -/
theorem serves_iff_works (hL : 1 ≤ memLatency) (hd : Idle d) (ts : List Turn) :
    Serves memLatency d ts ↔ Works memLatency d ts := by
  obtain rfl | rfl | h3 : memLatency = 1 ∨ memLatency = 2 ∨ 3 ≤ memLatency := by omega
  · rw [serves_one_iff hd.1 (.inl hd.2) ts, hd.2, Works]
    simp
  · rw [serves_two_iff hd ts, Works]
    simp
  · exact iff_of_true (serves_of_three_le hd h3 ts) (.inl h3)

end

/-- A write of a word and the read of it, with the default latency. -/
theorem serves_iff_works_default :
    Serves 5 { memory := fun _ => 0 }
        [.write ⟨false, true, Length.Word, 0, 8, 7⟩, .read ⟨true, false, Length.Word, 8, 0, 0⟩] ↔
      Works 5 { memory := fun _ => 0 }
        [.write ⟨false, true, Length.Word, 0, 8, 7⟩, .read ⟨true, false, Length.Word, 8, 0, 0⟩] :=
  serves_iff_works (by decide) ⟨rfl, rfl⟩ _

/-- With latency 2 the first `LW` after reset returns the reset value of the data register. -/
theorem not_serves_two : ¬ Serves 2 { memory := fun _ => 1 } [.read ⟨true, false, Length.Word, 0, 0, 0⟩] := by
  rintro ⟨⟨-, -, -, h⟩, -⟩
  exact absurd h (by decide)

end SocModel.Chisel.Handshake
