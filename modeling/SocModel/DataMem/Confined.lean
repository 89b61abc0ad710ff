import SocModel.DataMem.Order

/-!
# Writes that agree

Beats of which every write stores, at each of its bytes, what one store `v` has there. In whatever order they are served,
the bytes they access become those of `v` and all others stay, and a read apart from them returns what was there at first.

* `Req.Agrees`, `written` : such a request, and the bytes that beats write;
* `confined_of_execAll` : the memory after them, `memRead_of_execAll` : what a read returned.
-/

namespace SocModel.DataMem

open Lib Bus

/-- What the request stores is what `v` has there. -/
def Req.Agrees (v : Store) : Req → Prop
  | .read _ => True
  | .write p => ∀ x ∈ range p.addr.toNat p.op.writeWidth, ∀ m : Store,
      store m p.addr.toNat p.op.writeWidth p.data.toNat x = v x

/-- The bytes that the writes among the beats access. -/
def written (bs : List Beat) : Set Nat := {x | ∃ b ∈ bs, b.req.isWrite = true ∧ x ∈ b.req.bytes}

/-- `m'` is `m` with the bytes in `W` those of `v`. -/
structure Confined (v : Store) (W : Set Nat) (m m' : BaseMemory) : Prop where
  size : m'.size = m.size
  frame : Frame m.mem m'.mem W
  value : ∀ x ∈ W, m'.mem x = v x

section

variable {v : Store} {W W' : Set Nat} {m m' m'' : BaseMemory}

theorem Confined.refl (v : Store) (m : BaseMemory) : Confined v ∅ m m :=
  ⟨rfl, Frame.refl _ _, fun _ hx => hx.elim⟩

theorem Confined.trans (h : Confined v W m m') (h' : Confined v W' m' m'') : Confined v (W ∪ W') m m'' where
  size := h'.size.trans h.size
  frame := (h.frame.mono Set.subset_union_left).trans (h'.frame.mono Set.subset_union_right)
  value x hx := by
    by_cases hx' : x ∈ W'
    · exact h'.value x hx'
    · rw [h'.frame x hx']
      exact h.value x (hx.resolve_right hx')

/-- A read apart from the bytes that changed. -/
theorem Confined.memRead (h : Confined v W m m') {op : InstrType} {addr : Word}
    (hd : Disjoint (range addr.toNat op.readWidth) W) : m'.memRead op addr = m.memRead op addr := by
  unfold BaseMemory.memRead BaseMemory.readData
  rw [h.size, h.frame.load hd]

theorem written_nil : written [] = ∅ := by
  ext x
  simp [written]

theorem written_cons (b : Beat) (bs : List Beat) : written (b :: bs) = written [b] ∪ written bs := by
  ext x
  simp [written]

/-- One beat. -/
theorem confined_of_serveBeat {b : Beat} {x : Served} (h : serveBeat b m = .ok (m', x)) (ha : b.req.Agrees v) :
    Confined v (written [b]) m m' := by
  rcases hb : b.req with p | p
  · obtain ⟨_, -, rfl, -⟩ := (serveBeat_read hb).mp h
    have hnil : written [b] = ∅ := by
      ext x
      simp [written, hb, Req.isWrite]
    exact hnil ▸ Confined.refl v m'
  · obtain ⟨hw, -⟩ := (serveBeat_write hb).mp h
    have hset : written [b] = range p.addr.toNat p.op.writeWidth := by
      ext x
      simp [written, hb, Req.isWrite, Req.bytes]
    obtain ⟨hsize, hframe⟩ := BaseMemory.memWrite_frame hw
    rw [hset]
    refine ⟨hsize, hframe, fun x hx => ?_⟩
    rw [hb] at ha
    rw [(BaseMemory.memWrite_eq_ok.mp hw).2]
    exact ha x hx m.mem

/-- The memory after the beats. -/
theorem confined_of_execAll {bs : List Beat} {log : List Served} (h : execAll serveBeat bs m = .ok (m', log))
    (ha : ∀ b ∈ bs, b.req.Agrees v) : Confined v (written bs) m m' := by
  induction bs generalizing m log with
  | nil =>
    cases h
    exact written_nil ▸ Confined.refl v _
  | cons b bs ih =>
    obtain ⟨m₁, _, log', h1, h2, -⟩ := execAll_cons.mp h
    rw [written_cons]
    exact (confined_of_serveBeat h1 (ha b List.mem_cons_self)).trans (ih h2 fun c hc => ha c (List.mem_cons_of_mem b hc))

/-- What a read apart from the bytes written returned is what the memory held at first. -/
theorem memRead_of_execAll {bs : List Beat} {log : List Served} (h : execAll serveBeat bs m = .ok (m', log))
    (ha : ∀ b ∈ bs, b.req.Agrees v) {x : Served} (hx : x ∈ log) {p : ReadReq} (hp : x.beat.req = .read p)
    (hd : Disjoint (range p.addr.toNat p.op.readWidth) (written bs)) :
    ∃ w, m.memRead p.op p.addr = .ok w ∧ x.data = some w := by
  induction bs generalizing m log with
  | nil =>
    cases h
    cases hx
  | cons b bs ih =>
    obtain ⟨m₁, y, log', h1, h2, rfl⟩ := execAll_cons.mp h
    rw [written_cons, Set.disjoint_union_right] at hd
    rcases List.mem_cons.mp hx with rfl | hx
    · have hb : x.beat = b := by
        rcases hb : b.req with q | q
        · obtain ⟨_, -, -, rfl⟩ := (serveBeat_read hb).mp h1
          rfl
        · obtain ⟨-, rfl⟩ := (serveBeat_write hb).mp h1
          rfl
      obtain ⟨w, hw, -, rfl⟩ := (serveBeat_read (hb ▸ hp)).mp h1
      exact ⟨w, hw, rfl⟩
    · rw [← (confined_of_serveBeat h1 (ha b List.mem_cons_self)).memRead hd.1]
      exact ih h2 (fun c hc => ha c (List.mem_cons_of_mem b hc)) hx hd.2

end

/-- A beat whose access succeeds is served. -/
theorem process_of_serveBeat (port : Port) {b : Beat} {s : State} {m : BaseMemory} {x : Served}
    (h : serveBeat b s.base = .ok (m, x)) : ∃ t, process port (.beat b) s = .ok t := by
  unfold process
  rcases hb : b.req with p | p
  · obtain ⟨v, hv, -, -⟩ := (serveBeat_read hb).mp h
    simp only [hb, memReadReqHandler, hv]
    exact ⟨_, rfl⟩
  · obtain ⟨hw, -⟩ := (serveBeat_write hb).mp h
    simp only [hb, memWriteReqHandler, hw]
    exact ⟨_, rfl⟩

end SocModel.DataMem
