import Mathlib.Data.List.Nodup
import Mathlib.Data.List.Range
import Mathlib.Logic.Function.Basic

/-!
# Recycled objects in a line

Objects that hold a value are handed out, wait in a line, and are given back in the order in which they were handed
out; an object that was given back can be handed out again. A pointer names the object and records, in `serial`, which
handing out it is for, so a pointer kept too long can be told from a pointer to the object's next use.

* `Line.issue`, `Line.recycle` : the two operations, `Line.Ok` : the invariant;
* `Line.Ok.retired_prefix_issued` : the values come out once each and in order;
* `Line.Ok.deref_eq` : a pointer not yet recycled shows the value it was made for;
* `window_fresh_iff` : whether a window on the last pointers is fresh depends on its length only.
-/

namespace SocModel.Lib

/-- A pointer to an object, and which handing out of the object it was made at. -/
structure Ptr where
  object : Nat
  serial : Nat
  deriving DecidableEq, Repr

/-- What the object holds now. -/
def Ptr.deref {α : Type*} (heap : Nat → α) (p : Ptr) : α := heap p.object

structure Line (α : Type*) where
  heap : Nat → α
  /-- The objects handed out and not given back. -/
  acquired : List Nat
  inFlight : List Ptr
  recycled : List Ptr
  /-- What the recycled objects held when they were given back. -/
  retired : List α
  /-- The values objects were handed out for. -/
  issued : List α

namespace Line

variable {α : Type*}

def issue (l : Line α) (object : Nat) (a : α) : Line α :=
  { l with heap := Function.update l.heap object a, acquired := l.acquired ++ [object],
           inFlight := l.inFlight ++ [⟨object, l.issued.length⟩], issued := l.issued ++ [a] }

def recycle (l : Line α) : Line α :=
  match l.inFlight with
  | [] => l
  | p :: ps => { l with acquired := l.acquired.erase p.object, inFlight := ps, recycled := l.recycled ++ [p],
                        retired := l.retired ++ [p.deref l.heap] }

/-- Everything handed out is accounted for: given back, or in the line under its own object. -/
structure Ok (l : Line α) : Prop where
  serials : (l.recycled ++ l.inFlight).map (·.serial) = List.range l.issued.length
  acquired : l.acquired = l.inFlight.map (·.object)
  nodup : l.acquired.Nodup
  values : l.retired ++ l.inFlight.map (·.deref l.heap) = l.issued
  length : l.retired.length = l.recycled.length

variable {l : Line α}

theorem ok_empty (heap : Nat → α) : Ok ⟨heap, [], [], [], [], []⟩ :=
  ⟨rfl, rfl, List.nodup_nil, rfl, rfl⟩

theorem Ok.deref_issue (h : l.Ok) {object : Nat} (ho : object ∉ l.acquired) (a : α) :
    l.inFlight.map (·.deref (Function.update l.heap object a)) = l.inFlight.map (·.deref l.heap) := by
  apply List.map_congr_left
  intro p hp
  have hne : p.object ≠ object := by
    rintro rfl
    exact ho (h.acquired ▸ List.mem_map_of_mem hp)
  exact Function.update_of_ne hne _ _

theorem Ok.issue (h : l.Ok) {object : Nat} (ho : object ∉ l.acquired) (a : α) : (l.issue object a).Ok := by
  refine ⟨?_, ?_, ?_, ?_, h.length⟩
  · show (l.recycled ++ (l.inFlight ++ [Ptr.mk object l.issued.length])).map (·.serial) = _
    rw [← List.append_assoc, List.map_append, h.serials]
    simp [Line.issue, List.range_succ]
  · show l.acquired ++ [object] = _
    rw [h.acquired]
    simp [Line.issue]
  · exact List.nodup_append.mpr ⟨h.nodup, List.nodup_singleton _, fun x hx y hy hxy => by simp_all⟩
  · show l.retired ++ (l.inFlight ++ [Ptr.mk object l.issued.length]).map (·.deref (Function.update l.heap object a)) = _
    rw [List.map_append, h.deref_issue ho, ← List.append_assoc, h.values]
    simp [Line.issue, Ptr.deref]

theorem Ok.recycle (h : l.Ok) : l.recycle.Ok := by
  unfold Line.recycle
  split
  · exact h
  · next p ps hp =>
    have hs := h.serials
    have ha := h.acquired
    have hn := h.nodup
    have hv := h.values
    rw [hp] at hs ha hv
    rw [ha] at hn
    refine ⟨?_, ?_, ?_, ?_, ?_⟩
    · rw [← hs]
      simp
    · show l.acquired.erase p.object = _
      rw [ha]
      exact List.erase_cons_head _ _
    · show (l.acquired.erase p.object).Nodup
      rw [ha, List.map_cons, List.erase_cons_head]
      exact (List.nodup_cons.mp hn).2
    · rw [← hv]
      simp
    · simp [h.length]

/-- **In order and once.** -/
theorem Ok.retired_prefix_issued (h : l.Ok) : l.retired <+: l.issued := ⟨_, h.values⟩

theorem Ok.nodup_pointers (h : l.Ok) : (l.recycled ++ l.inFlight).Nodup :=
  List.Nodup.of_map (·.serial) (h.serials ▸ List.nodup_range)

/-- The `k`-th pointer is the one of the `k`-th handing out. -/
theorem Ok.serial_getElem (h : l.Ok) {k : Nat} (hk : k < (l.recycled ++ l.inFlight).length) :
    (l.recycled ++ l.inFlight)[k].serial = k := by
  have := congrArg (·[k]?) h.serials
  have hlen : (l.recycled ++ l.inFlight).length = l.issued.length := by
    simpa using congrArg List.length h.serials
  rw [List.getElem?_map, List.getElem?_eq_getElem hk, List.getElem?_range (hlen ▸ hk)] at this
  exact Option.some.inj this

/-- A pointer that has not been recycled shows the value it was made for. -/
theorem Ok.deref_eq (h : l.Ok) {p : Ptr} (hp : p ∈ l.inFlight) : l.issued[p.serial]? = some (p.deref l.heap) := by
  obtain ⟨k, hk, rfl⟩ := List.mem_iff_getElem.mp hp
  have hlt : l.recycled.length + k < (l.recycled ++ l.inFlight).length := by
    rw [List.length_append]
    omega
  have hs := h.serial_getElem hlt
  rw [List.getElem_append_right (by omega)] at hs
  simp only [Nat.add_sub_cancel_left] at hs
  rw [hs, ← h.values, List.getElem?_append_right (by have := h.length; omega), h.length, Nat.add_sub_cancel_left,
    List.getElem?_map, List.getElem?_eq_getElem hk]
  rfl

end Line

/-- A window on the end of `a ++ b` misses `a` exactly when it is no longer than `b`. -/
theorem window_fresh_iff {α : Type*} {w a b : List α} (hn : (a ++ b).Nodup) (hw : w <:+ a ++ b) :
    (∀ x ∈ w, x ∉ a) ↔ w.length ≤ b.length := by
  constructor
  · intro h
    by_contra hlt
    obtain ⟨c, rfl⟩ := List.suffix_of_suffix_length_le (List.suffix_append a b) hw (by omega)
    have hc : c <:+ a := List.suffix_append_self_iff.mp hw
    have hne : c ≠ [] := by
      rintro rfl
      exact hlt (by simp)
    obtain ⟨x, hx⟩ := List.exists_mem_of_ne_nil c hne
    exact h x (List.mem_append_left b hx) (hc.mem hx)
  · intro hle x hx ha
    have hb : w <:+ b := List.suffix_of_suffix_length_le hw (List.suffix_append a b) hle
    exact (List.nodup_append.mp hn).2.2 x ha x (hb.mem hx) rfl

end SocModel.Lib
