import Mathlib.Control.Basic
import Mathlib.Tactic.Common

/-!
# Fallible computations with a log

A `Logged` computation ends in a value or an error and keeps the entries it logged before. Erasing the log leaves an
`Except` computation; a property of the log follows the syntax of the computation.

* `calls`, `result` : the log and what is left without it;
* `Logs P m` : every entry of the log satisfies `P`, with one equivalence for each way to build a computation;
* `logs_foldlM` : the log of a loop is that of the steps behind accepted ones.
-/

namespace SocModel.Lib

universe u v w

/-- The entries logged, and the value or the error. -/
def Logged (κ : Type u) (ε : Type v) (α : Type w) := List κ × Except ε α

namespace Logged

variable {κ : Type u} {ε : Type v} {α β : Type w}

def calls (m : Logged κ ε α) : List κ := m.1

def result (m : Logged κ ε α) : Except ε α := m.2

instance : Monad (Logged κ ε) where
  pure a := ([], .ok a)
  bind m f :=
    match m with
    | (cs, .ok a) => (cs ++ (f a).1, (f a).2)
    | (cs, .error e) => (cs, .error e)

def lift (x : Except ε α) : Logged κ ε α := ([], x)

def log (cs : List κ) : Logged κ ε Unit := (cs, .ok ())

/-! ## Without the log -/

@[simp] theorem result_pure (a : α) : (pure a : Logged κ ε α).result = .ok a := rfl

@[simp] theorem result_lift (x : Except ε α) : (lift x : Logged κ ε α).result = x := rfl

@[simp] theorem result_log (cs : List κ) : (log cs : Logged κ ε Unit).result = .ok () := rfl

@[simp] theorem result_bind (m : Logged κ ε α) (f : α → Logged κ ε β) :
    (m >>= f).result = m.result >>= fun a => (f a).result := by
  rcases m with ⟨cs, e | a⟩ <;> rfl

theorem result_ite {c : Prop} [Decidable c] (m m' : Logged κ ε α) :
    (if c then m else m').result = if c then m.result else m'.result := by
  split <;> rfl

theorem result_foldlM {γ : Type*} (f : α → γ → Logged κ ε α) (xs : List γ) (a : α) :
    (xs.foldlM f a).result = xs.foldlM (fun a x => (f a x).result) a := by
  induction xs generalizing a with
  | nil => rfl
  | cons x xs ih =>
    rw [List.foldlM_cons, List.foldlM_cons, result_bind]
    congr 1
    funext b
    exact ih b

/-! ## The log -/

/-- Every entry satisfies `P`. -/
def Logs (P : κ → Prop) (m : Logged κ ε α) : Prop := ∀ c ∈ m.calls, P c

variable {P : κ → Prop}

@[simp] theorem logs_pure (a : α) : Logs P (pure a : Logged κ ε α) ↔ True :=
  iff_of_true (fun _ h => absurd h List.not_mem_nil) trivial

@[simp] theorem logs_lift (x : Except ε α) : Logs P (lift x : Logged κ ε α) ↔ True :=
  iff_of_true (fun _ h => absurd h List.not_mem_nil) trivial

@[simp] theorem logs_log (cs : List κ) : Logs P (log cs : Logged κ ε Unit) ↔ ∀ c ∈ cs, P c := Iff.rfl

theorem logs_bind (m : Logged κ ε α) (f : α → Logged κ ε β) :
    Logs P (m >>= f) ↔ Logs P m ∧ ∀ a, m.result = .ok a → Logs P (f a) := by
  rcases m with ⟨cs, e | a⟩
  · exact ⟨fun h => ⟨h, fun _ ha => by cases ha⟩, fun h => h.1⟩
  · change (∀ c ∈ cs ++ (f a).calls, P c) ↔ _
    rw [List.forall_mem_append]
    refine and_congr_right fun _ => ⟨fun h b hb => ?_, fun h => h a rfl⟩
    cases hb
    exact h

/-- What a computation logs first. -/
theorem calls_bind (m : Logged κ ε α) (f : α → Logged κ ε β) : m.calls <+: (m >>= f).calls := by
  rcases m with ⟨cs, e | a⟩
  · exact List.prefix_refl cs
  · exact List.prefix_append cs _

/-- **A loop** logs what its steps log behind steps that succeed. -/
theorem logs_foldlM {γ : Type*} (f : α → γ → Logged κ ε α) (xs : List γ) (a : α) :
    Logs P (xs.foldlM f a) ↔ ∀ ys x zs b, xs = ys ++ x :: zs →
      ys.foldlM (fun a x => (f a x).result) a = .ok b → Logs P (f b x) := by
  induction xs generalizing a with
  | nil =>
    refine iff_of_true (by simp [List.foldlM_nil]) fun ys x zs b h _ => ?_
    exact absurd h.symm (List.append_ne_nil_of_right_ne_nil ys (List.cons_ne_nil x zs))
  | cons x xs ih =>
    rw [List.foldlM_cons, logs_bind]
    constructor
    · rintro ⟨hx, hxs⟩ ys y zs b h hys
      cases ys with
      | nil =>
        obtain ⟨rfl, rfl⟩ := List.cons.inj h
        obtain rfl : a = b := Except.ok.inj hys
        exact hx
      | cons z ys =>
        obtain ⟨rfl, rfl⟩ := List.cons.inj h
        rw [List.foldlM_cons] at hys
        cases hz : (f a x).result with
        | error e =>
          rw [hz] at hys
          cases hys
        | ok t =>
          rw [hz] at hys
          exact (ih t).mp (hxs t hz) ys y zs b rfl hys
    · intro h
      refine ⟨h [] x xs a rfl rfl, fun t ht => (ih t).mpr fun ys y zs b hxs hys => ?_⟩
      refine h (x :: ys) y zs b (by rw [hxs]; rfl) ?_
      rw [List.foldlM_cons, ht]
      exact hys

end Logged

end SocModel.Lib
