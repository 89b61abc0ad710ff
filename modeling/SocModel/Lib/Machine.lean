import Mathlib.Tactic.Common

/-!
# Runs of a machine whose steps can fault

A machine is a function `step : σ → α → Outcome ε σ`: an action is `blocked` when it is not enabled,
ends in a `fault` (undefined behaviour, a failed assertion), or leads to the `next` state. Whatever the
environment decides (timing, acceptance of a packet, a response) is part of the action, so a property of
every run is a property of every list of actions.

* `run` : the outcome of a list of actions, `Reaches` : the run ends in a state;
* `Along C` : every step the run takes starts in a state, and is an action, that `C` allows;
* `Always P` : every state of the run satisfies `P` and the run ends in no fault that `bad` counts;
* `Reaches.inv`, `Always.of_inv` : the invariant rule, `always_iff_along` : the exact form of it;
* `along_congr` : conditions that an invariant makes equal;
* `exists_reaches_of_rank` : the ranking rule, `exists_reaches_le_rank` : with a bound on the steps.
-/

namespace SocModel.Lib

universe u v w

/-- What one step of a machine comes to. -/
inductive Outcome (ε : Type u) (σ : Type v) where
  | blocked
  | fault (e : ε)
  | next (s : σ)
  deriving DecidableEq, Repr

namespace Outcome

variable {ε : Type u} {σ τ : Type v}

def bind (o : Outcome ε σ) (f : σ → Outcome ε τ) : Outcome ε τ :=
  match o with
  | blocked => blocked
  | fault e => fault e
  | next s => f s

@[simp] theorem bind_blocked (f : σ → Outcome ε τ) : (blocked : Outcome ε σ).bind f = blocked := rfl

@[simp] theorem bind_fault (e : ε) (f : σ → Outcome ε τ) : (fault e : Outcome ε σ).bind f = fault e := rfl

@[simp] theorem bind_next (s : σ) (f : σ → Outcome ε τ) : (next s : Outcome ε σ).bind f = f s := rfl

theorem bind_eq_next {o : Outcome ε σ} {f : σ → Outcome ε τ} {t : τ} :
    o.bind f = next t ↔ ∃ s, o = next s ∧ f s = next t := by
  cases o <;> simp

/-- What comes after a step adds no fault. -/
theorem bind_ne_fault {o : Outcome ε σ} {f : σ → τ} {e : ε} (h : o ≠ fault e) : (o.bind fun s => next (f s)) ≠ fault e := by
  cases o with
  | fault e' => simpa using h
  | _ => simp

/-- The outcome of a computation that can only fault. -/
def ofExcept : Except ε σ → Outcome ε σ
  | .ok s => next s
  | .error e => fault e

@[simp] theorem ofExcept_ok (s : σ) : ofExcept (.ok s : Except ε σ) = next s := rfl

@[simp] theorem ofExcept_error (e : ε) : ofExcept (.error e : Except ε σ) = fault e := rfl

theorem ofExcept_eq_next {x : Except ε σ} {s : σ} : ofExcept x = next s ↔ x = .ok s := by
  cases x <;> simp

/-- The outcome is a state that satisfies `P`. -/
def holds (P : σ → Bool) : Outcome ε σ → Bool
  | next s => P s
  | _ => false

theorem exists_of_holds {P : σ → Bool} {o : Outcome ε σ} (h : o.holds P = true) : ∃ s, o = next s ∧ P s = true := by
  rcases o with _ | e | s
  · cases h
  · cases h
  · exact ⟨s, rfl, h⟩

end Outcome

section Runs

variable {ε : Type u} {σ : Type v} {α : Type w} (step : σ → α → Outcome ε σ)

/-- The outcome of a list of actions; the run stops at the first one that is not enabled or faults. -/
def run : σ → List α → Outcome ε σ
  | s, [] => .next s
  | s, a :: as => (step s a).bind fun t => run t as

@[simp] theorem run_nil (s : σ) : run step s [] = .next s := rfl

theorem run_cons (s : σ) (a : α) (as : List α) :
    run step s (a :: as) = (step s a).bind fun t => run step t as := rfl

theorem run_append (s : σ) (as bs : List α) :
    run step s (as ++ bs) = (run step s as).bind fun t => run step t bs := by
  induction as generalizing s with
  | nil => rfl
  | cons a as ih =>
    rw [List.cons_append, run_cons, run_cons]
    cases h : step s a with
    | blocked => rfl
    | fault e => rfl
    | next t => exact ih t

/-- The run of `as` from `s` ends in the state `t`. -/
def Reaches (s : σ) (as : List α) (t : σ) : Prop := run step s as = .next t

variable {step}

theorem Reaches.refl (s : σ) : Reaches step s [] s := rfl

theorem reaches_nil {s t : σ} : Reaches step s [] t ↔ s = t := by
  simp [Reaches]

theorem reaches_cons {s t : σ} {a : α} {as : List α} :
    Reaches step s (a :: as) t ↔ ∃ m, step s a = .next m ∧ Reaches step m as t :=
  Outcome.bind_eq_next

theorem Reaches.single {s t : σ} {a : α} (h : step s a = .next t) : Reaches step s [a] t :=
  reaches_cons.mpr ⟨t, h, rfl⟩

theorem Reaches.trans {s m t : σ} {as bs : List α} (h : Reaches step s as m) (h' : Reaches step m bs t) :
    Reaches step s (as ++ bs) t := by
  rw [Reaches, run_append, h]
  exact h'

/-- Every step the run takes starts in a state, and is an action, that `C` allows. -/
def Along (step : σ → α → Outcome ε σ) (C : σ → α → Prop) : σ → List α → Prop
  | _, [] => True
  | s, a :: as =>
    match step s a with
    | .blocked => True
    | .fault _ => C s a
    | .next t => C s a ∧ Along step C t as

/-- Every state of the run satisfies `P`, and the run does not end in a fault that `bad` counts. -/
def Always (step : σ → α → Outcome ε σ) (bad : ε → Prop) (P : σ → Prop) : σ → List α → Prop
  | s, [] => P s
  | s, a :: as =>
    P s ∧
      match step s a with
      | .blocked => True
      | .fault e => ¬ bad e
      | .next t => Always step bad P t as

theorem along_cons_next {C : σ → α → Prop} {s t : σ} {a : α} {as : List α} (h : step s a = .next t) :
    Along step C s (a :: as) ↔ C s a ∧ Along step C t as := by
  simp [Along, h]

theorem Along.head {C : σ → α → Prop} {s : σ} {a : α} {as : List α} (h : Along step C s (a :: as))
    (hb : step s a ≠ .blocked) : C s a := by
  unfold Along at h
  split at h
  · next hs => exact absurd hs hb
  · exact h
  · exact h.1

theorem Along.left {C : σ → α → Prop} {s : σ} {as bs : List α} (h : Along step C s (as ++ bs)) : Along step C s as := by
  induction as generalizing s with
  | nil => trivial
  | cons a as ih =>
    rw [List.cons_append] at h
    unfold Along at h ⊢
    cases hs : step s a with
    | blocked => trivial
    | fault e =>
      rw [hs] at h
      exact h
    | next t =>
      rw [hs] at h
      exact ⟨h.1, ih h.2⟩

instance decidableAlong (step : σ → α → Outcome ε σ) (C : σ → α → Prop) [∀ s a, Decidable (C s a)] :
    (s : σ) → (as : List α) → Decidable (Along step C s as)
  | _, [] => isTrue trivial
  | s, a :: as =>
    match h : step s a with
    | .blocked => isTrue (by simp [Along, h])
    | .fault _ => decidable_of_iff (C s a) (by simp [Along, h])
    | .next t =>
      have := decidableAlong step C t as
      decidable_of_iff (C s a ∧ Along step C t as) (by simp [Along, h])

theorem Along.of_mem {C : σ → α → Prop} {as : List α} (h : ∀ a ∈ as, ∀ s, C s a) (s : σ) :
    Along step C s as := by
  induction as generalizing s with
  | nil => trivial
  | cons a as ih =>
    have ha := h a List.mem_cons_self s
    unfold Along
    split
    · trivial
    · exact ha
    · exact ⟨ha, ih (fun b hb => h b (List.mem_cons_of_mem a hb)) _⟩

theorem Along.of_forall {C : σ → α → Prop} (h : ∀ s a, C s a) (s : σ) (as : List α) :
    Along step C s as :=
  Along.of_mem (fun a _ s => h s a) s

/-- Along a run that keeps `I`, two conditions that `I` makes equal are the same. -/
theorem along_congr {C D : σ → α → Prop} {I : σ → Prop} (hstep : ∀ s a t, I s → step s a = .next t → I t)
    (h : ∀ s a, I s → (C s a ↔ D s a)) {s : σ} (as : List α) (hs : I s) : Along step C s as ↔ Along step D s as := by
  induction as generalizing s with
  | nil => exact Iff.rfl
  | cons a as ih =>
    unfold Along
    cases ht : step s a with
    | blocked => exact Iff.rfl
    | fault e => exact h s a hs
    | next t => exact and_congr (h s a hs) (ih (hstep s a t hs ht))

theorem Always.head {bad : ε → Prop} {P : σ → Prop} {s : σ} {as : List α}
    (h : Always step bad P s as) : P s := by
  cases as with
  | nil => exact h
  | cons a as => exact h.1

theorem Always.last {bad : ε → Prop} {P : σ → Prop} {s t : σ} {as : List α}
    (h : Always step bad P s as) (hr : Reaches step s as t) : P t := by
  induction as generalizing s with
  | nil => exact reaches_nil.mp hr ▸ h
  | cons a as ih =>
    obtain ⟨m, hm, hr⟩ := reaches_cons.mp hr
    have h' := h.2
    rw [hm] at h'
    exact ih h' hr

/-- **The invariant rule.** What every allowed step preserves holds at the end of every allowed run. -/
theorem Reaches.inv {C : σ → α → Prop} {I : σ → Prop}
    (hstep : ∀ s a t, I s → C s a → step s a = .next t → I t) {s t : σ} {as : List α}
    (hr : Reaches step s as t) (hc : Along step C s as) (hs : I s) : I t := by
  induction as generalizing s with
  | nil => exact reaches_nil.mp hr ▸ hs
  | cons a as ih =>
    obtain ⟨m, hm, hr⟩ := reaches_cons.mp hr
    rw [along_cons_next hm] at hc
    exact ih hr hc.2 (hstep s a m hs hc.1 hm)

/-- The invariant rule for runs without restriction. -/
theorem Reaches.inv' {I : σ → Prop} (hstep : ∀ s a t, I s → step s a = .next t → I t) {s t : σ}
    {as : List α} (hr : Reaches step s as t) (hs : I s) : I t :=
  hr.inv (C := fun _ _ => True) (fun s a t hs _ h => hstep s a t hs h)
    (Along.of_forall (fun _ _ => trivial) s as) hs

/-- The invariant rule for all states of a run. -/
theorem Always.of_inv {bad : ε → Prop} {P I : σ → Prop} {C : σ → α → Prop} (hP : ∀ s, I s → P s)
    (hstep : ∀ s a t, I s → C s a → step s a = .next t → I t)
    (hfault : ∀ s a e, I s → C s a → step s a = .fault e → ¬ bad e) {s : σ} {as : List α} (hs : I s)
    (hc : Along step C s as) : Always step bad P s as := by
  induction as generalizing s with
  | nil => exact hP s hs
  | cons a as ih =>
    unfold Always
    unfold Along at hc
    refine ⟨hP s hs, ?_⟩
    cases h : step s a with
    | blocked => trivial
    | fault e => exact hfault s a e hs (by simpa [h] using hc) h
    | next t =>
      rw [h] at hc
      exact ih (hstep s a t hs hc.1 h) hc.2

/-- **The exact invariant rule.** If the allowed steps preserve `I` and every other step breaks `P` (or
faults badly) at once, the runs that keep `P` are exactly the runs whose steps are all allowed. -/
theorem always_iff_along {bad : ε → Prop} {P I : σ → Prop} {C : σ → α → Prop} (hP : ∀ s, I s → P s)
    (hstep : ∀ s a t, I s → C s a → step s a = .next t → I t)
    (hfault : ∀ s a e, I s → step s a = .fault e → (C s a ↔ ¬ bad e))
    (hbreak : ∀ s a t, I s → ¬ C s a → step s a = .next t → ¬ P t) {s : σ} (as : List α) (hs : I s) :
    Always step bad P s as ↔ Along step C s as := by
  induction as generalizing s with
  | nil => exact ⟨fun _ => trivial, fun _ => hP s hs⟩
  | cons a as ih =>
    unfold Always Along
    cases h : step s a with
    | blocked => simp [hP s hs]
    | fault e => simp [hP s hs, hfault s a e hs h]
    | next t =>
      simp only [hP s hs, true_and]
      by_cases hc : C s a
      · simp only [hc, true_and]
        exact ih (hstep s a t hs hc h)
      · simp only [hc, false_and, iff_false]
        exact fun ha => hbreak s a t hs hc h ha.head

/-- **The ranking rule.** If every state of `I` is in `D` or has a step within `I` that lowers its rank, then `D` can be
reached from every state of `I`. -/
theorem exists_reaches_of_rank {μ : Type*} {r : μ → μ → Prop} (hr : WellFounded r) (rank : σ → μ) {I D : σ → Prop}
    (h : ∀ s, I s → D s ∨ ∃ a t, step s a = .next t ∧ I t ∧ r (rank t) (rank s)) {s : σ} (hs : I s) :
    ∃ as t, Reaches step s as t ∧ D t := by
  generalize hm : rank s = m
  induction m using hr.induction generalizing s with
  | h m ih =>
    rcases h s hs with hd | ⟨a, t, hst, hi, hlt⟩
    · exact ⟨[], s, rfl, hd⟩
    · obtain ⟨as, u, hu, hd⟩ := ih (rank t) (hm ▸ hlt) hi rfl
      exact ⟨a :: as, u, reaches_cons.mpr ⟨t, hst, hu⟩, hd⟩

/-- With a number for a rank, the rank bounds the steps. -/
theorem exists_reaches_le_rank (rank : σ → Nat) {C : σ → α → Prop} {I D : σ → Prop}
    (h : ∀ s, I s → D s ∨ ∃ a t, C s a ∧ step s a = .next t ∧ I t ∧ rank t < rank s) {s : σ} (hs : I s) :
    ∃ as t, Reaches step s as t ∧ Along step C s as ∧ as.length ≤ rank s ∧ I t ∧ D t := by
  generalize hm : rank s = m
  induction m using Nat.strongRecOn generalizing s with
  | ind m ih =>
    rcases h s hs with hd | ⟨a, t, hc, hst, hi, hlt⟩
    · exact ⟨[], s, rfl, trivial, Nat.zero_le m, hs, hd⟩
    · obtain ⟨as, u, hu, hall, hle, hi, hd⟩ := ih (rank t) (hm ▸ hlt) hi rfl
      refine ⟨a :: as, u, reaches_cons.mpr ⟨t, hst, hu⟩, (along_cons_next hst).mpr ⟨hc, hall⟩, ?_, hi, hd⟩
      rw [List.length_cons]
      omega

end Runs

end SocModel.Lib
