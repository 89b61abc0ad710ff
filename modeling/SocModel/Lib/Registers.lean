import SocModel.Lib.Machine

/-!
# Registers that a run writes

A bank of registers is a value `B` with an operation `put` for the write of `V` to the register `ρ`. A machine holds
a bank; an action writes one register of it, `write? s a`, or none.

* `lastWrite` : the value of the last write to a register along a run;
* `Sets` : the registers that set a field of the bank, and to what;
* `field_lastWrite` : a field holds what the last write to one of its registers made it;
* `field_eq_of_lastWrite` : its value when the last writes agree on it.
-/

namespace SocModel.Lib

universe u v w

section

variable {ρ V B β : Type*} {put : B → ρ → V → B} {field : B → β} {sets : ρ → Option (V → β)}

/-- The registers in the domain of `sets` set the field, and no other does. -/
def Sets (put : B → ρ → V → B) (field : B → β) (sets : ρ → Option (V → β)) : Prop :=
  ∀ b r v, field (put b r v) = ((sets r).map fun g => g v).getD (field b)

theorem Sets.put_none (h : Sets put field sets) {r : ρ} (hr : sets r = none) (b : B) (v : V) :
    field (put b r v) = field b := by
  rw [h, hr]
  rfl

theorem Sets.put_some (h : Sets put field sets) {r : ρ} {g : V → β} (hr : sets r = some g) (b : B) (v : V) :
    field (put b r v) = g v := by
  rw [h, hr]
  rfl

end

section

variable {ε : Type u} {σ : Type v} {α : Type w} {ρ V B β : Type*} [DecidableEq ρ]

/-- The value that a write gives to the register `r`. -/
def written (r : ρ) (w : Option (ρ × V)) : Option V := w.bind fun p => if p.1 = r then some p.2 else none

variable (step : σ → α → Outcome ε σ) (write? : σ → α → Option (ρ × V))

/-- The value of the last write to `r` along the run. -/
def lastWrite (r : ρ) : σ → List α → Option V
  | _, [] => none
  | s, a :: as =>
    match step s a with
    | .next t => (lastWrite r t as).or (written r (write? s a))
    | _ => none

variable {step write?} {put : B → ρ → V → B} {field : B → β} {sets : ρ → Option (V → β)}

theorem lastWrite_cons_next {r : ρ} {s t : σ} {a : α} (h : step s a = .next t) (as : List α) :
    lastWrite step write? r s (a :: as) = (lastWrite step write? r t as).or (written r (write? s a)) := by
  rw [lastWrite, h]

variable {C : σ → α → Prop} {bank : σ → B}
  (hstep : ∀ s a t, C s a → step s a = .next t → bank t = (write? s a).elim (bank s) fun w => put (bank s) w.1 w.2)

include hstep

/-- **The last write.** A field holds what the last write to one of its registers made it, or it never changed. -/
theorem field_lastWrite (hf : Sets put field sets) {s t : σ} {as : List α} (hr : Reaches step s as t)
    (hc : Along step C s as) :
    (∃ r g v, sets r = some g ∧ lastWrite step write? r s as = some v ∧ field (bank t) = g v) ∨
      (∀ r, sets r ≠ none → lastWrite step write? r s as = none) ∧ field (bank t) = field (bank s) := by
  induction as generalizing s with
  | nil => exact .inr ⟨fun _ _ => rfl, reaches_nil.mp hr ▸ rfl⟩
  | cons a as ih =>
    obtain ⟨m, hm, hr⟩ := reaches_cons.mp hr
    rw [along_cons_next hm] at hc
    have hbank := hstep s a m hc.1 hm
    rcases ih hr hc.2 with ⟨r, g, v, hg, hv, hft⟩ | ⟨hnone, hft⟩
    · exact .inl ⟨r, g, v, hg, by rw [lastWrite_cons_next hm, hv]; rfl, hft⟩
    · -- no later write: the step itself decides
      cases hw : write? s a with
      | none =>
        rw [hw] at hbank
        refine .inr ⟨fun r hr => ?_, hft.trans (congrArg field hbank)⟩
        rw [lastWrite_cons_next hm, hnone r hr, hw]
        rfl
      | some w =>
        rw [hw] at hbank
        cases hs : sets w.1 with
        | none =>
          refine .inr ⟨fun r hr => ?_, ?_⟩
          · have hne : w.1 ≠ r := by
              rintro rfl
              exact hr hs
            rw [lastWrite_cons_next hm, hnone r hr, hw, written, Option.bind_some, if_neg hne]
            rfl
          · rw [hft, hbank]
            exact hf.put_none hs _ _
        | some g =>
          refine .inl ⟨w.1, g, w.2, hs, ?_, ?_⟩
          · rw [lastWrite_cons_next hm, hnone w.1 (by simp [hs]), hw, written, Option.bind_some, if_pos rfl]
            rfl
          · rw [hft, hbank]
            exact hf.put_some hs _ _

/-- A field that was written, and of which the last writes to its registers say the same. -/
theorem field_eq_of_lastWrite (hf : Sets put field sets) {s t : σ} {as : List α} (hr : Reaches step s as t)
    (hc : Along step C s as) {r : ρ} {v : V} (hs : sets r ≠ none) (hw : lastWrite step write? r s as = some v) {x : β}
    (hall : ∀ r g v, sets r = some g → lastWrite step write? r s as = some v → g v = x) : field (bank t) = x := by
  rcases field_lastWrite hstep hf hr hc with ⟨r', g, v', hg, hv, hft⟩ | ⟨hnone, -⟩
  · exact hft.trans (hall r' g v' hg hv)
  · rw [hnone r hs] at hw
    cases hw

end

end SocModel.Lib
