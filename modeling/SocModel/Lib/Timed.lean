import SocModel.Lib.Machine

/-!
# When things arrive

A machine with a clock: every step is a tick, and what a quantity of the state grows by in a tick arrives in it.

* `Timed.step` : the machine, `Timed.reaches_state` : its runs are those of the machine without the clock;
* `Timed.length_arrivals` : as many arrivals as the quantity counts;
* `SameGaps` : two records of arrivals with the same time between neighbours, `sameGaps_of_range'`.
-/

namespace SocModel.Lib

universe u v w

/-- A state, the ticks so far, and for everything that arrived the tick in which it did. -/
structure Timed (σ : Type v) where
  state : σ
  now : Nat := 0
  arrivals : List Nat := []

namespace Timed

variable {ε : Type u} {σ : Type v} {α : Type w}

def step (count : σ → Nat) (step : σ → α → Outcome ε σ) (t : Timed σ) (a : α) : Outcome ε (Timed σ) :=
  (step t.state a).bind fun s =>
    .next ⟨s, t.now + 1, t.arrivals ++ List.replicate (count s - count t.state) t.now⟩

variable {count : σ → Nat} {step : σ → α → Outcome ε σ}

theorem step_eq_next {t u : Timed σ} {a : α} (h : Timed.step count step t a = .next u) :
    step t.state a = .next u.state ∧ u.now = t.now + 1 ∧
      u.arrivals = t.arrivals ++ List.replicate (count u.state - count t.state) t.now := by
  obtain ⟨s, hs, h⟩ := Outcome.bind_eq_next.mp h
  obtain rfl := Outcome.next.inj h
  exact ⟨hs, rfl, rfl⟩

theorem reaches_state {t u : Timed σ} {as : List α} (h : Reaches (Timed.step count step) t as u) :
    Reaches step t.state as u.state := by
  induction as generalizing t with
  | nil => exact reaches_nil.mpr (congrArg state (reaches_nil.mp h))
  | cons a as ih =>
    obtain ⟨m, hm, h⟩ := reaches_cons.mp h
    exact reaches_cons.mpr ⟨m.state, (step_eq_next hm).1, ih h⟩

/-- Of a quantity that starts at zero and never falls nothing arrives unrecorded. -/
theorem length_arrivals {s : σ} {u : Timed σ} {as : List α}
    (hmono : ∀ s a t, step s a = .next t → count s ≤ count t) (h0 : count s = 0)
    (h : Reaches (Timed.step count step) ⟨s, 0, []⟩ as u) : u.arrivals.length = count u.state := by
  refine h.inv' (I := fun u => u.arrivals.length = count u.state) ?_ h0.symm
  intro t a u ht hs
  obtain ⟨hs, -, ha⟩ := step_eq_next hs
  have := hmono _ _ _ hs
  rw [ha, List.length_append, List.length_replicate, ht]
  omega

end Timed

/-- As far as both records go, the same time lies between each two neighbours. -/
def SameGaps (xs ys : List Nat) : Prop :=
  ∀ k m m' n n', xs[k]? = some m → xs[k + 1]? = some m' → ys[k]? = some n → ys[k + 1]? = some n' → m' - m = n' - n

/-- Arrivals in every tick from some tick on. -/
theorem getElem?_of_take_range' {xs : List Nat} {a b l k m : Nat} (h : xs.take l = List.range' a b) (hk : k < l)
    (hm : xs[k]? = some m) : m = a + k := by
  rw [← List.getElem?_take_of_lt hk, h] at hm
  obtain ⟨hlt, rfl⟩ := List.getElem?_eq_some_iff.mp hm
  rw [List.getElem_range', Nat.one_mul]

theorem sameGaps_of_range' {xs ys : List Nat} {a b c d l : Nat} (hx : xs = List.range' a b) (hl : b ≤ l)
    (hy : ys.take l = List.range' c d) : SameGaps xs ys := by
  intro k m m' n n' hm hm' hn hn'
  have hk : k + 1 < l := by
    obtain ⟨hlt, -⟩ := List.getElem?_eq_some_iff.mp hm'
    rw [hx, List.length_range'] at hlt
    omega
  have hxs : xs.take l = List.range' a b := by
    rw [List.take_of_length_le (by rw [hx, List.length_range']; omega), hx]
  rw [getElem?_of_take_range' hxs (by omega) hm, getElem?_of_take_range' hxs hk hm',
    getElem?_of_take_range' hy (by omega) hn, getElem?_of_take_range' hy hk hn']
  omega

end SocModel.Lib
