import Mathlib.Data.List.Perm.Basic
import Mathlib.Tactic.Common

/-!
# Reordering operations that commute

`execAll` runs a list of operations that may fail and collects what each returns. Two operations `Commute` when
swapping them changes neither the state they lead to nor what each returns.

* `execAll_perm` : if a list differs from the sorted one in the order of commuting operations only, the two
  lead to the same state, and every operation returns the same.
-/

namespace SocModel.Lib

variable {α β ε σ : Type} (exec : α → σ → Except ε (σ × β))

/-- The state after the operations, and the results in the same order. -/
def execAll : List α → σ → Except ε (σ × List β)
  | [], s => .ok (s, [])
  | a :: as, s =>
    match exec a s with
    | .error e => .error e
    | .ok (s, b) =>
      match execAll as s with
      | .error e => .error e
      | .ok (s, bs) => .ok (s, b :: bs)

/-- The two orders of `a` and `b` succeed together and agree. -/
def Commute (a b : α) : Prop :=
  ∀ s t x y, execAll exec [a, b] s = .ok (t, [x, y]) → execAll exec [b, a] s = .ok (t, [y, x])

variable {exec}

theorem execAll_cons {a : α} {as : List α} {s t : σ} {bs : List β} :
    execAll exec (a :: as) s = .ok (t, bs) ↔
      ∃ m b bs', exec a s = .ok (m, b) ∧ execAll exec as m = .ok (t, bs') ∧ bs = b :: bs' := by
  cases h : exec a s with
  | error e => simp [execAll, h]
  | ok r =>
    obtain ⟨m, b⟩ := r
    cases h' : execAll exec as m with
    | error e =>
      simp only [execAll, h, h', reduceCtorEq, false_iff, not_exists, not_and]
      rintro m' b' bs' hm h2
      cases hm
      rw [h'] at h2
      cases h2
    | ok q =>
      simp only [execAll, h, h', Except.ok.injEq, Prod.mk.injEq]
      constructor
      · rintro ⟨rfl, rfl⟩
        exact ⟨m, b, q.2, ⟨rfl, rfl⟩, h', rfl⟩
      · rintro ⟨m', b', bs', ⟨rfl, rfl⟩, h2, rfl⟩
        rw [h'] at h2
        cases h2
        exact ⟨rfl, rfl⟩

theorem execAll_append {as bs : List α} {s t : σ} {xs : List β} :
    execAll exec (as ++ bs) s = .ok (t, xs) ↔
      ∃ m ys zs, execAll exec as s = .ok (m, ys) ∧ execAll exec bs m = .ok (t, zs) ∧ xs = ys ++ zs := by
  induction as generalizing s xs with
  | nil =>
    constructor
    · intro h
      exact ⟨s, [], xs, rfl, h, rfl⟩
    · rintro ⟨m, ys, zs, h, h', rfl⟩
      cases h
      exact h'
  | cons a as ih =>
    rw [List.cons_append, execAll_cons]
    constructor
    · rintro ⟨m, b, bs', h, h', rfl⟩
      obtain ⟨m', ys, zs, h1, h2, rfl⟩ := ih.mp h'
      exact ⟨m', b :: ys, zs, execAll_cons.mpr ⟨m, b, ys, h, h1, rfl⟩, h2, rfl⟩
    · rintro ⟨m', ys, zs, h, h2, rfl⟩
      obtain ⟨m, b, bs', h1, h3, rfl⟩ := execAll_cons.mp h
      exact ⟨m, b, bs' ++ zs, h1, ih.mpr ⟨m', bs', zs, h3, h2, rfl⟩, rfl⟩

/-- Every result is what one of the operations returned. -/
theorem execAll_mem {as : List α} {s t : σ} {bs : List β} (h : execAll exec as s = .ok (t, bs)) {b : β}
    (hb : b ∈ bs) : ∃ a ∈ as, ∃ m n, exec a m = .ok (n, b) := by
  induction as generalizing s bs with
  | nil =>
    cases h
    cases hb
  | cons a as ih =>
    obtain ⟨m, c, cs, h1, h2, rfl⟩ := execAll_cons.mp h
    rcases List.mem_cons.mp hb with rfl | hb
    · exact ⟨a, List.mem_cons_self, s, m, h1⟩
    · obtain ⟨a', ha', h'⟩ := ih h2 hb
      exact ⟨a', List.mem_cons_of_mem a ha', h'⟩

/-- An operation moves in front of operations it commutes with. -/
theorem execAll_toFront {p : List α} {a : α} {s t : σ} {xs : List β} (hp : ∀ x ∈ p, Commute exec x a)
    (h : execAll exec (p ++ [a]) s = .ok (t, xs)) :
    ∃ b ys, execAll exec (a :: p) s = .ok (t, b :: ys) ∧ xs = ys ++ [b] := by
  induction p generalizing s xs with
  | nil =>
    obtain ⟨m, b, bs, h1, h2, rfl⟩ := execAll_cons.mp h
    cases h2
    exact ⟨b, [], h, rfl⟩
  | cons x p ih =>
    obtain ⟨m, c, cs, h1, h2, rfl⟩ := execAll_cons.mp h
    obtain ⟨b, ys, h3, rfl⟩ := ih (fun y hy => hp y (by simp [hy])) h2
    obtain ⟨m', b', ys', h4, h5, h6⟩ := execAll_cons.mp h3
    cases h6
    -- `x` and `a` are now adjacent
    have hxa : execAll exec [x, a] s = .ok (m', [c, b]) :=
      execAll_cons.mpr ⟨m, c, [b], h1, execAll_cons.mpr ⟨m', b, [], h4, rfl, rfl⟩, rfl⟩
    obtain ⟨n, d, ds, h7, h8, h9⟩ := execAll_cons.mp (hp x (by simp) s m' c b hxa)
    cases h9
    obtain ⟨n', d', ds', h10, h11, h12⟩ := execAll_cons.mp h8
    cases h12
    cases h11
    exact ⟨b, c :: ys, execAll_cons.mpr ⟨n, b, c :: ys, h7, execAll_cons.mpr ⟨m', c, ys, h10, h5, rfl⟩, rfl⟩, rfl⟩

/-- **Reordering.** `l` is sorted by the asymmetric relation `R`, and `l'` has the same operations in an order in
which the ones out of place commute. -/
theorem execAll_perm {R : α → α → Prop} (hR : ∀ x y, R x y → ¬ R y x) {l l' : List α} {s t : σ}
    {xs : List β} (hl : l.Pairwise R) (hp : l.Perm l') (hl' : l'.Pairwise fun x y => R x y ∨ Commute exec x y)
    (h : execAll exec l' s = .ok (t, xs)) :
    ∃ ys, execAll exec l s = .ok (t, ys) ∧ ys.Perm xs := by
  induction l generalizing l' s xs with
  | nil =>
    rw [hp.nil_eq.symm] at h
    cases h
    exact ⟨[], rfl, .nil⟩
  | cons a l ih =>
    obtain ⟨p, q, rfl⟩ := List.append_of_mem (hp.subset (List.mem_cons_self))
    have hpq : l.Perm (p ++ q) := List.Perm.cons_inv (hp.trans List.perm_middle)
    have hcomm : ∀ x ∈ p, Commute exec x a := by
      intro x hx
      rcases (List.pairwise_append.mp hl').2.2 x hx a (by simp) with hr | hc
      · have hxl : x ∈ l := hpq.symm.subset (by simp [hx])
        exact absurd hr (hR _ _ (List.rel_of_pairwise_cons hl hxl))
      · exact hc
    have h' : execAll exec ((p ++ [a]) ++ q) s = .ok (t, xs) := by simpa using h
    obtain ⟨m, ys, zs, h1, h2, rfl⟩ := execAll_append.mp h'
    obtain ⟨b, ys', h3, rfl⟩ := execAll_toFront hcomm h1
    obtain ⟨m1, b', ys'', h4, h5, h6⟩ := execAll_cons.mp h3
    cases h6
    have hrest : (p ++ q).Pairwise fun x y => R x y ∨ Commute exec x y :=
      hl'.sublist (List.Sublist.append (List.Sublist.refl _) (List.sublist_cons_self a q))
    obtain ⟨us, h7, h8⟩ := ih (List.Pairwise.of_cons hl) hpq hrest
      (execAll_append.mpr ⟨m, ys', zs, h5, h2, rfl⟩)
    refine ⟨b :: us, execAll_cons.mpr ⟨m1, b, us, h4, h7, rfl⟩, ?_⟩
    rw [List.append_assoc, List.singleton_append]
    exact (h8.cons b).trans List.perm_middle.symm

end SocModel.Lib
