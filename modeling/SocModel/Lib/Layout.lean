import Mathlib.Data.List.Pairwise
import SocModel.Lib.Bytes

/-!
# A location counter

An assembler lays items one behind the other from a location on; a directive sets the location anew. What lies
between two settings is a section.

* `locAfter`, `placed`, `sections` : the location, the places of the items and the sections of a list of steps;
* `pairwise_apart_placed` : the items are apart exactly when the sections are;
* `Fits` : the same of two sections, as a comparison of where they start and end;
* `foldl_store_load`, `foldl_update_apply` : what is written at places apart is still there at the end;
* `storeAll` : numbers one behind another, `storeAll_injective` : what of them the bytes tell.
-/

namespace SocModel.Lib

/-! ## Steps of the counter -/

inductive LayStep where
  /-- The location is set. -/
  | org (a : Nat)
  /-- An item of `n` bytes is laid. -/
  | item (n : Nat)
  deriving DecidableEq, Repr

def locAfter : Nat → List LayStep → Nat
  | loc, [] => loc
  | _, .org a :: ss => locAfter a ss
  | loc, .item n :: ss => locAfter (loc + n) ss

/-- The place and the size of every item. -/
def placed : Nat → List LayStep → List (Nat × Nat)
  | _, [] => []
  | _, .org a :: ss => placed a ss
  | loc, .item n :: ss => (loc, n) :: placed (loc + n) ss

/-- The start and the size of every section; the first one starts at `start` and holds `size` bytes already. -/
def sections : Nat → Nat → List LayStep → List (Nat × Nat)
  | start, size, [] => [(start, size)]
  | start, size, .org a :: ss => (start, size) :: sections a 0 ss
  | start, size, .item n :: ss => sections start (size + n) ss

theorem locAfter_append (loc : Nat) (ss ts : List LayStep) :
    locAfter loc (ss ++ ts) = locAfter (locAfter loc ss) ts := by
  induction ss generalizing loc with
  | nil => rfl
  | cons s ss ih => rcases s with a | n <;> exact ih _

theorem placed_append (loc : Nat) (ss ts : List LayStep) :
    placed loc (ss ++ ts) = placed loc ss ++ placed (locAfter loc ss) ts := by
  induction ss generalizing loc with
  | nil => rfl
  | cons s ss ih =>
    rcases s with a | n
    · exact ih a
    · exact congrArg ((loc, n) :: ·) (ih (loc + n))

theorem locAfter_replicate (loc n k : Nat) : locAfter loc (List.replicate k (.item n)) = loc + k * n := by
  induction k generalizing loc with
  | zero => simp [locAfter]
  | succ k ih =>
    rw [List.replicate_succ, locAfter, ih, Nat.succ_mul]
    omega

theorem placed_replicate (loc n k : Nat) :
    placed loc (List.replicate k (.item n)) = (List.range k).map fun i => (loc + i * n, n) := by
  induction k generalizing loc with
  | zero => rfl
  | succ k ih =>
    rw [List.replicate_succ, placed, ih, List.range_succ_eq_map, List.map_cons, List.map_map]
    congr 1
    · rw [Nat.zero_mul, Nat.add_zero]
    · apply List.map_congr_left
      intro i _
      rw [Function.comp_apply, Nat.succ_mul, Nat.add_assoc, Nat.add_comm n]

/-! ## Apart -/

/-- Two places share no address. -/
def Apart (x y : Nat × Nat) : Prop := Disjoint (range x.1 x.2) (range y.1 y.2)

theorem range_add (a n m : Nat) : range a (n + m) = range a n ∪ range (a + n) m := by
  ext x
  simp only [mem_range, Set.mem_union]
  omega

theorem apart_empty (x : Nat × Nat) (a : Nat) : Apart x (a, 0) := by
  refine Set.disjoint_left.mpr fun y _ hy => ?_
  simp only [mem_range] at hy
  omega

theorem apart_comm {x y : Nat × Nat} : Apart x y ↔ Apart y x := disjoint_comm

theorem apart_add (x : Nat × Nat) (a n m : Nat) : Apart x (a, n + m) ↔ Apart x (a, n) ∧ Apart x (a + n, m) := by
  unfold Apart
  simp only [range_add, Set.disjoint_union_right]

theorem apart_iff {a n b m : Nat} : Apart (a, n) (b, m) ↔ n = 0 ∨ m = 0 ∨ a + n ≤ b ∨ b + m ≤ a := by
  constructor
  · intro h
    by_contra hne
    have hmem : max a b ∈ range a n ∧ max a b ∈ range b m := by
      simp only [mem_range]
      omega
    exact Set.disjoint_left.mp h hmem.1 hmem.2
  · rintro (rfl | rfl | h)
    · exact apart_comm.mp (apart_empty _ _)
    · exact apart_empty _ _
    · exact disjoint_range h

/-- A place is apart from the sections when it is apart from the items. -/
theorem apart_sections (x : Nat × Nat) (start size : Nat) (ss : List LayStep) :
    (∀ y ∈ sections start size ss, Apart x y) ↔
      Apart x (start, size) ∧ ∀ y ∈ placed (start + size) ss, Apart x y := by
  induction ss generalizing start size with
  | nil => simp [sections, placed]
  | cons s ss ih =>
    rcases s with a | n
    · rw [sections, placed, List.forall_mem_cons, ih a 0, Nat.add_zero]
      exact ⟨fun h => ⟨h.1, h.2.2⟩, fun h => ⟨h.1, apart_empty x a, h.2⟩⟩
    · rw [sections, placed, List.forall_mem_cons, ih start (size + n), apart_add, Nat.add_assoc, and_assoc]

theorem pairwise_sections (start size : Nat) (ss : List LayStep) :
    (sections start size ss).Pairwise Apart ↔ ((start, size) :: placed (start + size) ss).Pairwise Apart := by
  induction ss generalizing start size with
  | nil => simp [sections, placed]
  | cons s ss ih =>
    rcases s with a | n
    · rw [sections, placed, List.pairwise_cons, List.pairwise_cons, ih a 0, apart_sections, List.pairwise_cons,
        Nat.add_zero]
      constructor
      · exact fun h => ⟨h.1.2, h.2.2⟩
      · exact fun h => ⟨⟨apart_empty _ _, h.1⟩, fun y _ => apart_comm.mp (apart_empty y a), h.2⟩
    · rw [sections, placed, ih start (size + n)]
      simp only [List.pairwise_cons, List.forall_mem_cons]
      have hc (y : Nat × Nat) : Apart (start, size + n) y ↔ Apart (start, size) y ∧ Apart (start + size, n) y := by
        rw [apart_comm, apart_add, apart_comm, apart_comm (x := y)]
      have hd : Apart (start, size) (start + size, n) := apart_iff.mpr (by omega)
      simp only [hc, Nat.add_assoc]
      constructor
      · exact fun h => ⟨⟨hd, fun y hy => (h.1 y hy).1⟩, fun y hy => (h.1 y hy).2, h.2⟩
      · exact fun h => ⟨fun y hy => ⟨h.1.2 y hy, h.2.1 y hy⟩, h.2.2⟩

/-- **The items are apart exactly when the sections are.** -/
theorem pairwise_apart_placed (loc : Nat) (ss : List LayStep) :
    (placed loc ss).Pairwise Apart ↔ (sections loc 0 ss).Pairwise Apart := by
  rw [pairwise_sections, List.pairwise_cons, Nat.add_zero]
  exact ⟨fun h => ⟨fun y _ => apart_comm.mp (apart_empty y loc), h⟩, fun h => h.2⟩

/-- Of two sections that hold something, both start elsewhere and the lower one ends where the other starts, or
before. -/
def Fits (x y : Nat × Nat) : Prop :=
  0 < x.2 → 0 < y.2 → x.1 ≠ y.1 ∧ (x.1 < y.1 → x.1 + x.2 ≤ y.1) ∧ (y.1 < x.1 → y.1 + y.2 ≤ x.1)

instance (x y : Nat × Nat) : Decidable (Fits x y) := by unfold Fits; infer_instance

theorem apart_iff_fits (x y : Nat × Nat) : Apart x y ↔ Fits x y := by
  rw [show Apart x y ↔ _ from apart_iff (a := x.1) (n := x.2)]
  unfold Fits
  omega

/-! ## What is written apart is kept -/

theorem foldl_store_frame {ι : Type} (loc size value : ι → Nat) (its : List ι) (m : Store) {a n : Nat}
    (h : ∀ x ∈ its, Apart (loc x, size x) (a, n)) :
    load (its.foldl (fun m x => store m (loc x) (size x) (value x)) m) a n = load m a n := by
  induction its generalizing m with
  | nil => rfl
  | cons x its ih =>
    rw [List.forall_mem_cons] at h
    rw [List.foldl_cons, ih _ h.2]
    exact load_store_of_disjoint h.1

/-- Numbers stored at places apart are all there. -/
theorem foldl_store_load {ι : Type} (loc size value : ι → Nat) {its : List ι} (m : Store)
    (h : its.Pairwise fun x y => Apart (loc x, size x) (loc y, size y)) {x : ι} (hx : x ∈ its) :
    load (its.foldl (fun m x => store m (loc x) (size x) (value x)) m) (loc x) (size x) =
      value x % 256 ^ size x := by
  induction its generalizing m with
  | nil => cases hx
  | cons y its ih =>
    rw [List.pairwise_cons] at h
    rw [List.foldl_cons]
    rcases List.mem_cons.mp hx with rfl | hx
    · rw [foldl_store_frame loc size value its _ fun z hz => apart_comm.mp (h.1 z hz), load_store_self]
    · exact ih _ h.2 hx

theorem foldl_update_frame {ι κ β : Type} [DecidableEq κ] (key : ι → κ) (val : ι → β) (its : List ι) (f : κ → β)
    {k : κ} (h : ∀ x ∈ its, key x ≠ k) :
    its.foldl (fun f x => Function.update f (key x) (val x)) f k = f k := by
  induction its generalizing f with
  | nil => rfl
  | cons x its ih =>
    rw [List.forall_mem_cons] at h
    rw [List.foldl_cons, ih _ h.2, Function.update_of_ne h.1.symm]

/-- Values written at different keys are all there. -/
theorem foldl_update_apply {ι κ β : Type} [DecidableEq κ] (key : ι → κ) (val : ι → β) {its : List ι} (f : κ → β)
    (h : its.Pairwise fun x y => key x ≠ key y) {x : ι} (hx : x ∈ its) :
    its.foldl (fun f x => Function.update f (key x) (val x)) f (key x) = val x := by
  induction its generalizing f with
  | nil => cases hx
  | cons y its ih =>
    rw [List.pairwise_cons] at h
    rw [List.foldl_cons]
    rcases List.mem_cons.mp hx with rfl | hx
    · rw [foldl_update_frame key val its _ fun z hz => (h.1 z hz).symm, Function.update_self]
    · exact ih _ h.2 hx

/-! ## Numbers one behind another -/

/-- Numbers of `n` bytes each, from `a` on. -/
def storeAll (m : Store) (a n : Nat) : List Nat → Store
  | [] => m
  | v :: vs => storeAll (store m a n v) (a + n) n vs

/-- The low bytes are what a store keeps of a number. -/
theorem store_congr (m : Store) (a : Nat) {n v w : Nat} (h : v % 256 ^ n = w % 256 ^ n) :
    store m a n v = store m a n w := by
  have hdigit (u i : Nat) (hi : i < n) : u / 256 ^ i % 256 = u % 256 ^ n / 256 ^ i % 256 := by
    obtain ⟨j, rfl⟩ := Nat.exists_eq_add_of_lt hi
    rw [Nat.add_assoc, pow_add, Nat.mod_mul_right_div_self, pow_succ']
    exact (Nat.mod_mul_right_mod _ _ _).symm
  funext x
  by_cases hx : a ≤ x ∧ x < a + n
  · rw [store_apply_of_mem hx, store_apply_of_mem hx]
    apply BitVec.eq_of_toNat_eq
    have hi : x - a < n := by omega
    rw [BitVec.toNat_ofNat, BitVec.toNat_ofNat, show 2 ^ 8 = 256 from rfl, hdigit v _ hi, hdigit w _ hi, h]
  · rw [store_apply_of_not_mem hx, store_apply_of_not_mem hx]

theorem storeAll_below {m : Store} {a n x : Nat} {vs : List Nat} (hx : x < a) : storeAll m a n vs x = m x := by
  induction vs generalizing m a with
  | nil => rfl
  | cons v vs ih =>
    rw [storeAll, ih (by omega)]
    exact store_apply_of_not_mem (by omega)

/-- The bytes tell the numbers. -/
theorem storeAll_injective {m m' : Store} {a n : Nat} {vs ws : List Nat} (hl : vs.length = ws.length)
    (h : storeAll m a n vs = storeAll m' a n ws) : vs.map (· % 256 ^ n) = ws.map (· % 256 ^ n) := by
  induction vs generalizing m m' a ws with
  | nil => rw [List.length_eq_zero_iff.mp hl.symm]
  | cons v vs ih =>
    obtain ⟨w, ws, rfl⟩ : ∃ w ws', ws = w :: ws' := by
      cases ws with
      | nil => cases hl
      | cons w ws => exact ⟨w, ws, rfl⟩
    -- the first number lies below all the others
    have hfirst (m : Store) (u : Nat) (us : List Nat) : load (storeAll m a n (u :: us)) a n = u % 256 ^ n := by
      rw [← load_store_self m a n u]
      exact load_congr fun x _ hx => storeAll_below hx
    rw [List.map_cons, List.map_cons, ← hfirst m v vs, ← hfirst m' w ws, h]
    exact congrArg _ (ih (Nat.succ.inj hl) h)

end SocModel.Lib
