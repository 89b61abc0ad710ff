import Mathlib.Algebra.Group.Nat.Defs
import SocModel.Lib.CText

/-!
# Numerals

What a C program calls a number: a string of digits, with the prefix of its base and a sign. `strtol` reads such a
string to its end and finds its value; of another string it reads the front.

* `digitString`, `numeral`, `literal` : the value of a string that is a number, `none` for another one;
* `strtol_of_literal`, `strtol_of_digitString` : `strtol` on them;
* `numeral_head`, `literal_cases` : what they look like.
-/

namespace SocModel.Lib

/-- The value of a digit, 0 for another character. -/
def digitNat (c : Char) : Nat := (digitVal c).getD 0

/-- The number that digits spell behind `acc`. -/
def digitsNat (base acc : Nat) (ds : CStr) : Nat := ds.foldl (fun acc c => acc * base + digitNat c) acc

/-- The value of a string of digits with at least one of them. -/
def digitString (base : Nat) (ds : CStr) : Option Nat :=
  if ds ≠ [] ∧ ds.all (isDigit base) then some (digitsNat base 0 ds) else none

/-- A numeral without a sign: hexadecimal, octal or decimal. -/
def numeral : CStr → Option Nat
  | '0' :: x :: ds => if x = 'x' ∨ x = 'X' then digitString 16 ds else digitString 8 (x :: ds)
  | ds => digitString 10 ds

/-- A numeral with an optional sign. -/
def literal : CStr → Option Int
  | '-' :: ds => (numeral ds).map fun n : Nat => -(n : Int)
  | '+' :: ds => (numeral ds).map fun n : Nat => (n : Int)
  | ds => (numeral ds).map fun n : Nat => (n : Int)

/-! ## Digits -/

theorem digits_eq_digitsNat {base acc : Nat} {ds : CStr} (h : ∀ c ∈ ds, isDigit base c) :
    digits base acc ds = digitsNat base acc ds := by
  induction ds generalizing acc with
  | nil => rfl
  | cons c ds ih =>
    rw [List.forall_mem_cons] at h
    rw [digits, if_pos h.1, ih h.2]
    rfl

theorem digitString_eq_some {base n : Nat} {ds : CStr} :
    digitString base ds = some n ↔ ds ≠ [] ∧ (∀ c ∈ ds, isDigit base c) ∧ digitsNat base 0 ds = n := by
  unfold digitString
  split
  · next h =>
    rw [List.all_eq_true] at h
    rw [Option.some.injEq]
    exact ⟨fun hn => ⟨h.1, h.2, hn⟩, fun hn => hn.2.2⟩
  · next h =>
    rw [List.all_eq_true] at h
    simp only [reduceCtorEq, false_iff]
    tauto

theorem digits_of_digitString {base n : Nat} {ds : CStr} (h : digitString base ds = some n) :
    digits base 0 ds = n := by
  obtain ⟨-, hd, hn⟩ := digitString_eq_some.mp h
  rw [digits_eq_digitsNat hd, hn]

/-- A digit is no space and no sign. -/
theorem isDigit_ne {base : Nat} {c : Char} (h : isDigit base c) : isSpace c = false ∧ c ≠ '-' ∧ c ≠ '+' := by
  have hv : digitVal c ≠ none := by
    intro hc
    simp [isDigit, hc] at h
  refine ⟨?_, ?_, ?_⟩
  · by_contra hs
    have hle : c.toNat ≤ 32 := by
      simp only [isSpace, Bool.not_eq_false, Bool.or_eq_true, decide_eq_true_eq, Bool.and_eq_true] at hs
      rcases hs with rfl | hs
      · decide
      · omega
    refine hv ?_
    unfold digitVal
    have hlt (d : Char) (hd : 33 ≤ d.toNat) : ¬ d ≤ c := by
      intro hdc
      have : d.toNat ≤ c.toNat := hdc
      omega
    rw [if_neg fun h => hlt '0' (by decide) h.1, if_neg fun h => hlt 'a' (by decide) h.1,
      if_neg fun h => hlt 'A' (by decide) h.1]
  · rintro rfl
    exact hv (by decide)
  · rintro rfl
    exact hv (by decide)

/-! ## `strtol` on a number -/

/-- `strtol` behind the spaces and the sign. -/
def strtolUnsigned (base : Nat) (s : CStr) : Nat :=
  let (base, s) := if base = 0 then basePrefix s else (base, s)
  digits base 0 s

theorem strtol_minus (base : Nat) (ds : CStr) :
    strtol base ('-' :: ds) = clampLong (-(strtolUnsigned base ds : Int)) := rfl

theorem strtol_plus (base : Nat) (ds : CStr) : strtol base ('+' :: ds) = clampLong (strtolUnsigned base ds) := rfl

theorem strtol_unsigned {base : Nat} {c : Char} {ds : CStr} (hs : isSpace c = false) (hm : c ≠ '-') (hp : c ≠ '+') :
    strtol base (c :: ds) = clampLong (strtolUnsigned base (c :: ds)) := by
  unfold strtol
  rw [List.dropWhile_cons_of_neg (by simp [hs])]
  simp only
  split
  · next h => exact absurd (List.cons.inj h).1 hm
  · next h => exact absurd (List.cons.inj h).1 hp
  · rfl

theorem digitString_cons {base n : Nat} {ds : CStr} (h : digitString base ds = some n) :
    ∃ c cs, ds = c :: cs ∧ isDigit base c := by
  obtain ⟨hne, hd, -⟩ := digitString_eq_some.mp h
  obtain ⟨c, cs, rfl⟩ := List.exists_cons_of_ne_nil hne
  exact ⟨c, cs, rfl, hd c List.mem_cons_self⟩

/-- **A string of digits** is read in the given base. -/
theorem strtol_of_digitString {base n : Nat} {ds : CStr} (hb : base ≠ 0) (h : digitString base ds = some n) :
    strtol base ds = clampLong n := by
  obtain ⟨c, cs, rfl, hc⟩ := digitString_cons h
  obtain ⟨hs, hm, hp⟩ := isDigit_ne hc
  rw [strtol_unsigned hs hm hp, strtolUnsigned, if_neg hb]
  simp only
  rw [digits_of_digitString h]

theorem strtolUnsigned_of_numeral {n : Nat} {ds : CStr} (h : numeral ds = some n) : strtolUnsigned 0 ds = n := by
  unfold strtolUnsigned
  rw [if_pos rfl]
  unfold numeral at h
  split at h
  · next x ds =>
    split at h
    · next hx =>
      -- a hexadecimal prefix counts when a digit follows
      obtain ⟨d, cs, rfl, hd⟩ := digitString_cons h
      have hb : basePrefix ('0' :: x :: d :: cs) = (16, d :: cs) := by
        rw [basePrefix, if_pos ⟨hx, hd⟩]
      rw [hb]
      exact digits_of_digitString h
    · next hx =>
      have hb : basePrefix ('0' :: x :: ds) = (8, '0' :: x :: ds) := by
        cases ds with
        | nil => rfl
        | cons d ds => rw [basePrefix, if_neg fun hd => hx hd.1]
      -- the leading zero is a digit of value 0
      have hz : digits 8 0 ('0' :: x :: ds) = digits 8 0 (x :: ds) := rfl
      rw [hb]
      exact hz.trans (digits_of_digitString h)
  · next hne =>
    obtain ⟨d, cs, rfl, hd⟩ := digitString_cons h
    by_cases h0 : d = '0'
    · subst h0
      cases cs with
      | nil =>
        rw [← digits_of_digitString h]
        rfl
      | cons x cs => exact absurd rfl (hne x cs)
    · have hb : basePrefix (d :: cs) = (10, d :: cs) := by
        unfold basePrefix
        split
        · next heq => exact absurd (List.cons.inj heq).1 h0
        · next heq => exact absurd (List.cons.inj heq).1 h0
        · rfl
      rw [hb]
      exact digits_of_digitString h

/-- A numeral starts with a decimal digit. -/
theorem numeral_head {n : Nat} {ds : CStr} (h : numeral ds = some n) : ∃ c cs, ds = c :: cs ∧ isDigit 10 c := by
  unfold numeral at h
  split at h
  · exact ⟨_, _, rfl, by decide⟩
  · exact digitString_cons h

/-- What a literal is, by its first character. -/
theorem literal_cases {v : Int} {s : CStr} (h : literal s = some v) :
    (∃ ds n, s = '-' :: ds ∧ numeral ds = some n ∧ v = -(n : Int)) ∨
      (∃ ds n, s = '+' :: ds ∧ numeral ds = some n ∧ v = n) ∨ ∃ n, numeral s = some n ∧ v = n := by
  unfold literal at h
  split at h
  · next ds =>
    obtain ⟨n, hn, rfl⟩ := Option.map_eq_some_iff.mp h
    exact .inl ⟨ds, n, rfl, hn, rfl⟩
  · next ds =>
    obtain ⟨n, hn, rfl⟩ := Option.map_eq_some_iff.mp h
    exact .inr (.inl ⟨ds, n, rfl, hn, rfl⟩)
  · obtain ⟨n, hn, rfl⟩ := Option.map_eq_some_iff.mp h
    exact .inr (.inr ⟨n, hn, rfl⟩)

/-- **A literal** is read to its end. -/
theorem strtol_of_literal {v : Int} {s : CStr} (h : literal s = some v) : strtol 0 s = clampLong v := by
  rcases literal_cases h with ⟨ds, n, rfl, hn, rfl⟩ | ⟨ds, n, rfl, hn, rfl⟩ | ⟨n, hn, rfl⟩
  · rw [strtol_minus, strtolUnsigned_of_numeral hn]
  · rw [strtol_plus, strtolUnsigned_of_numeral hn]
  · obtain ⟨c, cs, rfl, hc⟩ := numeral_head hn
    obtain ⟨hs, hm, hp⟩ := isDigit_ne hc
    rw [strtol_unsigned hs hm hp, strtolUnsigned_of_numeral hn]

/-- A number within `long` is read exactly. -/
theorem clampLong_of_mem {v : Int} (h : -2 ^ 63 ≤ v) (h' : v < 2 ^ 63) : clampLong v = (v, false) := by
  unfold clampLong
  rw [if_neg (by omega), if_neg (by omega)]

theorem atoi_of_digitString {n : Nat} {ds : CStr} (h : digitString 10 ds = some n) (hn : n < 2 ^ 31) :
    atoi ds = n := by
  unfold atoi
  rw [strtol_of_digitString (by decide) h, clampLong_of_mem (by omega) (by omega)]
  rw [BitVec.toInt_ofInt, Int.bmod_eq_of_le (by omega) (by omega)]

example : literal "-0x1f".toList = some (-31) ∧ literal "12a".toList = none ∧ literal "-".toList = none := by decide

end SocModel.Lib
