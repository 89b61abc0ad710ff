import Mathlib.Algebra.Group.Int.Defs
import Mathlib.Tactic.Common

/-!
# The text functions of the C library

`strtok` splits off one token, `strtol` reads an integer with the prefix rules of base 0 and saturates at the
range of `long`, `fgets` cuts a file into lines of bounded length, `printf02d` and `printf08x` are two conversions
of `sprintf`. A string is the list of its characters before the terminator.
-/

namespace SocModel.Lib

abbrev CStr := List Char

/-- `strtok`: the token and what is left for the next call, `none` for a null pointer. -/
def strtok (delims : CStr) (s : CStr) : Option (CStr × CStr) :=
  match s.dropWhile (delims.contains ·) with
  | [] => none
  | c :: cs =>
    some ((c :: cs).takeWhile (!delims.contains ·), ((c :: cs).dropWhile (!delims.contains ·)).drop 1)

/-- The tokens that successive calls of `strtok` return, at most `fuel` of them. -/
def tokens (delims : CStr) : Nat → CStr → List CStr
  | 0, _ => []
  | fuel + 1, s =>
    match strtok delims s with
    | none => []
    | some (t, rest) => t :: tokens delims fuel rest

/-- `isspace`. -/
def isSpace (c : Char) : Bool := c = ' ' || (9 ≤ c.toNat && c.toNat ≤ 13)

def digitVal (c : Char) : Option Nat :=
  if '0' ≤ c ∧ c ≤ '9' then some (c.toNat - '0'.toNat)
  else if 'a' ≤ c ∧ c ≤ 'z' then some (c.toNat - 'a'.toNat + 10)
  else if 'A' ≤ c ∧ c ≤ 'Z' then some (c.toNat - 'A'.toNat + 10)
  else none

/-- Whether `c` is a digit in the given base. -/
def isDigit (base : Nat) (c : Char) : Bool :=
  match digitVal c with
  | some d => d < base
  | none => false

/-- The value of the longest run of digits. -/
def digits (base : Nat) : Nat → CStr → Nat
  | acc, [] => acc
  | acc, c :: cs => if isDigit base c then digits base (acc * base + (digitVal c).getD 0) cs else acc

/-- The base and the digits of a number without its sign, for `strtol(s, NULL, 0)`. -/
def basePrefix : CStr → Nat × CStr
  | '0' :: x :: d :: cs =>
    if (x = 'x' ∨ x = 'X') ∧ isDigit 16 d then (16, d :: cs) else (8, '0' :: x :: d :: cs)
  | '0' :: cs => (8, '0' :: cs)
  | cs => (10, cs)

/-- The limits of `long`, and whether `strtol` reports `ERANGE`. -/
def clampLong (v : Int) : Int × Bool :=
  if v > 2 ^ 63 - 1 then (2 ^ 63 - 1, true) else if v < -2 ^ 63 then (-2 ^ 63, true) else (v, false)

/-- `strtol(s, NULL, 0)` or `strtol(s, NULL, 10)`. -/
def strtol (base : Nat) (s : CStr) : Int × Bool :=
  let s := s.dropWhile isSpace
  let (neg, s) : Bool × CStr := match s with
    | '-' :: s => (true, s)
    | '+' :: s => (false, s)
    | s => (false, s)
  let (base, s) := if base = 0 then basePrefix s else (base, s)
  let v : Int := digits base 0 s
  clampLong (if neg then -v else v)

/-- `atoi`: `strtol` in base 10, converted to `int`. -/
def atoi (s : CStr) : Int := (BitVec.ofInt 32 (strtol 10 s).1).toInt

/-- The strings that successive calls of `fgets(buf, cap + 1, file)` read; `line` is what the call under way
has read, in reverse. -/
def fgets (cap : Nat) : CStr → List Char → List CStr
  | line, [] => if line = [] then [] else [line.reverse]
  | line, c :: cs =>
    if c = '\n' ∨ line.length + 1 = cap then (c :: line).reverse :: fgets cap [] cs
    else fgets cap (c :: line) cs

/-- The lines of a file, each with its newline; `line` is the beginning of the first one, in reverse. -/
def sourceLines : CStr → List Char → List CStr
  | line, [] => if line = [] then [] else [line.reverse]
  | line, c :: cs =>
    if c = '\n' then (c :: line).reverse :: sourceLines [] cs else sourceLines (c :: line) cs

theorem length_le_of_sourceLines {line : CStr} {cs : List Char} {cap : Nat} (hl : 0 < line.length)
    (h : ∀ l ∈ sourceLines line cs, l.length ≤ cap) : line.length ≤ cap := by
  induction cs generalizing line with
  | nil =>
    rw [sourceLines, if_neg (List.ne_nil_of_length_pos hl)] at h
    simpa using h line.reverse (List.mem_singleton.mpr rfl)
  | cons c cs ih =>
    rw [sourceLines] at h
    split at h
    · have := h _ List.mem_cons_self
      simp only [List.length_reverse, List.length_cons] at this
      omega
    · have := @ih (c :: line) (Nat.succ_pos _) h
      simp only [List.length_cons] at this
      omega

/-- Lines that fit into the buffer are read one by one. -/
theorem fgets_eq_sourceLines {cap : Nat} {line : CStr} {cs : List Char}
    (h : ∀ l ∈ sourceLines line cs, l.length ≤ cap) : fgets cap line cs = sourceLines line cs := by
  induction cs generalizing line with
  | nil => rfl
  | cons c cs ih =>
    rw [fgets, sourceLines]
    rw [sourceLines] at h
    by_cases hc : c = '\n'
    · rw [if_pos hc] at h
      rw [if_pos (.inl hc), if_pos hc, ih fun l hl => h l (List.mem_cons_of_mem _ hl)]
    · rw [if_neg hc] at h
      by_cases hcap : line.length + 1 = cap
      · -- the buffer is full: the file ends here, or the line would be longer
        rw [if_pos (.inr hcap), if_neg hc]
        rcases cs with _ | ⟨d, cs⟩
        · rfl
        · have hlong : (d :: c :: line).length ≤ cap := by
            rw [sourceLines] at h
            split at h
            · have := h _ List.mem_cons_self
              simp only [List.length_reverse, List.length_cons] at this ⊢
              exact this
            · exact @length_le_of_sourceLines (d :: c :: line) _ _ (Nat.succ_pos _) h
          simp only [List.length_cons] at hlong
          omega
      · rw [if_neg (by tauto), if_neg hc, ih h]

/-- `%02d` -/
def printf02d (v : Int) : CStr :=
  if v < 0 then '-' :: Nat.toDigits 10 v.natAbs else (Nat.toDigits 10 v.toNat).leftpad 2 '0'

/-- `%08x` -/
def printf08x (w : BitVec 32) : CStr := (List.range 8).reverse.map fun i => Nat.digitChar ((w.toNat >>> (4 * i)) % 16)

/-- The string in a buffer ends at the first zero byte. -/
def terminated (s : List Char) : CStr := s.takeWhile (· ≠ '\x00')

example : strtol 0 "-0x10,".toList = (-16, false) := by decide

end SocModel.Lib
